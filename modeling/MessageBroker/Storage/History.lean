import MessageBroker.Storage.Appends
import MessageBroker.Storage.Cutting
import MessageBroker.Storage.Epochs

/-!
# The epoch history of a log

The cached epochs describe the batches of a log: the epoch in force at the base
offset of a batch is the one stamped in its header. The file shows what each
operation of the log needs to keep it so. Appends at the end need the new epoch
to be the last one, or newer than every epoch that has batches.
-/
namespace MessageBroker.Storage

open Lib.Bytes Lib.Tiling EpochCache

namespace Log

/-- Every batch's epoch is the cached one. -/
def Stamped (l : Log) : Prop :=
  ∀ c ∈ l.batches, l.epochForOffset (baseOffset c) = some (partitionLeaderEpoch c)

/-- The history is increasing, true of every batch, and starts its epochs at
batches as far as the log reaches. -/
structure History (l : Log) : Prop where
  increasing : l.epochCache.Increasing
  stamped : l.Stamped
  anchored : ∀ e ∈ l.epochCache, e.startOffset < l.nextOffset →
    ∃ c ∈ l.batches, baseOffset c = e.startOffset

/-- The last cached epoch is this one and starts within the log. -/
def Leads (l : Log) (epoch : Int32) : Prop :=
  ∃ last, l.epochCache.getLast? = some last ∧ last.epoch = epoch ∧ last.startOffset ≤ l.nextOffset

/-- An epoch that may be assigned at the end of the log without hiding batches:
every epoch that has batches is older, or is the last one cached. -/
def Admits (l : Log) (epoch : Int32) : Prop :=
  ∀ e ∈ l.epochCache, e.startOffset < l.nextOffset → e.epoch < epoch ∨
    (e.epoch = epoch ∧ l.epochCache.getLast? = some e)

/-- Batches start inside the log. -/
theorem Ok.base_lt {crc : Checksum} {l : Log} (h : l.Ok crc) {c : ByteString}
    (hc : c ∈ l.batches) : baseOffset c < l.nextOffset := by
  have := h.tiles.mem hc
  omega

/-- New cached epochs with the same batches. -/
theorem History.reassign {crc : Checksum} {l l' : Log} (h : l.History) (hok : l.Ok crc)
    (hbatches : l'.batches = l.batches) (hnext : l'.nextOffset = l.nextOffset)
    (hinc : l'.epochCache.Increasing)
    (hmem : ∀ x : EpochEntry, x.startOffset < l.nextOffset →
      (x ∈ l.epochCache ↔ x ∈ l'.epochCache)) : l'.History where
  increasing := hinc
  stamped c hc := by
    rw [hbatches] at hc
    rw [← h.stamped c hc]
    exact (epochForOffset_congr h.increasing hinc hmem (hok.base_lt hc)).symm
  anchored e he hlt := by
    rw [hnext] at hlt
    rw [hbatches]
    exact h.anchored e ((hmem e hlt).mpr he) hlt

/-! ## Assigning the leader's epoch -/

/-- An epoch that has batches although a later one is cached. -/
def Superseded (l : Log) (epoch : Int32) : Prop :=
  ∃ e ∈ l.epochCache, e.epoch = epoch ∧ e.startOffset < l.nextOffset ∧
    l.latestLeaderEpoch ≠ some epoch

instance (l : Log) (epoch : Int32) : Decidable (l.Superseded epoch) :=
  inferInstanceAs (Decidable (∃ e ∈ l.epochCache, _ ∧ _ ∧ _))

/-- An epoch not older than any stored one, and not superseded, may be assigned. -/
theorem History.admits {l : Log} (h : l.History) {epoch : Int32}
    (hle : ∀ c ∈ l.batches, partitionLeaderEpoch c ≤ epoch) (hsup : ¬ l.Superseded epoch) :
    l.Admits epoch := by
  intro e he hlt
  obtain ⟨c, hc, hb⟩ := h.anchored e he hlt
  have hstamp := h.stamped c hc
  rw [hb] at hstamp
  have hepoch : e.epoch = partitionLeaderEpoch c :=
    Option.some.inj ((epochForOffset_start h.increasing he).symm.trans hstamp)
  rcases lt_or_eq_of_le (hepoch ▸ hle c hc) with hlt' | heq
  · exact .inl hlt'
  · -- it is the latest cached epoch, so its entry is the last
    right
    refine ⟨heq, ?_⟩
    by_contra hnot
    refine hsup ⟨e, he, heq, hlt, fun hlatest => hnot ?_⟩
    unfold Log.latestLeaderEpoch at hlatest
    obtain ⟨last, hl, hle'⟩ := Option.map_eq_some_iff.mp hlatest
    rw [hl, h.increasing.eq_of_epoch he (List.mem_of_getLast? hl) (heq.trans hle'.symm)]

/-- An epoch not older than the latest one may be assigned. -/
theorem admits_of_latest {l : Log} (h : l.epochCache.Increasing) {epoch : Int32}
    (hle : ∀ latest, l.latestLeaderEpoch = some latest → latest ≤ epoch) : l.Admits epoch := by
  intro e he _
  cases hl : l.epochCache.getLast? with
  | none =>
    rw [List.getLast?_eq_none_iff.mp hl] at he
    exact absurd he List.not_mem_nil
  | some last =>
    have hlast : last.epoch ≤ epoch := hle last.epoch (by rw [Log.latestLeaderEpoch, hl]; rfl)
    have hel := h.le_last hl he
    rcases lt_or_eq_of_le (hel.trans hlast) with hlt | heq
    · exact .inl hlt
    · have : e = last := h.eq_of_epoch he (List.mem_of_getLast? hl)
        (le_antisymm hel (hlast.trans heq.ge))
      exact .inr ⟨heq, by rw [this]⟩

/-- Assigning the epoch of a new leader at the end of its log. -/
theorem History.assignLeaderEpoch {crc : Checksum} {l l' : Log} {r : Except EpochError Unit}
    {io : Faults} {epoch : Int32} (h : l.History) (hok : l.Ok crc) (hadm : l.Admits epoch)
    (ha : l.assignLeaderEpoch epoch l.nextOffset io = (r, l')) :
    l'.Ok crc ∧ l'.History ∧ l'.batches = l.batches ∧ l'.nextOffset = l.nextOffset ∧
      (r = .ok () → l'.Leads epoch) := by
  unfold Log.assignLeaderEpoch Log.assignLeaderEpochs Log.assignLoop at ha
  cases hassign : l.epochCache.assign epoch l.nextOffset with
  | error e =>
    simp only [hassign] at ha
    cases ha
    exact ⟨hok, h, rfl, rfl, fun hr => by cases hr⟩
  | ok x =>
    obtain ⟨changed, cache⟩ := x
    obtain ⟨hinc, hbelow, -, last, hl, he, hs⟩ := assign_end h.increasing hassign hadm
    simp only [hassign, Log.assignLoop] at ha
    obtain ⟨r', file, dirty, hp⟩ := Log.persistEpochCheckpoint_frame
      { l with
        epochCache := cache
        epochCheckpointDirty := l.epochCheckpointDirty || changed } io
    rw [hp] at ha
    cases ha
    exact ⟨hok.ofEpochs _ _ _, h.reassign hok rfl rfl hinc hbelow, rfl, rfl,
      fun _ => ⟨last, hl, he, hs⟩⟩

/-! ## Truncation -/

/-- The batches kept and dropped by a cut meet at its offset. -/
theorem CutAt.split {crc : Checksum} {l l' : Log} {offset : Nat}
    (h : Log.CutAt crc l l' offset) (hok : l.Ok crc) :
    ∃ cut, l.batches = l'.batches ++ cut ∧ BatchTiles l.oldestOffset offset l'.batches ∧
      BatchTiles offset l.nextOffset cut := by
  obtain ⟨cut, hsplit⟩ := h.batches
  have ht := hok.tiles
  have ht' := h.ok.tiles
  rw [h.oldest, h.next] at ht'
  rw [hsplit] at ht
  obtain ⟨m, hl, hr⟩ := tiles_append.mp ht
  rw [tiles_end_unique hl ht'] at hr
  exact ⟨cut, hsplit, ht', hr⟩

theorem CutAt.mem_iff {crc : Checksum} {l l' : Log} {offset : Nat}
    (h : Log.CutAt crc l l' offset) (hok : l.Ok crc) {c : ByteString} :
    c ∈ l'.batches ↔ c ∈ l.batches ∧ baseOffset c < offset := by
  obtain ⟨cut, hsplit, hl, hr⟩ := h.split hok
  constructor
  · intro hmem
    have := hl.mem hmem
    exact ⟨hsplit ▸ List.mem_append_left _ hmem, by omega⟩
  · rintro ⟨hc, hlt⟩
    rw [hsplit] at hc
    rcases List.mem_append.mp hc with hc | hc
    · exact hc
    · have := hr.mem hc
      omega

/-- Cutting a log keeps its history, whether the cached epochs were cut with it
or not. -/
theorem History.cutAt {crc : Checksum} {l l' : Log} {offset : Nat} (h : l.History)
    (hok : l.Ok crc) (hcut : Log.CutAt crc l l' offset)
    (hcache : l'.epochCache = l.epochCache ∨
      l'.epochCache = l.epochCache.truncateFromEnd offset) : l'.History := by
  have hinc : l'.epochCache.Increasing := by
    rcases hcache with he | he
    · rw [he]
      exact h.increasing
    · rw [he]
      exact h.increasing.takeWhile _
  have hmem : ∀ x : EpochEntry, x.startOffset < offset →
      (x ∈ l.epochCache ↔ x ∈ l'.epochCache) := by
    intro x hx
    rcases hcache with he | he
    · rw [he]
    · rw [he, mem_truncateFromEnd h.increasing]
      exact ⟨fun hm => ⟨hm, hx⟩, fun hm => hm.1⟩
  have hle : offset ≤ l.nextOffset := by
    obtain ⟨cut, -, -, hr⟩ := hcut.split hok
    exact hr.le
  refine ⟨hinc, fun c hc => ?_, fun e he hlt => ?_⟩
  · obtain ⟨hmem', hlt⟩ := (hcut.mem_iff hok).mp hc
    rw [← h.stamped c hmem']
    exact (epochForOffset_congr h.increasing hinc hmem hlt).symm
  · rw [hcut.next] at hlt
    obtain ⟨c, hc, hb⟩ := h.anchored e ((hmem e hlt).mpr he) (by omega)
    exact ⟨c, (hcut.mem_iff hok).mpr ⟨hc, by omega⟩, hb⟩

/-! ## Leader appends -/

theorem Extends.tiles {crc : Checksum} {l l' : Log} {ds : List ByteString}
    (h : Log.Extends crc l l' ds) (hok : l.Ok crc) : BatchTiles l.nextOffset l'.nextOffset ds := by
  have ht := h.ok.tiles
  rw [h.batches, h.oldest] at ht
  obtain ⟨m, hl, hr⟩ := tiles_append.mp ht
  rwa [tiles_end_unique hl hok.tiles] at hr

/-- Batches appended under cached epochs that are already right for them. -/
theorem History.extend {crc : Checksum} {l l' : Log} {ds : List ByteString} (h : l.History)
    (hx : Log.Extends crc l l' ds)
    (hds : ∀ c ∈ ds, l.epochForOffset (baseOffset c) = some (partitionLeaderEpoch c))
    (hnew : ∀ e ∈ l.epochCache, l.nextOffset ≤ e.startOffset → e.startOffset < l'.nextOffset →
      ∃ c ∈ ds, baseOffset c = e.startOffset) : l'.History where
  increasing := hx.epochCache ▸ h.increasing
  stamped c hc := by
    unfold Log.epochForOffset
    rw [hx.epochCache]
    rw [hx.batches] at hc
    rcases List.mem_append.mp hc with hc | hc
    · exact h.stamped c hc
    · exact hds c hc
  anchored e he hlt := by
    rw [hx.epochCache] at he
    rw [hx.batches]
    by_cases hold : e.startOffset < l.nextOffset
    · obtain ⟨c, hc, hb⟩ := h.anchored e he hold
      exact ⟨c, List.mem_append_left _ hc, hb⟩
    · obtain ⟨c, hc, hb⟩ := hnew e he (Nat.le_of_not_lt hold) hlt
      exact ⟨c, List.mem_append_right _ hc, hb⟩

theorem History.same {crc : Checksum} {l l' : Log} (h : l.History) (hok : l.Ok crc)
    (hx : Log.Extends crc l l' []) : l'.History := by
  refine h.extend hx (fun c hc => absurd hc List.not_mem_nil) fun e _ hge hlt => ?_
  rw [hx.next_eq hok] at hlt
  omega

theorem epoch_of_mem_stampAll {crc : Checksum} {leaderEpoch : Int32} {ds : List ByteString} :
    ∀ {offset : Nat} {c : ByteString}, (∀ d ∈ ds, Stored crc d) →
      c ∈ stampAll leaderEpoch offset ds → partitionLeaderEpoch c = leaderEpoch := by
  induction ds with
  | nil => exact fun _ hc => absurd hc List.not_mem_nil
  | cons d ds ih =>
    intro offset c hall hc
    rcases List.mem_cons.mp hc with rfl | hc
    · exact partitionLeaderEpoch_stamp leaderEpoch offset (hall d List.mem_cons_self).length_ge
    · exact ih (fun x hx => hall x (List.mem_cons_of_mem _ hx)) hc

/-- A leader of the last cached epoch appends its own batches. -/
theorem History.lead {crc : Checksum} {l l' : Log} {ds : List ByteString} {epoch : Int32}
    (h : l.History) (hok : l.Ok crc) (hx : Log.Extends crc l l' ds) (hlead : l.Leads epoch)
    (hds : ∀ c ∈ ds, partitionLeaderEpoch c = epoch) : l'.History ∧ l'.Leads epoch := by
  obtain ⟨last, hl, he, hs⟩ := hlead
  have ht := hx.tiles hok
  have hle := ht.le
  refine ⟨h.extend hx (fun c hc => ?_) fun e hmem hge hlt => ?_, last, ?_, he, by omega⟩
  · have := ht.mem hc
    rw [hds c hc, ← he]
    exact epochForOffset_last h.increasing hl (by omega)
  · have hlm : last ∈ l.epochCache := List.mem_of_getLast? hl
    have := (h.increasing.le_iff hmem hlm).mp (h.increasing.le_last hl hmem)
    cases ds with
    | nil =>
      have hnil : l.nextOffset = l'.nextOffset := ht
      omega
    | cons c cs => exact ⟨c, List.mem_cons_self, by rw [ht.1]; omega⟩
  · rw [hx.epochCache]
    exact hl

/-! ## Replica appends -/

/-- What assigning the epochs of batches that start at `a` leaves: the entries
below `a`, and an entry for every change of epoch from there on. -/
structure Assigned (before after : EpochCache) (a : Nat) (cs : List ByteString) : Prop where
  increasing : after.Increasing
  below : ∀ x : EpochEntry, x.startOffset < a → (x ∈ before ↔ x ∈ after)
  stamped : ∀ c ∈ cs, after.epochForOffset (baseOffset c) = some (partitionLeaderEpoch c)
  anchored : ∀ e ∈ after, a ≤ e.startOffset → ∃ c ∈ cs, baseOffset c = e.startOffset

/-- One batch more in front, in the epoch of the last entry. -/
theorem Assigned.cons {before after : EpochCache} {c : ByteString} {cs : List ByteString}
    (h : Assigned before after (endOffset c) cs) (hinc : before.Increasing) {last : EpochEntry}
    (hl : before.getLast? = some last) (he : last.epoch = partitionLeaderEpoch c)
    (hs : last.startOffset ≤ baseOffset c) : Assigned before after (baseOffset c) (c :: cs) := by
  have hlt : baseOffset c < endOffset c := by unfold endOffset; omega
  refine ⟨h.increasing, fun x hx => h.below x (by omega), ?_, ?_⟩
  · intro x hx
    rcases List.mem_cons.mp hx with rfl | hx
    · rw [← epochForOffset_congr hinc h.increasing h.below hlt, ← he]
      exact epochForOffset_last hinc hl hs
    · exact h.stamped x hx
  · intro e hmem hge
    by_cases hb : e.startOffset < endOffset c
    · have hold := (h.below e hb).mpr hmem
      have hlm : last ∈ before := List.mem_of_getLast? hl
      have := (hinc.le_iff hold hlm).mp (hinc.le_last hl hold)
      exact ⟨c, List.mem_cons_self, by omega⟩
    · obtain ⟨x, hx, hbx⟩ := h.anchored e hmem (Nat.le_of_not_lt hb)
      exact ⟨x, List.mem_cons_of_mem _ hx, hbx⟩

/-- The loop over the later changes of epoch, after the entry `last`. -/
theorem assignLoop_starts {b : Nat} {cs : List ByteString} :
    ∀ {l : Log} {a : Nat} {last : EpochEntry}, l.epochCache.Increasing →
      l.epochCache.getLast? = some last → 0 ≤ last.epoch → last.startOffset < a →
      BatchTiles a b cs →
      cs.Pairwise (fun x y => partitionLeaderEpoch x ≤ partitionLeaderEpoch y) →
      (∀ x ∈ cs, last.epoch ≤ partitionLeaderEpoch x) →
      ∃ l', l.assignLoop (epochStarts (some last.epoch) cs) = (.ok (), l') ∧
        Assigned l.epochCache l'.epochCache a cs := by
  induction cs with
  | nil =>
    intro l a last hinc hl _ hlt _ _ _
    refine ⟨l, rfl, hinc, fun _ _ => Iff.rfl, fun c hc => absurd hc List.not_mem_nil, ?_⟩
    intro e he hge
    have hlm : last ∈ l.epochCache := List.mem_of_getLast? hl
    have := (hinc.le_iff he hlm).mp (hinc.le_last hl he)
    omega
  | cons c cs ih =>
    intro l a last hinc hl h0 hlt ht hord hge
    obtain ⟨rfl, hclt, hrest⟩ := ht
    obtain ⟨hc, hord'⟩ := List.pairwise_cons.mp hord
    have hgec := hge c List.mem_cons_self
    by_cases he : partitionLeaderEpoch c = last.epoch
    · have hstarts : epochStarts (some last.epoch) (c :: cs) =
          epochStarts (some last.epoch) cs := by
        simp [epochStarts, he]
      rw [hstarts]
      obtain ⟨l', hl', ha⟩ := ih hinc hl h0 (by omega) hrest hord'
        fun x hx => he ▸ hc x hx
      exact ⟨l', hl', ha.cons hinc hl he.symm (Nat.le_of_lt hlt)⟩
    · have hstarts : epochStarts (some last.epoch) (c :: cs) =
          ⟨partitionLeaderEpoch c, baseOffset c⟩ ::
            epochStarts (some (partitionLeaderEpoch c)) cs := by
        simp [epochStarts, he]
      have hlate : last.epoch < partitionLeaderEpoch c := lt_of_le_of_ne hgec (Ne.symm he)
      have h0c : 0 ≤ partitionLeaderEpoch c := h0.trans hgec
      have hassign := assign_later hl h0c hlate hlt
      obtain ⟨-, hinc₁, -⟩ := assign_cases hinc hassign
      have hlast :
          (l.epochCache ++ [(⟨partitionLeaderEpoch c, baseOffset c⟩ : EpochEntry)]).getLast? =
            some ⟨partitionLeaderEpoch c, baseOffset c⟩ := by simp
      obtain ⟨l', hl', ha⟩ := ih (l := { l with
          epochCache := l.epochCache ++ [⟨partitionLeaderEpoch c, baseOffset c⟩]
          epochCheckpointDirty := l.epochCheckpointDirty || true })
        hinc₁ hlast h0c hclt hrest hord' hc
      have ha' := ha.cons hinc₁ hlast rfl (Nat.le_refl _)
      refine ⟨l', ?_, ha'.increasing, fun x hx => ?_, ha'.stamped, ha'.anchored⟩
      · rw [hstarts, Log.assignLoop, hassign]
        exact hl'
      · rw [← ha'.below x hx, List.mem_append, List.mem_singleton]
        constructor
        · exact .inl
        · rintro (hm | rfl)
          · exact hm
          · exact absurd hx (Nat.lt_irrefl _)

/-- Assigning the epochs of accepted batches: refused for a negative epoch, or
done, whether or not the checkpoint could be written. -/
theorem assignLeaderEpochs_starts {l l₁ : Log} {r : Except EpochError Unit} {io : Faults}
    {b : Nat} {c : ByteString} {cs : List ByteString} (hinc : l.epochCache.Increasing)
    (hadm : l.Admits (partitionLeaderEpoch c)) (ht : BatchTiles l.nextOffset b (c :: cs))
    (hord : (c :: cs).Pairwise fun x y => partitionLeaderEpoch x ≤ partitionLeaderEpoch y)
    (ha : l.assignLeaderEpochs (epochStarts none (c :: cs)) io = (r, l₁)) :
    (l₁ = l ∧ ∃ e, r = .error e) ∨
      Assigned l.epochCache l₁.epochCache l.nextOffset (c :: cs) := by
  obtain ⟨hbase, hlt, hrest⟩ := ht
  obtain ⟨hc, hord'⟩ := List.pairwise_cons.mp hord
  have hstarts : epochStarts none (c :: cs) = ⟨partitionLeaderEpoch c, baseOffset c⟩ ::
      epochStarts (some (partitionLeaderEpoch c)) cs := by simp [epochStarts]
  rw [hstarts] at ha
  unfold Log.assignLeaderEpochs Log.assignLoop at ha
  cases hfirst : l.epochCache.assign (partitionLeaderEpoch c) (baseOffset c) with
  | error e =>
    simp only [hfirst] at ha
    cases ha
    exact .inl ⟨rfl, e, rfl⟩
  | ok x =>
    obtain ⟨changed, cache⟩ := x
    right
    simp only [hfirst] at ha
    rw [hbase] at hfirst
    obtain ⟨hinc₁, hbelow, h0, last, hl, he, hs⟩ := assign_end hinc hfirst hadm
    obtain ⟨l₂, hl₂, has⟩ := assignLoop_starts (l := { l with
        epochCache := cache
        epochCheckpointDirty := l.epochCheckpointDirty || changed })
      hinc₁ hl (he ▸ h0) (by omega) hrest hord' (fun x hx => he ▸ hc x hx)
    have has' := has.cons hinc₁ hl he (by omega)
    rw [he] at hl₂
    rw [hl₂] at ha
    simp only at ha
    obtain ⟨r', file, dirty, hp⟩ := Log.persistEpochCheckpoint_frame l₂ io
    rw [hp] at ha
    cases ha
    rw [hbase] at has'
    exact ⟨has'.increasing, fun x hx => (hbelow x hx).trans (has'.below x hx), has'.stamped,
      has'.anchored⟩

/-- A replica append keeps the history if its first epoch may be assigned. -/
theorem History.replicate {crc : Checksum} {l l₁ l' : Log} {data : ByteString} {fetchEpoch : Int32}
    {io : Faults} {r₁ : Except EpochError Unit} {acc : List ByteString} (h : l.History)
    (hok : l.Ok crc) (hrep : Log.Replicated crc l l₁ data fetchEpoch io r₁ acc)
    (hadm : ∀ e, l.incomingEpoch crc data fetchEpoch = some e → l.Admits e)
    (hx : Log.Extends crc l₁ l' [] ∨ r₁ = .ok () ∧ Log.Extends crc l₁ l' acc) : l'.History := by
  obtain ⟨c, cs, rfl, hin⟩ := hrep.incoming
  obtain ⟨last, ht⟩ := hrep.tiles
  obtain ⟨r', cache, file, dirty, hframe⟩ :=
    Log.assignLeaderEpochs_frame l (epochStarts none (c :: cs)) io
  obtain ⟨-, hl₁⟩ := Prod.mk.inj (hrep.assigned.symm.trans hframe)
  have hbatches : l₁.batches = l.batches := by rw [hl₁]; rfl
  have hnext : l₁.nextOffset = l.nextOffset := by rw [hl₁]; rfl
  rcases assignLeaderEpochs_starts h.increasing (hadm _ hin) ht hrep.ordered hrep.assigned with
    ⟨rfl, e, hr⟩ | ha
  · rcases hx with hx | ⟨hr', -⟩
    · exact h.same hok hx
    · rw [hr] at hr'
      cases hr'
  · have h₁ := h.reassign hok hbatches hnext ha.increasing ha.below
    rcases hx with hx | ⟨-, hx⟩
    · exact h₁.same hrep.ok hx
    · refine h₁.extend hx ha.stamped fun e he hge _ => ha.anchored e he ?_
      rwa [hnext] at hge

end Log

end MessageBroker.Storage
