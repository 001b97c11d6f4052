import MessageBroker.Storage.Growth

/-!
# The three append paths of a log

Each either leaves the batches alone or adds all of its own at the end: the
request's batches stamped by the leader, the accepted part of a fetch as it
came, or one encoded batch. The replica path assigns the epochs first, so an
error after that leaves them assigned without the batches.
-/
namespace MessageBroker.Storage

open Lib.Bytes Lib.Tiling Lib

/-! ## Raw appends -/

theorem written_ne_nil {assign : Bool} {leaderEpoch : Int32} {offset : Nat} {ds : List ByteString}
    (h : ds ≠ []) : written assign leaderEpoch offset ds ≠ [] := by
  obtain ⟨c, ds, rfl⟩ := List.exists_cons_of_ne_nil h
  cases assign <;> simp [written, stampAll]

/-- One attempt to store batches: refused by the segment, or they are there and
in the index. -/
theorem Log.Ok.storeInActive {crc : Checksum} {l : Log} (h : l.Ok crc) {ds : List ByteString}
    (hds : ∀ c ∈ ds, Stored crc c) (hne : ds ≠ []) (leaderEpoch : Int32) (assign : Bool)
    (hkeep : assign = false → ∃ last, BatchTiles l.nextOffset last ds) :
    (∃ e, l.activePair.segment.appendRawBatches ds.flatten (boundsFrom 0 ds) leaderEpoch assign
        none = (.error e, l.activePair.segment) ∧
      (e = .segmentFull → l.activePair.segment.batches ≠ [])) ∨
    ∃ s r l', l.activePair.segment.appendRawBatches ds.flatten (boundsFrom 0 ds) leaderEpoch assign
        none = (.ok (l.nextOffset, l.activePair.segment.currentSize, offsetsOf ds), s) ∧
      (l.withSegment s).noteAppend l.nextOffset l.activePair.segment.currentSize
        ds.flatten.length = (r, l') ∧
      Log.Extends crc l l' (written assign leaderEpoch l.nextOffset ds) ∧
      (l.activePair.index.isFull = false → r = .ok ()) := by
  rcases appendRawBatches_cases h.active.rep hds hne leaderEpoch assign hkeep with
    ⟨e, he, hpos⟩ | ⟨s, he, hrep, hbase, -, -, hsize⟩
  · refine .inl ⟨e, he, fun hfull hnil => ?_⟩
    have := h.active.rep.eq_nil_iff.mp hnil
    have := hpos hfull
    omega
  · obtain ⟨r, l', hn, hx⟩ := h.noteAppend (written_ne_nil hne) hrep hbase hsize ds.flatten.length
    exact .inr ⟨s, r, l', he, hn, hx⟩

/-- Storing batches: nothing happens, or they are all there at the end. Only an
index without room makes the call fail then. -/
theorem Log.Ok.store {crc : Checksum} {l : Log} (h : l.Ok crc) {io : Faults} (hio : io.Harmless)
    {ds : List ByteString} (hds : ∀ c ∈ ds, Stored crc c) (hne : ds ≠ []) (leaderEpoch : Int32)
    (assign : Bool) (hkeep : assign = false → ∃ last, BatchTiles l.nextOffset last ds) :
    ∃ r l', l.store crc ds.flatten (boundsFrom 0 ds) leaderEpoch assign io = (r, l') ∧
      ((∃ e, r = .error e) ∧ Log.Extends crc l l' [] ∨
        Log.Extends crc l l' (written assign leaderEpoch l.nextOffset ds) ∧
          (∀ x, r = .ok x → x = (l.nextOffset, offsetsOf ds)) ∧ (l.Roomy → ∃ x, r = .ok x)) := by
  unfold Log.store
  simp only [hio.write]
  obtain ⟨r₁, l₁, hr, hx, hroom⟩ := Log.rollIfFull_cases h io
  have hnext := hx.next_eq h
  rw [hr]
  cases r₁ with
  | error e => exact ⟨_, l₁, rfl, .inl ⟨⟨e, rfl⟩, hx⟩⟩
  | ok _ =>
    simp only
    rcases hx.ok.storeInActive hds hne leaderEpoch assign (by rwa [hnext]) with
      ⟨e, he, hfull⟩ | ⟨s, r, l', he, hn, hy, hnote⟩
    · rw [he]
      split
      · rename_i heq
        cases heq
        rcases Log.roll_cases hx.ok io with ⟨e, hroll⟩ | hroll
        · rw [hroll]
          exact ⟨_, l₁, rfl, .inl ⟨⟨e, rfl⟩, hx⟩⟩
        · -- the second attempt goes to the fresh segment
          rw [hroll]
          have hx₂ := hx.trans (hx.ok.rolled fun _ => hfull rfl)
          have hnext₂ : l₁.rolled.nextOffset = l.nextOffset := hnext
          simp only
          rcases hx₂.ok.storeInActive hds hne leaderEpoch assign (by rwa [hnext₂]) with
            ⟨e, he, -⟩ | ⟨s, r, l', he, hn, hy, hnote⟩
          · rw [he]
            exact ⟨_, l₁.rolled, rfl, .inl ⟨⟨_, rfl⟩, hx₂⟩⟩
          · simp only [he, Log.noted, hn]
            rw [hnext₂] at hy ⊢
            have hz := hx₂.trans hy
            cases r with
            | error e =>
              refine ⟨_, l', rfl, .inr ⟨hz, fun x hx => (by cases hx), fun hr => ?_⟩⟩
              cases hnote (hx.roomy hr).rolled_index
            | ok _ =>
              exact ⟨_, l', rfl, .inr ⟨hz, fun x hx => (by cases hx; rfl), fun _ => ⟨_, rfl⟩⟩⟩
      · rename_i heq
        cases heq
        exact ⟨_, l₁, rfl, .inl ⟨⟨_, rfl⟩, hx⟩⟩
      · rename_i heq
        cases heq
    · simp only [he, Log.noted, hn]
      rw [hnext] at hy ⊢
      have hz := hx.trans hy
      cases r with
      | error e =>
        refine ⟨_, l', rfl, .inr ⟨hz, fun x hx => (by cases hx), fun hr => ?_⟩⟩
        cases hnote (hroom rfl hr)
      | ok _ => exact ⟨_, l', rfl, .inr ⟨hz, fun x hx => (by cases hx; rfl), fun _ => ⟨_, rfl⟩⟩⟩

/-- `AppendRaw` rejects the request without a trace, or stores its batches. -/
theorem Log.appendRaw_cases (crc : Checksum) (l : Log) (data : ByteString) (leaderEpoch : Int32)
    (io : Faults) :
    (∃ e, l.appendRaw crc data leaderEpoch io = (.error e, l)) ∨
    ∃ ds, data = ds.flatten ∧ ds ≠ [] ∧ (∀ c ∈ ds, Valid crc c) ∧
      l.appendRaw crc data leaderEpoch io =
        match l.store crc ds.flatten (boundsFrom 0 ds) leaderEpoch true io with
        | (.error e, l') => (.error e, l')
        | (.ok (assigned, total), l') => (.ok (assigned, (total - 1) % 2 ^ 32), l') := by
  unfold Log.appendRaw
  cases hscan : scanRawBatches crc data with
  | error e => exact .inl ⟨_, rfl⟩
  | ok bounds =>
    obtain ⟨ds, rfl, hvalid, rfl⟩ := scanRawBatches_ok hscan
    simp only
    split
    · exact .inl ⟨_, rfl⟩
    rename_i hne
    have hne' : ds ≠ [] := by
      rintro rfl
      exact hne rfl
    cases checkSizes l.config.maxMessageBytes (boundsFrom 0 ds).length 0 (boundsFrom 0 ds) with
    | error e => exact .inl ⟨_, rfl⟩
    | ok _ => exact .inr ⟨ds, rfl, hne', hvalid, rfl⟩

/-- `AppendRaw`: rejected, or the request's batches are there with the next
offsets and the given epoch. -/
theorem Log.Ok.appendRaw {crc : Checksum} {l : Log} (h : l.Ok crc) {io : Faults}
    (hio : io.Harmless) (data : ByteString) (leaderEpoch : Int32) :
    ∃ r l', l.appendRaw crc data leaderEpoch io = (r, l') ∧
      ((∃ e, r = .error e) ∧ Log.Extends crc l l' [] ∨
        ∃ ds, data = ds.flatten ∧ ds ≠ [] ∧ (∀ c ∈ ds, Valid crc c) ∧
          Log.Extends crc l l' (stampAll leaderEpoch l.nextOffset ds) ∧
          (∀ x, r = .ok x → x.1 = l.nextOffset) ∧ (l.Roomy → ∃ x, r = .ok x)) := by
  rcases Log.appendRaw_cases crc l data leaderEpoch io with
    ⟨e, he⟩ | ⟨ds, rfl, hne, hvalid, he⟩
  · exact ⟨_, l, he, .inl ⟨⟨_, rfl⟩, .refl h⟩⟩
  obtain ⟨r, l', hs, hcase⟩ := h.store hio (fun c hc => (hvalid c hc).toStored) hne
    leaderEpoch true (fun hf => by cases hf)
  rw [he, hs]
  rcases hcase with ⟨⟨e, rfl⟩, hx⟩ | ⟨hx, hr, hroom⟩
  · exact ⟨_, l', rfl, .inl ⟨⟨e, rfl⟩, hx⟩⟩
  · cases r with
    | error e =>
      refine ⟨_, l', rfl, .inr ⟨ds, rfl, hne, hvalid, hx, fun x hx => (by cases hx),
        fun hr => ?_⟩⟩
      obtain ⟨x, hx⟩ := hroom hr
      cases hx
    | ok x =>
      refine ⟨_, l', rfl, .inr ⟨ds, rfl, hne, hvalid, hx, fun y hy => ?_, fun _ => ⟨_, rfl⟩⟩⟩
      cases hy
      rw [hr x rfl]

/-! ## Replica appends -/

/-- The accepted part of a fetch: the batches before the first of a later epoch. -/
def acceptedBatches (fetchEpoch : Int32) (ds : List ByteString) : List ByteString :=
  ds.takeWhile fun c => decide (partitionLeaderEpoch c ≤ fetchEpoch)

/-- The epochs that start in consecutive batches after a batch of epoch `last`. -/
def epochStarts : Option Int32 → List ByteString → List EpochEntry
  | _, [] => []
  | last, c :: cs =>
      if some (partitionLeaderEpoch c) ≠ last then
        ⟨partitionLeaderEpoch c, baseOffset c⟩ :: epochStarts (some (partitionLeaderEpoch c)) cs
      else epochStarts last cs

/-- The accepted bounds and bytes are those of the accepted batches. -/
theorem boundsFrom_accepted (fetchEpoch : Int32) (ds : List ByteString) : ∀ before : ByteString,
    (boundsFrom before.length ds).takeWhile (fun b => decide (b.leaderEpoch ≤ fetchEpoch)) =
        boundsFrom before.length (acceptedBatches fetchEpoch ds) ∧
      Log.acceptedBytes (before ++ ds.flatten) (boundsFrom before.length ds) fetchEpoch =
        before ++ (acceptedBatches fetchEpoch ds).flatten := by
  induction ds with
  | nil => exact fun before => ⟨rfl, rfl⟩
  | cons c ds ih =>
    intro before
    by_cases hle : partitionLeaderEpoch c ≤ fetchEpoch
    · obtain ⟨h1, h2⟩ := ih (before ++ c)
      have hacc : acceptedBatches fetchEpoch (c :: ds) = c :: acceptedBatches fetchEpoch ds := by
        simp [acceptedBatches, hle]
      have hlt : ¬ fetchEpoch < partitionLeaderEpoch c := not_lt.mpr hle
      rw [List.length_append] at h1 h2
      rw [hacc]
      refine ⟨?_, ?_⟩
      · simp only [boundsFrom, List.takeWhile_cons, hle, decide_true, if_true, h1]
      · simp only [List.append_assoc] at h2
        rw [List.flatten_cons, List.flatten_cons, ← h2]
        simp only [Log.acceptedBytes, boundsFrom, List.find?_cons, hlt, decide_false]
    · have hlt : fetchEpoch < partitionLeaderEpoch c := not_le.mp hle
      have hacc : acceptedBatches fetchEpoch (c :: ds) = [] := by
        simp [acceptedBatches, hle]
      rw [hacc]
      refine ⟨?_, ?_⟩
      · simp [boundsFrom, hle]
      · simp [Log.acceptedBytes, boundsFrom, hlt]

/-- The checks of a replica append: the batches continue one another, with
epochs that never decrease. -/
theorem Log.transitionsLoop_ok {crc : Checksum} {cs : List ByteString} :
    ∀ {i pos pos' : Nat} {c : ByteString} {entries : List EpochEntry}, Valid crc c →
      (∀ x ∈ cs, Valid crc x) →
      transitionsLoop i ⟨pos, c.length, lastOffsetDelta c, baseOffset c, partitionLeaderEpoch c⟩
        (boundsFrom pos' cs) = .ok entries →
      (∃ last, BatchTiles (endOffset c) last cs) ∧
      (c :: cs).Pairwise (fun x y => partitionLeaderEpoch x ≤ partitionLeaderEpoch y) ∧
      entries = epochStarts (some (partitionLeaderEpoch c)) cs := by
  induction cs with
  | nil =>
    intro i pos pos' c entries _ _ h
    cases h
    exact ⟨⟨_, rfl⟩, List.pairwise_singleton _ _, rfl⟩
  | cons x cs ih =>
    intro i pos pos' c entries hc hcs h
    have hx := hcs x List.mem_cons_self
    have hend : (baseOffset c + lastOffsetDelta c + 1) % 2 ^ 64 = endOffset c := by
      have h1 := hc.base_lt
      have h2 := hc.delta_lt
      exact Nat.mod_eq_of_lt (by omega)
    simp only [boundsFrom, transitionsLoop, hend] at h
    split at h
    · cases h
    rename_i hbase
    split at h
    · cases h
    rename_i hepoch
    split at h
    · cases h
    rename_i more hmore
    cases h
    obtain ⟨⟨last, ht⟩, hord, rfl⟩ :=
      ih hx (fun y hy => hcs y (List.mem_cons_of_mem _ hy)) hmore
    have hb : baseOffset x = endOffset c := not_not.mp hbase
    have hle : partitionLeaderEpoch c ≤ partitionLeaderEpoch x := not_lt.mp hepoch
    refine ⟨⟨last, hb, ?_, ht⟩, List.Pairwise.cons ?_ hord, ?_⟩
    · rw [← hb, endOffset]
      omega
    · intro y hy
      rcases List.mem_cons.mp hy with rfl | hy
      · exact hle
      · exact hle.trans (List.rel_of_pairwise_cons hord hy)
    · rw [epochStarts]
      by_cases he : partitionLeaderEpoch x = partitionLeaderEpoch c
      · simp [he]
      · simp [he]

/-- The epoch of the first batch of a fetch that passes the checks of a replica
append. -/
def Log.incomingEpoch (crc : Checksum) (l : Log) (data : ByteString) (fetchEpoch : Int32) :
    Option Int32 :=
  match scanRawBatches crc data with
  | .error _ => none
  | .ok bounds =>
    match bounds.takeWhile (fun b => decide (b.leaderEpoch ≤ fetchEpoch)) with
    | [] => none
    | first :: rest =>
      if first.baseOffset = l.nextOffset then
        match Log.transitionsLoop 1 first rest with
        | .error _ => none
        | .ok _ => some first.leaderEpoch
      else none

/-- A replica append that got past its checks with these accepted batches. -/
structure Log.Accepts (crc : Checksum) (l : Log) (data : ByteString) (fetchEpoch : Int32)
    (acc : List ByteString) : Prop where
  scanned : ∃ ds, data = ds.flatten ∧ (∀ c ∈ ds, Valid crc c) ∧
    acc = acceptedBatches fetchEpoch ds
  incoming : ∃ c cs, acc = c :: cs ∧
    l.incomingEpoch crc data fetchEpoch = some (partitionLeaderEpoch c)
  tiles : ∃ last, BatchTiles l.nextOffset last acc
  ordered : acc.Pairwise fun x y => partitionLeaderEpoch x ≤ partitionLeaderEpoch y

theorem Log.Accepts.stored {crc : Checksum} {l : Log} {data : ByteString} {fetchEpoch : Int32}
    {acc : List ByteString} (h : Log.Accepts crc l data fetchEpoch acc) :
    (∀ c ∈ acc, Stored crc c) ∧ acceptedBatches fetchEpoch (rawBatches data) = acc := by
  obtain ⟨ds, rfl, hvalid, rfl⟩ := h.scanned
  refine ⟨fun c hc => (hvalid c (List.takeWhile_subset _ hc)).toStored, ?_⟩
  rw [rawBatches_flatten fun c hc => (hvalid c hc).toStored]

theorem Log.Accepts.ne_nil {crc : Checksum} {l : Log} {data : ByteString} {fetchEpoch : Int32}
    {acc : List ByteString} (h : Log.Accepts crc l data fetchEpoch acc) : acc ≠ [] := by
  obtain ⟨c, cs, rfl, -⟩ := h.incoming
  simp

/-- `AppendReplicaRaw` rejects or ignores the response without a trace, or assigns
the epochs of the accepted batches and stores them. -/
theorem Log.appendReplicaRaw_cases (crc : Checksum) (l : Log) (data : ByteString)
    (fetchEpoch : Int32) (io : Faults) :
    (∃ r, l.appendReplicaRaw crc data fetchEpoch io = (r, l) ∧
      l.incomingEpoch crc data fetchEpoch = none ∧
      ∀ n, r = .ok n → n = 0 ∧ acceptedBatches fetchEpoch (rawBatches data) = []) ∨
    ∃ acc, Log.Accepts crc l data fetchEpoch acc ∧
      l.appendReplicaRaw crc data fetchEpoch io =
        match l.assignLeaderEpochs (epochStarts none acc) io with
        | (.error e, l₁) => (.error (.epoch e), l₁)
        | (.ok (), l₁) =>
          match l₁.store crc acc.flatten (boundsFrom 0 acc) 0 false io with
          | (.error e, l') => (.error e, l')
          | (.ok (_, total), l') => (.ok total, l') := by
  unfold Log.appendReplicaRaw Log.incomingEpoch
  cases hscan : scanRawBatches crc data with
  | error e => exact .inl ⟨_, rfl, rfl, fun n hn => by cases hn⟩
  | ok bounds =>
    obtain ⟨ds, rfl, hvalid, rfl⟩ := scanRawBatches_ok hscan
    simp only
    split
    · rename_i hnil
      exact .inl ⟨_, rfl, by rw [hnil]; rfl, fun n hn => by cases hn⟩
    obtain ⟨htake, hbytes⟩ := boundsFrom_accepted fetchEpoch ds []
    simp only [List.length_nil, List.nil_append] at htake hbytes
    rw [htake, hbytes]
    have hacc : ∀ c ∈ acceptedBatches fetchEpoch ds, Valid crc c :=
      fun c hc => hvalid c (List.takeWhile_subset _ hc)
    cases hcs : acceptedBatches fetchEpoch ds with
    | nil =>
      have hraw := rawBatches_flatten fun c hc => (hvalid c hc).toStored
      exact .inl ⟨_, rfl, rfl, fun n hn => (by cases hn; exact ⟨rfl, by rw [hraw, hcs]⟩)⟩
    | cons c cs =>
      rw [hcs] at hacc
      simp only [boundsFrom]
      by_cases hbase : baseOffset c = l.nextOffset
      swap
      · rw [if_pos hbase, if_neg hbase]
        exact .inl ⟨_, rfl, rfl, fun n hn => by cases hn⟩
      have hc := hacc c List.mem_cons_self
      rw [if_neg (not_not.mpr hbase), if_pos hbase]
      cases htrans : transitionsLoop 1 ⟨0, c.length, lastOffsetDelta c, baseOffset c,
          partitionLeaderEpoch c⟩ (boundsFrom (0 + c.length) cs) with
      | error e => exact .inl ⟨_, rfl, rfl, fun n hn => by cases hn⟩
      | ok entries =>
        obtain ⟨⟨last, ht⟩, hord, rfl⟩ :=
          Log.transitionsLoop_ok hc (fun x hx => hacc x (List.mem_cons_of_mem _ hx)) htrans
        have htiles : BatchTiles l.nextOffset last (c :: cs) :=
          ⟨hbase, by rw [← hbase, endOffset]; omega, ht⟩
        have hstarts : (⟨partitionLeaderEpoch c, baseOffset c⟩ : EpochEntry) ::
            epochStarts (some (partitionLeaderEpoch c)) cs = epochStarts none (c :: cs) := by
          simp [epochStarts]
        simp only [hstarts]
        have hin : l.incomingEpoch crc ds.flatten fetchEpoch = some (partitionLeaderEpoch c) := by
          unfold Log.incomingEpoch
          rw [hscan]
          simp only [htake, hcs, boundsFrom]
          rw [if_pos hbase, htrans]
        exact .inr ⟨c :: cs, ⟨⟨ds, rfl, hvalid, hcs.symm⟩, ⟨c, cs, rfl, hin⟩, ⟨last, htiles⟩,
          hord⟩, rfl⟩

/-- An accepted replica append: the epochs were assigned, leaving `l₁`, before
anything was written. -/
structure Log.Replicated (crc : Checksum) (l l₁ : Log) (data : ByteString) (fetchEpoch : Int32)
    (io : Faults) (r₁ : Except EpochError Unit) (acc : List ByteString) : Prop extends
    Log.Accepts crc l data fetchEpoch acc where
  assigned : l.assignLeaderEpochs (epochStarts none acc) io = (r₁, l₁)
  ok : l₁.Ok crc

/-- `AppendReplicaRaw`: rejected without a trace; or the epochs are assigned, and
then either all accepted batches are there, or none and an error. -/
theorem Log.Ok.appendReplicaRaw {crc : Checksum} {l : Log} (h : l.Ok crc) {io : Faults}
    (hio : io.Harmless) (data : ByteString) (fetchEpoch : Int32) :
    ∃ r l', l.appendReplicaRaw crc data fetchEpoch io = (r, l') ∧
      (l' = l ∧ (∀ n, r = .ok n →
          n = 0 ∧ acceptedBatches fetchEpoch (rawBatches data) = []) ∨
        ∃ l₁ r₁ acc, Log.Replicated crc l l₁ data fetchEpoch io r₁ acc ∧
          ((∃ e, r = .error e) ∧ Log.Extends crc l₁ l' [] ∨
            r₁ = .ok () ∧ Log.Extends crc l₁ l' acc ∧ (∀ n, r = .ok n → n = offsetsOf acc) ∧
              (l.Roomy → ∃ n, r = .ok n))) := by
  rcases Log.appendReplicaRaw_cases crc l data fetchEpoch io with ⟨r, he, -, hr⟩ | ⟨acc, hacc, he⟩
  · exact ⟨r, l, he, .inl ⟨rfl, hr⟩⟩
  obtain ⟨r₁, cache, file, dirty, hassign⟩ :=
    Log.assignLeaderEpochs_frame l (epochStarts none acc) io
  have hok₁ := h.ofEpochs cache file dirty
  have hrep : Log.Replicated crc l _ data fetchEpoch io r₁ acc := ⟨hacc, hassign, hok₁⟩
  rw [he, hassign]
  cases r₁ with
  | error e => exact ⟨_, _, rfl, .inr ⟨_, _, _, hrep, .inl ⟨⟨_, rfl⟩, .refl hok₁⟩⟩⟩
  | ok _ =>
    obtain ⟨r, l', hs, hcase⟩ := hok₁.store hio hacc.stored.1 hacc.ne_nil 0 false
      (fun _ => hacc.tiles)
    simp only [hs]
    rcases hcase with ⟨⟨e, rfl⟩, hx⟩ | ⟨hx, hr, hroom⟩
    · exact ⟨_, l', rfl, .inr ⟨_, _, _, hrep, .inl ⟨⟨e, rfl⟩, hx⟩⟩⟩
    · cases r with
      | error e =>
        refine ⟨_, l', rfl, .inr ⟨_, _, _, hrep, .inr ⟨rfl, hx, fun n hn => (by cases hn),
          fun hr => ?_⟩⟩⟩
        obtain ⟨x, hx⟩ := hroom (hr.ofEpochs cache file dirty)
        cases hx
      | ok x =>
        refine ⟨_, l', rfl, .inr ⟨_, _, _, hrep, .inr ⟨rfl, hx, fun n hn => ?_,
          fun _ => ⟨_, rfl⟩⟩⟩⟩
        cases hn
        rw [hr x rfl]

/-! ## The internal append -/

section InternalAppend

variable {crc : Checksum} {batch : Batch} (hsize : encodedBatchSize batch < 2 ^ 32 + 12)

include hsize

/-- One attempt to append a batch to the active segment. -/
theorem Log.Ok.appendInActive {l : Log} (h : l.Ok crc)
    (hnext : l.nextOffset + batch.messages.length < 2 ^ 64) :
    (∃ e, l.activePair.segment.appendBatch crc batch none = (.error e, l.activePair.segment)) ∨
    ∃ s r l', l.activePair.segment.appendBatch crc batch none =
        (.ok (l.activePair.segment.currentSize, l.nextOffset), s) ∧
      (l.withSegment s).noteAppend l.nextOffset l.activePair.segment.currentSize
        (encodedBatchSize batch) = (r, l') ∧
      Log.Extends crc l l' [encodeBatch crc (batch.assigned l.nextOffset) 0] ∧
      (l.activePair.index.isFull = false → r = .ok ()) := by
  rcases appendBatch_cases h.active.rep batch hsize hnext with
    ⟨e, he⟩ | ⟨s, he, hrep, hbase, -, -, hmax⟩
  · exact .inl ⟨e, he⟩
  · obtain ⟨r, l', hnote, hx⟩ := h.noteAppend (by simp) hrep hbase hmax (encodedBatchSize batch)
    exact .inr ⟨s, r, l', he, hnote, hx⟩

/-- The batch goes to the active segment or, if that has batches and no room, to
a fresh one. -/
theorem Log.Ok.appendBatchToActive {l : Log} (h : l.Ok crc) {io : Faults} (hio : io.Harmless)
    (hnext : l.nextOffset + batch.messages.length < 2 ^ 64) :
    (∃ e l', l.appendBatchToActive crc batch io = (.error e, l') ∧ Log.Extends crc l l' []) ∨
    ∃ pos l₁ r l', l.appendBatchToActive crc batch io = (.ok (pos, l.nextOffset), l₁) ∧
      l₁.noteAppend l.nextOffset pos (encodedBatchSize batch) = (r, l') ∧
      Log.Extends crc l l' [encodeBatch crc (batch.assigned l.nextOffset) 0] ∧
      (l.Roomy → l.activePair.index.isFull = false → r = .ok ()) := by
  unfold Log.appendBatchToActive
  simp only [hio.write]
  rcases h.appendInActive hsize hnext with ⟨e, he⟩ | ⟨s, r, l', he, hnote, hx, hroom⟩
  · rw [he]
    split
    · rename_i heq
      cases heq
      split
      · exact .inl ⟨_, l, rfl, .refl h⟩
      rename_i hsome
      have hne : l.activePair.segment.batches ≠ [] :=
        fun hnil => hsome (h.active.rep.eq_nil_iff.mp hnil)
      rcases Log.roll_cases h io with ⟨e, hroll⟩ | hroll
      · rw [hroll]
        exact .inl ⟨e, l, rfl, .refl h⟩
      · rw [hroll]
        have hx := h.rolled fun _ => hne
        simp only
        rcases hx.ok.appendInActive hsize hnext with ⟨e, he⟩ | ⟨s, r, l', he, hnote, hy, hroom⟩
        · rw [he]
          exact .inl ⟨_, l.rolled, rfl, hx⟩
        · rw [he]
          exact .inr ⟨_, _, r, l', rfl, hnote, hx.trans hy, fun hr _ => hroom hr.rolled_index⟩
    · rename_i heq
      cases heq
      exact .inl ⟨_, l, rfl, .refl h⟩
    · rename_i heq
      cases heq
  · rw [he]
    exact .inr ⟨_, _, r, l', rfl, hnote, hx, fun _ => hroom⟩

/-- `Append`: rejected, or one more batch of epoch 0. -/
theorem Log.Ok.append {l : Log} (h : l.Ok crc) {io : Faults} (hio : io.Harmless)
    (hnext : l.nextOffset + batch.messages.length < 2 ^ 64) :
    ∃ r l', l.append crc batch io = (r, l') ∧
      ((∃ e, r = .error e) ∧ Log.Extends crc l l' [] ∨
        Log.Extends crc l l' [encodeBatch crc (batch.assigned l.nextOffset) 0] ∧
          (∀ first, r = .ok first → first = l.nextOffset) ∧
          (l.Roomy → ∃ first, r = .ok first)) := by
  unfold Log.append
  obtain ⟨r₁, l₁, hr, hx, hindex⟩ := Log.rollIfFull_cases h io
  have hn := hx.next_eq h
  rw [hr]
  cases r₁ with
  | error e => exact ⟨_, l₁, rfl, .inl ⟨⟨e, rfl⟩, hx⟩⟩
  | ok _ =>
    simp only
    rcases hx.ok.appendBatchToActive hsize hio (hn ▸ hnext) with
      ⟨e, l', he, hy⟩ | ⟨pos, l₂, r, l', he, hnote, hy, hroom⟩
    · rw [he]
      exact ⟨_, l', rfl, .inl ⟨⟨e, rfl⟩, hx.trans hy⟩⟩
    · rw [hn] at hy
      simp only [he, hnote]
      cases r with
      | error e =>
        refine ⟨_, l', rfl, .inr ⟨hx.trans hy, fun first hf => (by cases hf), fun hr => ?_⟩⟩
        cases hroom (hx.roomy hr) (hindex rfl hr)
      | ok _ =>
        exact ⟨_, l', rfl, .inr ⟨hx.trans hy, fun first hf => (by cases hf; exact hn),
          fun _ => ⟨_, rfl⟩⟩⟩

end InternalAppend

end MessageBroker.Storage
