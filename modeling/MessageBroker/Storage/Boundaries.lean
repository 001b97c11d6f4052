import MessageBroker.Storage.Divergence
import MessageBroker.Storage.Gaps
import MessageBroker.Storage.Opening

/-!
# Where a log can be cut

Without an I/O failure `TruncateTo` succeeds exactly at the batch boundaries of
the log at which the index of the shortened segment has room for its entries.
Cutting the log does not change which offsets below the cut these are.
-/
namespace MessageBroker.Storage

open Lib.Bytes Lib.Tiling EpochCache

namespace Log

/-- A batch starts at the offset, or the log ends there. -/
def Boundary (l : Log) (offset : Nat) : Prop :=
  offset = l.nextOffset ∨ ∃ c ∈ l.batches, baseOffset c = offset

instance (l : Log) (offset : Nat) : Decidable (l.Boundary offset) :=
  inferInstanceAs (Decidable (_ ∨ ∃ c ∈ l.batches, _))

/-- The last pair that starts at or before the offset. -/
def pairOver (l : Log) (offset : Nat) : Option SegmentPair :=
  l.pairs.reverse.find? fun q => decide (q.segment.baseOffset ≤ offset)

/-- That pair's index has room for the batches before the offset. -/
def RoomAt (l : Log) (offset : Nat) : Prop :=
  match l.pairOver offset with
  | some q => q.fitsBelow l.config.indexIntervalBytes offset
  | none => True

instance (l : Log) (offset : Nat) : Decidable (l.RoomAt offset) := by
  unfold RoomAt
  split <;> infer_instance

theorem pairOver_eq {l : Log} {offset : Nat} {before after : List SegmentPair} {q : SegmentPair}
    (hsplit : l.pairs = before ++ q :: after) (hbase : q.segment.baseOffset ≤ offset)
    (hafter : ∀ x ∈ after, offset < x.segment.baseOffset) : l.pairOver offset = some q := by
  have hnone : after.reverse.find? (fun x => decide (x.segment.baseOffset ≤ offset)) = none := by
    refine List.find?_eq_none.mpr fun x hx => ?_
    have := hafter x (List.mem_reverse.mp hx)
    simpa using this
  rw [pairOver, hsplit, List.reverse_append, List.reverse_cons, List.append_assoc,
    List.find?_append, hnone, List.singleton_append, List.find?_cons_of_pos (by simpa using hbase)]
  rfl

/-! ## Below the end of a shortened log -/

section CutOf

variable {crc : Checksum} {l l' : Log} {offset : Nat}

theorem CutOf.boundary_iff (hcut : CutOf crc l l') (htiles : l.Ok crc)
    (hlt : offset < l'.nextOffset) : l'.Boundary offset ↔ l.Boundary offset := by
  have hle := hcut.next_le
  constructor
  · rintro (heq | ⟨c, hc, hb⟩)
    · omega
    · exact .inr ⟨c, hcut.batches.subset hc, hb⟩
  · rintro (heq | ⟨c, hc, hb⟩)
    · omega
    · obtain ⟨rest, hrest⟩ := hcut.batches
      have ht := htiles.tiles
      rw [← hrest] at ht hc
      obtain ⟨z, hz, htail⟩ := tiles_append.mp ht
      have hend := tiles_end_unique (hcut.oldest ▸ hcut.ok.tiles) hz
      rcases List.mem_append.mp hc with hc | hc
      · exact .inr ⟨c, hc, hb⟩
      · have := (htail.mem hc).1
        omega

/-- The end of a shortened log is a boundary of the log. -/
theorem CutOf.boundary_next (hcut : CutOf crc l l') (hok : l.Ok crc) :
    l.Boundary l'.nextOffset := by
  obtain ⟨rest, hrest⟩ := hcut.batches
  have ht := hok.tiles
  rw [← hrest] at ht
  obtain ⟨z, hz, htail⟩ := tiles_append.mp ht
  have hend : l'.nextOffset = z := tiles_end_unique (hcut.oldest ▸ hcut.ok.tiles) hz
  rw [hend]
  cases rest with
  | nil => exact .inl htail
  | cons c cs => exact .inr ⟨c, by rw [← hrest]; simp, htail.1⟩

end CutOf

section Ends

variable {crc : Checksum} {l l' : Log} (hcut : CutOf crc l l') (hinc : l.epochCache.Increasing)
  {epoch : Int32} {s : EpochEndOffset} (hs : l.endOffsetForLeaderEpoch epoch = some s)

include hcut hinc hs

/-- Below the end of a shortened log an epoch ends where it did. -/
theorem CutOf.end_eq {s' : EpochEndOffset} (hs' : l'.endOffsetForLeaderEpoch epoch = some s') :
    min s'.endOffset l'.nextOffset = min s.endOffset l'.nextOffset := by
  obtain ⟨ha, -, -⟩ := answers_of_endOffsetFor hinc hs
  obtain ⟨ha', -, -⟩ := answers_of_endOffsetFor hcut.increasing hs'
  have hle := hcut.next_le
  have h1 : min s.endOffset l'.nextOffset ≤ s'.endOffset := by
    rcases ha'.attained with ⟨z, hz, hlt, he⟩ | ⟨he, -⟩
    · have := ha.upper z (hcut.mem hz) hlt
      omega
    · omega
  have h2 : min s'.endOffset l'.nextOffset ≤ s.endOffset := by
    rcases ha.attained with ⟨z, hz, hlt, he⟩ | ⟨he, -⟩
    · by_cases hz' : z ∈ l'.epochCache
      · have := ha'.upper z hz' hlt
        omega
      · have := hcut.le_of_not_mem hz hz'
        omega
    · omega
  omega

/-- An epoch that is not found any more ended at the cut or later. -/
theorem CutOf.end_of_none (hnone : l'.endOffsetForLeaderEpoch epoch = none) :
    l'.nextOffset ≤ s.endOffset := by
  obtain ⟨ha, h0, -⟩ := answers_of_endOffsetFor hinc hs
  have hleft : ∀ z ∈ l'.epochCache, z.epoch < epoch := by
    rcases endOffsetFor_cases hcut.increasing epoch l'.nextOffset with
      ⟨-, hneg | hall⟩ | ⟨x, hx, -⟩
    · exact absurd h0 (not_le.mpr hneg)
    · exact hall
    · exact absurd (hx.symm.trans hnone) (by simp)
  rcases ha.attained with ⟨z, hz, hlt, he⟩ | ⟨he, -⟩
  · have hgone : z ∉ l'.epochCache := fun hz' => lt_asymm (hleft z hz') hlt
    have := hcut.le_of_not_mem hz hgone
    omega
  · have := hcut.next_le
    omega

end Ends

/-- A cut pair has the same room below the cut as before. -/
theorem Recut.roomAt_iff {crc : Checksum} {l l' : Log} {offset t : Nat}
    {target : Target} {p : SegmentPair} (hr : Recut crc l offset target p)
    (hpairs : l'.pairs = l.before target ++ [p]) (hconfig : l'.config = l.config)
    (hlt : t < offset) : l'.RoomAt t ↔ l.RoomAt t := by
  obtain ⟨cut, hcut, htail⟩ := hr.batches
  by_cases hbase : (l.pairAt target).segment.baseOffset ≤ t
  · have h1 : l.pairOver t = some (l.pairAt target) :=
      pairOver_eq hr.split hbase fun x hx => hlt.trans (hr.after x hx)
    have h2 : l'.pairOver t = some p :=
      pairOver_eq hpairs (hr.base ▸ hbase) fun x hx => absurd hx List.not_mem_nil
    have hnone : cut.filter (fun c => decide (endOffset c ≤ t)) = [] := by
      refine List.filter_eq_nil_iff.mpr fun c hc => ?_
      have := htail.mem hc
      simp only [decide_eq_true_eq]
      omega
    unfold RoomAt
    rw [h1, h2]
    simp only [SegmentPair.fitsBelow, hconfig, hr.index, hcut, List.filter_append, hnone,
      List.append_nil]
  · have hfind : l'.pairOver t = l.pairOver t := by
      have hnone : (l.after target).reverse.find?
          (fun x => decide (x.segment.baseOffset ≤ t)) = none := by
        refine List.find?_eq_none.mpr fun x hx => ?_
        have := hr.after x (List.mem_reverse.mp hx)
        simp only [decide_eq_true_eq]
        omega
      rw [pairOver, pairOver, hpairs, hr.split]
      simp only [List.reverse_append, List.reverse_cons, List.append_assoc, List.find?_append,
        hnone, List.reverse_nil, List.find?_nil, List.find?_singleton, hr.base, hbase,
        decide_false, Bool.false_eq_true, if_false, Option.none_or]
    unfold RoomAt
    rw [hfind, hconfig]

/-! ## Truncation without a failing file operation -/

theorem finishTruncate_none {l : Log} (hw : l.epochCache.Writable) (offset : Nat) :
    (l.finishTruncate offset true [] .none).1 = .ok () := by
  have hcheck : checkpointCheck 0 none (l.epochCache.truncateFromEnd offset) = .ok () :=
    EpochCache.checkpointCheck_writable.mpr (hw.takeWhile _)
  unfold finishTruncate persistEpochCheckpoint writeCheckpoint
  simp only [if_true, hcheck]
  split
  · rename_i hp
    split at hp
    · cases hp
    · cases hp
  · rfl

/-- `findTruncationPosition` succeeds in the pair over a boundary. -/
theorem Ok.findTruncationPosition_iff {crc : Checksum} {l : Log} (h : l.Ok crc) {offset : Nat}
    (hlt : offset < l.nextOffset) {target : Target}
    (hsplit : l.pairs = l.before target ++ l.pairAt target :: l.after target)
    (hbase : (l.pairAt target).segment.baseOffset ≤ offset)
    (hafter : ∀ q ∈ l.after target, offset < q.segment.baseOffset) :
    (∃ position, (l.pairAt target).segment.findTruncationPosition offset = .ok position) ↔
      l.Boundary offset := by
  have hp := h.pair (l.pairAt target) (by rw [hsplit]; simp)
  have hlinked := h.linked
  rw [hsplit] at hlinked
  obtain ⟨m, hbefore, hm, -, hrest⟩ := linked_append.mp hlinked
  constructor
  · rintro ⟨position, hpos⟩
    obtain ⟨kept, cut, hb, -, -, hcut⟩ := (findTruncationPosition_ok hp.rep).mp hpos
    cases cut with
    | nil =>
      -- the pair ends at the offset, and no pair after it starts there
      cases ha : l.after target with
      | nil =>
        rw [ha] at hrest
        have h1 : offset = (l.pairAt target).segment.nextOffset := hcut
        have h2 : (l.pairAt target).segment.nextOffset = l.nextOffset := hrest
        omega
      | cons q qs =>
        have h1 : offset = (l.pairAt target).segment.nextOffset := hcut
        rw [ha] at hrest
        have h2 : q.segment.baseOffset = (l.pairAt target).segment.nextOffset := hrest.1
        have h3 := hafter q (by rw [ha]; exact List.mem_cons_self)
        omega
    | cons c cs =>
      refine .inr ⟨c, List.mem_flatMap.mpr ⟨l.pairAt target, by rw [hsplit]; simp, ?_⟩, hcut.1⟩
      rw [hb]
      simp
  · rintro (heq | ⟨c, hc, rfl⟩)
    · omega
    obtain ⟨q, hq, hc⟩ := List.mem_flatMap.mp hc
    have hmem := (h.pair q hq).rep.tiles.mem hc
    rw [hsplit] at hq
    rcases List.mem_append.mp hq with hq | hq
    · have := (hbefore.mem hq).2.2
      simp only at hm
      omega
    rcases List.mem_cons.mp hq with rfl | hq
    · obtain ⟨kept, cut, hb⟩ := List.append_of_mem hc
      have ht := hp.rep.tiles
      rw [hb] at ht
      obtain ⟨z, hz, hzc⟩ := tiles_append.mp ht
      have hzb : z = baseOffset c := hzc.1.symm
      subst hzb
      exact ⟨_, (findTruncationPosition_ok hp.rep).mpr ⟨kept, c :: cut, hb, rfl, hz, hzc⟩⟩
    · have := hafter q hq
      omega

/-- Below the end of the log, `TruncateTo` succeeds exactly at the boundaries with
room. -/
theorem Ok.truncateTo_iff {crc : Checksum} {l : Log} (h : l.Ok crc)
    (hw : l.epochCache.Writable) (hmax : ∀ q ∈ l.pairs, 0 ≤ q.index.maxBytes.toInt)
    {offset : Nat} (hlt : offset < l.nextOffset) :
    (l.truncateTo offset .none).1 = .ok () ↔ l.Boundary offset ∧ l.RoomAt offset := by
  unfold Log.truncateTo
  rw [if_neg (by omega)]
  by_cases hold : offset < l.oldestOffset
  · rw [if_pos hold]
    refine ⟨fun hr => (by cases hr), fun ⟨hb, _⟩ => ?_⟩
    rcases hb with heq | ⟨c, hc, rfl⟩
    · omega
    · have := (h.tiles.mem hc).1
      omega
  rw [if_neg hold, if_pos hlt]
  obtain ⟨m, hs, -⟩ := linked_append.mp h.linked
  obtain ⟨target, hfind, hsplit, hbase, hafter⟩ :=
    findSegment_ordered (ordered_of hs) (Nat.le_of_not_lt hold)
  have hmem : l.pairAt target ∈ l.pairs := by
    rw [hsplit]
    simp
  have hp := h.pair _ hmem
  have hbound := h.findTruncationPosition_iff hlt hsplit hbase hafter
  have hroom : l.RoomAt offset ↔
      (l.pairAt target).fitsBelow l.config.indexIntervalBytes offset := by
    unfold RoomAt
    rw [pairOver_eq hsplit hbase hafter]
  rw [hfind]
  simp only
  cases hpos : (l.pairAt target).segment.findTruncationPosition offset with
  | error e =>
    rw [hpos] at hbound
    refine ⟨fun hr => (by cases hr), fun ⟨hb, _⟩ => ?_⟩
    obtain ⟨position, hx⟩ := hbound.mpr hb
    cases hx
  | ok position =>
    simp only
    rcases truncateSegmentPair_cases hp hpos l.config.indexIntervalBytes false with
      ⟨hf, -⟩ | ⟨r, p, cut, he, -, -, -, -, -, -, -, hok⟩
    · cases hf
    have hdone : l.Boundary offset ∧ l.RoomAt offset ↔ r = .ok () := by
      rw [hroom, hok]
      exact ⟨fun hb => hb.2.2, fun hr => ⟨hbound.mp ⟨position, hpos⟩, hmax _ hmem, hr⟩⟩
    rw [hdone, show Faults.none.truncateFails = false from rfl, he]
    cases r with
    | error e =>
      cases target with
      | active => simp
      | sealed i => simp
    | ok _ =>
      have hnone : (l.after target).filter (fun p => Faults.none.removeFails p.segment.baseOffset) =
          [] := List.filter_eq_nil_iff.mpr fun q _ => by simp [Faults.none]
      cases target with
      | active => simpa using finishTruncate_none (l := { l with activePair := p }) hw offset
      | sealed i =>
        simp only [after] at hnone
        simp only [hnone, List.map_nil, List.append_nil]
        simpa using finishTruncate_none (l := { l with
          sealedPairs := l.sealedPairs.take i
          activePair := p }) hw offset

/-- After a truncation the offsets below it have as much room as before. -/
theorem Ok.truncateTo_room {crc : Checksum} {l l' : Log} (h : l.Ok crc)
    (hinc : l.epochCache.Increasing) {offset : Nat} (hlt : offset < l.nextOffset)
    (ht : l.truncateTo offset .none = (.ok (), l')) :
    (∀ t < offset, l'.RoomAt t ↔ l.RoomAt t) ∧
      ((∀ q ∈ l.pairs, 0 ≤ q.index.maxBytes.toInt) →
        ∀ q ∈ l'.pairs, 0 ≤ q.index.maxBytes.toInt) := by
  obtain ⟨r, l'', he, -, hcase⟩ :=
    (h.apart hinc).truncateTo_cases Faults.none_harmless offset
  obtain ⟨rfl, rfl⟩ := Prod.mk.inj (he.symm.trans ht)
  have hconfig := (h.truncateTo_ok hlt ht).1.config
  rcases hcase with ⟨⟨e, hr⟩, -⟩ | ⟨heq, -, -⟩ | ⟨target, p, hr, ⟨⟨e, hr'⟩, -⟩ | ⟨hpairs, -⟩⟩
  · cases hr
  · omega
  · cases hr'
  · refine ⟨fun t htl => hr.roomAt_iff hpairs hconfig htl, fun hmax q hq => ?_⟩
    rw [hpairs] at hq
    rcases List.mem_append.mp hq with hq | hq
    · exact hmax q (by rw [hr.split]; exact List.mem_append_left _ hq)
    · rw [List.mem_singleton.mp hq, hr.index]
      exact hmax _ (by rw [hr.split]; simp)

/-! ## Ends within the log -/

/-- No epoch ends before the log. -/
theorem Faithful.oldest_le_answer {crc : Checksum} {l : Log} (h : l.Faithful) (hok : l.Ok crc)
    {epoch : Int32} {s : EpochEndOffset} (hs : l.endOffsetForLeaderEpoch epoch = some s) :
    l.oldestOffset ≤ s.endOffset := by
  rcases (h.answers hs).1.attained with ⟨z, hz, -, he⟩ | ⟨he, -⟩
  · exact he ▸ h.oldest_le hz
  · exact he ▸ hok.tiles.le

/-- An epoch older than all cached ones ends with the start of the log. -/
theorem Faithful.answer_oldest {l : Log} (h : l.Faithful) {epoch : Int32} {s : EpochEndOffset}
    (hs : l.endOffsetForLeaderEpoch epoch = some s) (hall : ∀ x ∈ l.epochCache, epoch < x.epoch) :
    s.endOffset = l.oldestOffset := by
  obtain ⟨hans, -, x, hx, -⟩ := h.answers hs
  obtain ⟨y, hy, hyo⟩ := h.exists_first hx
  have h1 := hans.upper y hy (hall y hy)
  rcases hans.attained with ⟨z, hz, -, he⟩ | ⟨-, hnone⟩
  · have := h.oldest_le hz
    omega
  · exact absurd (hnone y hy) (not_le.mpr (hall y hy))

/-! ## The pattern that blocks a truncation -/

/-- How often the leader's answer changes over the follower's epochs newer than
the given one. -/
def turns (l m : Log) (epoch : Int32) : Nat :=
  (((l.epochCache.filter fun y => decide (epoch < y.epoch)).map fun y =>
    m.endOffsetForLeaderEpoch y.epoch).toFinset.erase (m.endOffsetForLeaderEpoch epoch)).card

/-- The leader's log `m` and the follower's log `l` have ends for an epoch of the
follower of which the lower one is no place to cut the follower's log. The epoch
is not older than any common one, no interleaving ends the search above it, and
it is reached in 32 attempts. -/
structure StuckAt (l m : Log) (epoch : Int32) : Prop where
  cached : ∃ y ∈ l.epochCache, y.epoch = epoch
  common : ∀ x ∈ m.epochCache, ∀ y ∈ l.epochCache, x.epoch = y.epoch → x.epoch ≤ epoch
  visible : ∀ e g a u, Interleaving l m e g a u → e.epoch ≤ epoch
  near : l.turns m epoch < 32
  ends : ∃ r s, m.endOffsetForLeaderEpoch epoch = some r ∧
    l.endOffsetForLeaderEpoch r.epoch = some s ∧
    min r.endOffset s.endOffset < l.nextOffset ∧
    ¬ (l.Boundary (min r.endOffset s.endOffset) ∧ l.RoomAt (min r.endOffset s.endOffset))

end Log

end MessageBroker.Storage
