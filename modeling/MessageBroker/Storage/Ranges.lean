import MessageBroker.Storage.Gaps
import MessageBroker.Storage.Reading

/-!
# What a successful read returns

A read that succeeds returns whole batches of one segment, from the batch over
the offset on, also in a log with gaps and in segments that span more offsets
than the index can tell apart: there the lookup may land anywhere, but the scan
only stops at the batch over the offset. `ReadRaw` copies the bytes of the range
that `ReadRawRanges` names.
-/
namespace MessageBroker.Storage

open Lib.Bytes Lib.Tiling Lib

section Scan

variable {crc : Checksum} {s : Segment} {offset : Nat}

/-- A scan that stops has found the batch over the offset. -/
theorem scanTo_found {post : List ByteString} : ∀ (pre : List ByteString) (fuel : Nat) {pos : Nat},
    s.Rep crc (pre ++ post) → s.scanTo offset fuel pre.flatten.length = .ok pos →
    ∃ mid c rest, post = mid ++ c :: rest ∧ pos = (pre ++ mid).flatten.length ∧
      baseOffset c ≤ offset ∧ offset < endOffset c := by
  induction post with
  | nil =>
    intro pre fuel pos h hs
    obtain ⟨e, he⟩ : ∃ e, s.scanTo offset fuel pre.flatten.length = .error e :=
      scanTo_error pre fuel h fun c hc => absurd hc List.not_mem_nil
    rw [he] at hs
    cases hs
  | cons x post ih =>
    intro pre fuel pos h hs
    cases fuel with
    | zero => cases hs
    | succ fuel =>
      rw [Segment.scanTo, h.readBatchMetaAt] at hs
      simp only [h.batchEnd (c := x) (by simp)] at hs
      split at hs
      · rename_i hover
        cases hs
        have hlt : baseOffset x < endOffset x := by unfold endOffset; omega
        exact ⟨[], x, post, rfl, by rw [List.append_nil], hover.1, by omega⟩
      · split at hs
        · cases hs
        split at hs
        · cases hs
        have happ : pre ++ x :: post = (pre ++ [x]) ++ post := by simp
        rw [Segment.Rep.next_pos] at hs
        obtain ⟨mid, c, rest, rfl, hpos, hc⟩ := ih (pre ++ [x]) fuel (happ ▸ h) hs
        exact ⟨x :: mid, c, rest, rfl, by rw [hpos]; simp, hc⟩

end Scan

/-! ## The bytes of a range -/

/-- The two reading loops take the same batches, or none. -/
theorem rawLoop_eq {s : Segment} (hsize : s.currentSize ≤ s.file.length) :
    ∀ (fuel pos : Nat) (remaining : Int) (first : Bool) (bytes : ByteString) (e₀ u₀ : Nat)
      {e u : Nat}, s.rangesLoop fuel pos remaining first (e₀, u₀) = .ok (e, u) →
      (e = e₀ ∧ u = u₀ ∧ s.rawLoop fuel pos remaining first (bytes, u₀) = .ok (bytes, u₀)) ∨
      (pos ≤ e ∧ s.rawLoop fuel pos remaining first (bytes, u₀) =
        .ok (bytes ++ (s.file.drop pos).take (e - pos), u))
  | 0, pos, _, _, bytes, _, _, e, u, h => by
      cases h
      exact .inl ⟨rfl, rfl, rfl⟩
  | fuel + 1, pos, remaining, first, bytes, e₀, u₀, e, u, h => by
      unfold Segment.rangesLoop at h
      unfold Segment.rawLoop
      by_cases hpos : pos < s.currentSize
      · rw [if_pos hpos] at h ⊢
        cases hmeta : s.readBatchMetaAt pos with
        | error err =>
          rw [hmeta] at h
          cases h
        | ok m =>
          obtain ⟨firstOffset, lod, totalSize⟩ := m
          rw [hmeta] at h
          simp only at h ⊢
          by_cases hout : s.currentSize < pos + totalSize
          · rw [if_pos hout] at h ⊢
            cases h
            exact .inl ⟨rfl, rfl, rfl⟩
          rw [if_neg hout] at h ⊢
          by_cases hover : (!first) = true ∧ remaining < totalSize
          · rw [if_pos hover] at h ⊢
            cases h
            exact .inl ⟨rfl, rfl, rfl⟩
          rw [if_neg hover] at h ⊢
          rw [readAt_of_le (by omega)]
          simp only
          right
          by_cases hzero : remaining - totalSize ≤ 0
          · rw [if_pos hzero] at h ⊢
            cases h
            exact ⟨by omega, by rw [Nat.add_sub_cancel_left]⟩
          rw [if_neg hzero] at h ⊢
          rcases rawLoop_eq hsize fuel (pos + totalSize) (remaining - totalSize) false
            (bytes ++ (s.file.drop pos).take totalSize) _ _ h with ⟨rfl, rfl, hraw⟩ | ⟨hle, hraw⟩
          · exact ⟨by omega, by rw [hraw, Nat.add_sub_cancel_left]⟩
          · have hsplit : e - pos = totalSize + (e - (pos + totalSize)) := by omega
            exact ⟨by omega, by rw [hraw, List.append_assoc, hsplit, List.take_add,
              List.drop_drop]⟩
      · rw [if_neg hpos] at h ⊢
        cases h
        exact .inl ⟨rfl, rfl, rfl⟩

/-- `ReadRawBatchAt` returns the bytes of the range that `ReadRawRangesAt` names. -/
theorem readRawBatchAt_eq {s : Segment} (hsize : s.currentSize ≤ s.file.length)
    {pos len n upTo : Nat}
    {base : Nat} {maxBytes : Int32} (hlen : len ≠ 0) (hlong : pos + len ≤ s.file.length)
    (h : s.readRawRangesAt pos maxBytes = .ok ⟨[⟨base, pos, len⟩], n, upTo⟩) :
    s.readRawBatchAt pos maxBytes = .ok ((s.file.drop pos).take len, upTo) := by
  unfold Segment.readRawRangesAt at h
  unfold Segment.readRawBatchAt
  split at h
  · cases h
  rename_i hin
  rw [if_neg hin]
  cases hloop : s.rangesLoop s.currentSize pos maxBytes.toInt true (0, 0) with
  | error e =>
    rw [hloop] at h
    cases h
  | ok r =>
    obtain ⟨e, u⟩ := r
    rw [hloop] at h
    simp only at h
    split at h
    · cases h
    rename_i hne
    cases h
    rcases rawLoop_eq hsize _ _ _ _ [] _ _ hloop with ⟨he, -⟩ | ⟨hle, hraw⟩
    · exact absurd he hne
    · simp only [hraw]
      simp only [List.nil_append]
      rw [if_neg]
      intro hnil
      have := congrArg List.length hnil
      simp only [List.length_take, List.length_drop, List.length_nil] at this
      omega

/-! ## The log -/

namespace Log

/-- Whole batches `cs` of a segment with batches `pre`, `cs` and `rest`, from the one
over the offset up to the budget, never less than one batch. -/
structure ReadFrom (crc : Checksum) (l : Log) (s : Segment) (offset : Nat) (maxBytes : Int32)
    (pre cs rest : List ByteString) : Prop where
  segment : s ∈ l.segments
  file : l.fileAt s.baseOffset = s.file
  rep : s.Rep crc (pre ++ cs ++ rest)
  start : ∃ c, cs.head? = some c ∧ baseOffset c ≤ offset ∧ offset < endOffset c
  fits : cs.length = 1 ∨ (cs.flatten.length : Int) ≤ maxBytes.toInt
  maximal : Maximal maxBytes.toInt cs rest

theorem ReadFrom.mem_batches {crc : Checksum} {l : Log} {s : Segment} {offset : Nat}
    {maxBytes : Int32} {pre cs rest : List ByteString}
    (h : ReadFrom crc l s offset maxBytes pre cs rest) {c : ByteString} (hc : c ∈ cs) :
    c ∈ l.batches := by
  obtain ⟨p, hp, rfl⟩ := List.mem_map.mp h.segment
  refine List.mem_flatMap.mpr ⟨p, hp, ?_⟩
  rw [h.rep.batches_eq]
  simp [hc]

theorem ReadFrom.drop_file {crc : Checksum} {l : Log} {s : Segment} {offset : Nat}
    {maxBytes : Int32} {pre cs rest : List ByteString}
    (h : ReadFrom crc l s offset maxBytes pre cs rest) :
    s.file.drop pre.flatten.length = cs.flatten ++ rest.flatten := by
  rw [h.rep.file_eq, List.flatten_append, List.flatten_append, List.append_assoc, List.drop_left]

/-- The file named in a range is the segment's that was read. -/
theorem fileAt_eq {l : Log} {before after : List SegmentPair} {p : SegmentPair}
    (hsplit : l.pairs = before ++ p :: after)
    (hafter : ∀ q ∈ after, p.segment.baseOffset < q.segment.baseOffset) :
    l.fileAt p.segment.baseOffset = p.segment.file := by
  have hnone : after.reverse.find? (fun q => q.segment.baseOffset == p.segment.baseOffset) =
      none := by
    refine List.find?_eq_none.mpr fun q hq => ?_
    have := hafter q (List.mem_reverse.mp hq)
    simp only [beq_iff_eq]
    omega
  unfold fileAt
  rw [hsplit, List.reverse_append, List.reverse_cons, List.append_assoc, List.find?_append, hnone,
    List.singleton_append, List.find?_cons_of_pos (by simp)]
  rfl

/-- The two reads fail together, or return the same batches. -/
theorem Apart.reads {crc : Checksum} {l : Log} (h : l.Apart crc) {offset : Nat}
    (ho : l.oldestOffset ≤ offset) (maxBytes : Int32) :
    (∃ e e', l.readRawRanges offset maxBytes = .error e ∧
      l.readRaw offset maxBytes = .error e') ∨
    ∃ s pre cs rest upTo, ReadFrom crc l s offset maxBytes pre cs rest ∧
      BatchTiles s.baseOffset upTo (pre ++ cs) ∧
      l.readRawRanges offset maxBytes =
        .ok ⟨[⟨s.baseOffset, pre.flatten.length, cs.flatten.length⟩], cs.flatten.length, upTo⟩ ∧
      l.readRaw offset maxBytes = .ok (cs.flatten, upTo) := by
  obtain ⟨hsealed, -, -⟩ := List.pairwise_append.mp h.ordered
  obtain ⟨target, hfind, hsplit, hbase, hafter⟩ := findSegment_ordered hsealed ho
  have hmem : l.pairAt target ∈ l.pairs := by rw [hsplit]; simp
  have hp := h.pair _ hmem
  unfold Log.readRawRanges Log.readRaw
  rw [hfind]
  simp only
  obtain ⟨pre₀, post₀, hcs₀, hlook, -⟩ := hp.points.lookup hbase
  rw [hlook]
  simp only
  cases hscan : (l.pairAt target).segment.scanTo offset
      ((l.pairAt target).segment.currentSize + 1) pre₀.flatten.length with
  | error e => exact .inl ⟨e, e, rfl, rfl⟩
  | ok pos =>
    right
    have hrep := hp.rep
    rw [hcs₀] at hrep
    obtain ⟨mid₀, c, rest₀, rfl, rfl, hlo, hhi⟩ := scanTo_found pre₀ _ hrep hscan
    rw [← List.append_assoc] at hrep
    generalize pre₀ ++ mid₀ = pre at hrep
    obtain ⟨mid, rest, upTo, rfl, hfit, hmax, htiles, hread⟩ := readRawRangesAt_ok hrep maxBytes
    have happ : pre ++ c :: (mid ++ rest) = pre ++ (c :: mid) ++ rest := by simp
    rw [happ] at hrep
    have h61 := (hrep.stored c (by simp)).length_ge
    have hfile := hrep.file_eq
    have hraw := readRawBatchAt_eq (by rw [hrep.size_flatten, hfile])
      (by rw [List.flatten_cons, List.length_append]; omega)
      (by
        rw [hfile, List.flatten_append, List.flatten_append]
        simp only [List.length_append]
        omega)
      hread
    rw [hfile, List.flatten_append, List.flatten_append, List.append_assoc, List.drop_left,
      List.take_left] at hraw
    refine ⟨_, pre, c :: mid, rest, upTo, ⟨List.mem_map_of_mem hmem,
      fileAt_eq hsplit fun q hq => ?_,
      hrep, ⟨c, rfl, hlo, hhi⟩, ?_, hmax⟩, htiles, ?_, ?_⟩
    · exact lt_of_le_of_lt hbase (hafter q hq)
    · rcases hfit with rfl | hfit
      · exact .inl rfl
      · exact .inr hfit
    · simp only [hread]
    · simp only [hraw]

theorem Apart.oldest_le {crc : Checksum} {l : Log} (h : l.Apart crc) {q : SegmentPair}
    (hq : q ∈ l.pairs) : l.oldestOffset ≤ q.segment.baseOffset := by
  have hordered := h.ordered
  unfold pairs at hq hordered
  unfold oldestOffset
  cases hsealed : l.sealedPairs with
  | nil =>
    rw [hsealed, List.nil_append, List.mem_singleton] at hq
    rw [hq]
  | cons p ps =>
    rw [hsealed, List.cons_append] at hq hordered
    rcases List.mem_cons.mp hq with rfl | hq
    · exact Nat.le_refl _
    · exact (List.pairwise_cons.mp hordered).1 q hq

theorem Apart.oldest_le_of_over {crc : Checksum} {l : Log} (h : l.Apart crc) {offset : Nat}
    {c : ByteString} (hc : c ∈ l.batches) (hlo : baseOffset c ≤ offset) :
    l.oldestOffset ≤ offset := by
  obtain ⟨q, hq, hcq⟩ := List.mem_flatMap.mp hc
  have hin := (h.pair q hq).rep.tiles.mem hcq
  have hold := h.oldest_le hq
  omega

end Log

end MessageBroker.Storage
