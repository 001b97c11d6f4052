import MessageBroker.Storage.Tiling

/-!
# Reading a log

A read finds the segment, asks the index for a position at or before the batch,
scans forward to it and takes as many whole batches as fit the budget. The index
keeps offsets modulo `2^32`, so a segment may not span more than that.
-/
namespace MessageBroker.Storage

open Lib.Bytes Lib.Tiling Lib

/-! ## The index lookup -/

theorem Index.relative_eq {idx : Index} {offset : Nat} (hb : idx.baseOffset ≤ offset)
    (h32 : offset - idx.baseOffset < 2 ^ 32) :
    idx.relative offset = offset - idx.baseOffset := by
  unfold Index.relative
  omega

/-- A lookup answers the start of the segment, or an entry that is not beyond the offset. -/
theorem Index.Points.lookup_cases {idx : Index} {base : Nat} {cs : List ByteString}
    (h : idx.Points base cs) {offset : Nat} (hb : base ≤ offset) :
    idx.lookup offset = .ok 0 ∨ ∃ e ∈ idx.entries, idx.lookup offset = .ok e.filePos ∧
      e.relOffset ≤ idx.relative offset := by
  unfold Index.lookup
  by_cases hnil : idx.entries = []
  · exact .inl (if_pos hnil)
  rw [if_neg hnil, if_neg (by rw [h.base_eq]; omega)]
  simp only
  have hspec := Search.lastLE_spec (fun i => (idx.entries.getD i ⟨0, 0⟩).relOffset)
    (idx.relative offset) idx.entries.length
  revert hspec
  generalize Search.lastLE (fun i => (idx.entries.getD i ⟨0, 0⟩).relOffset)
    (idx.relative offset) idx.entries.length = k
  rintro (rfl | ⟨hk, hle⟩)
  · obtain ⟨e, es, hents⟩ := List.exists_cons_of_ne_nil hnil
    have hzero := h.head e (by rw [hents]; rfl)
    rw [hents, List.getD_cons_zero, hzero]
    exact .inl rfl
  · have hget : idx.entries.getD k ⟨0, 0⟩ = idx.entries[k] := by
      rw [List.getD_eq_getElem?_getD, List.getElem?_eq_getElem hk]
      rfl
    rw [hget] at hle ⊢
    exact .inr ⟨_, List.getElem_mem hk, rfl, hle⟩

/-- A lookup lands on the start of a batch, not after the offset. -/
theorem Index.Points.lookup {idx : Index} {base : Nat} {cs : List ByteString}
    (h : idx.Points base cs) {offset : Nat} (hb : base ≤ offset) :
    ∃ pre post, cs = pre ++ post ∧ idx.lookup offset = .ok pre.flatten.length ∧
      ((∀ c ∈ cs, base ≤ Storage.baseOffset c ∧ Storage.baseOffset c - base < 2 ^ 32) →
        offset - base < 2 ^ 32 → pre ≠ [] →
        ∃ c, post.head? = some c ∧ Storage.baseOffset c ≤ offset) := by
  rcases h.lookup_cases hb with hstart | ⟨e, he, hlook, hle⟩
  · exact ⟨[], cs, rfl, hstart, fun _ _ hne => absurd rfl hne⟩
  · obtain ⟨pre, c, post, rfl, hpos, hrel⟩ := h.entry e he
    refine ⟨pre, c :: post, rfl, by rw [hlook, hpos], fun hcs h32 _ => ⟨c, rfl, ?_⟩⟩
    obtain ⟨h1, h2⟩ := hcs c (by simp)
    have hbase := h.base_eq
    rw [hrel, Index.relative_eq (by omega) (by omega),
      Index.relative_eq (by omega) (by omega)] at hle
    omega

/-! ## The forward scan -/

section Scan

variable {crc : Checksum} {s : Segment} {offset : Nat}

/-- From a boundary at or before it, the scan reaches the batch over the offset. -/
theorem scanTo_ok {mid : List ByteString} : ∀ (pre : List ByteString) (fuel : Nat)
    {c : ByteString} {rest : List ByteString}, s.Rep crc (pre ++ (mid ++ c :: rest)) →
    mid.length < fuel → baseOffset c ≤ offset → offset < endOffset c →
    s.scanTo offset fuel pre.flatten.length = .ok (pre ++ mid).flatten.length := by
  induction mid with
  | nil =>
    intro pre fuel c rest h hfuel hlo hhi
    obtain ⟨fuel, rfl⟩ : ∃ k, fuel = k + 1 := ⟨fuel - 1, by simp at hfuel; omega⟩
    rw [List.nil_append] at h
    rw [Segment.scanTo, h.readBatchMetaAt]
    simp only [h.batchEnd (c := c) (by simp), List.append_nil]
    rw [if_pos ⟨hlo, by omega⟩]
  | cons x mid ih =>
    intro pre fuel c rest h hfuel hlo hhi
    obtain ⟨fuel, rfl⟩ : ∃ k, fuel = k + 1 := ⟨fuel - 1, by simp at hfuel; omega⟩
    obtain ⟨a, -, -, hxlt, htail⟩ := tiles_append.mp h.tiles
    obtain ⟨b, hmid, hc, -⟩ := tiles_append.mp htail
    have hle := hmid.le
    have happ : pre ++ (x :: mid ++ c :: rest) = (pre ++ [x]) ++ (mid ++ c :: rest) := by simp
    have happ' : pre ++ x :: mid = (pre ++ [x]) ++ mid := by simp
    have hbase : baseOffset x < endOffset x := by unfold endOffset; omega
    have hroom : ¬ s.currentSize ≤ pre.flatten.length + x.length := by
      have h61 := (h.stored c (by simp)).length_ge
      rw [h.size_flatten]
      simp only [List.flatten_append, List.flatten_cons, List.cons_append, List.length_append]
      omega
    rw [List.cons_append] at h
    rw [Segment.scanTo, h.readBatchMetaAt]
    simp only [h.batchEnd (c := x) (by simp)]
    rw [if_neg (by omega), if_neg (by omega), if_neg hroom, Segment.Rep.next_pos, happ']
    rw [← List.cons_append, happ] at h
    exact ih (pre ++ [x]) fuel h (by simp at hfuel; omega) hlo hhi

/-- Past the last batch the scan runs off the segment. -/
theorem scanTo_error {post : List ByteString} : ∀ (pre : List ByteString) (fuel : Nat),
    s.Rep crc (pre ++ post) → (∀ c ∈ post, endOffset c ≤ offset) →
    ∃ e, s.scanTo offset fuel pre.flatten.length = .error e := by
  induction post with
  | nil =>
    intro pre fuel h _
    cases fuel with
    | zero => exact ⟨_, rfl⟩
    | succ fuel =>
      have hnone : readAt s.file pre.flatten.length 27 = none := by
        apply readAt_of_short
        rw [h.file_eq, List.append_nil]
        omega
      rw [Segment.scanTo, Segment.readBatchMetaAt, hnone]
      exact ⟨_, rfl⟩
  | cons x post ih =>
    intro pre fuel h hall
    cases fuel with
    | zero => exact ⟨_, rfl⟩
    | succ fuel =>
      have hx := hall x List.mem_cons_self
      have hlt : baseOffset x < endOffset x := by unfold endOffset; omega
      rw [Segment.scanTo, h.readBatchMetaAt]
      simp only [h.batchEnd (c := x) (by simp)]
      rw [if_neg (by omega), if_neg (by omega)]
      split
      · exact ⟨_, rfl⟩
      · rw [Segment.Rep.next_pos]
        have happ : pre ++ x :: post = (pre ++ [x]) ++ post := by simp
        rw [happ] at h
        exact ih (pre ++ [x]) fuel h fun c hc => hall c (List.mem_cons_of_mem _ hc)

end Scan

/-! ## Taking whole batches -/

/-- The batches `mid` fit the budget, and the one after them does not. -/
def Maximal (budget : Int) (mid rest : List ByteString) : Prop :=
  ∀ d ∈ rest.head?, budget < (mid ++ [d]).flatten.length

section Ranges

variable {crc : Checksum} {s : Segment}

/-- After the first batch, the loop takes batches as long as they fit. -/
theorem rangesLoop_rest {post : List ByteString} : ∀ (pre : List ByteString) (fuel upTo : Nat)
    (remaining : Int), s.Rep crc (pre ++ post) → post.length ≤ fuel →
    BatchTiles s.baseOffset upTo pre → 0 < remaining →
    ∃ mid rest upTo', post = mid ++ rest ∧ (mid.flatten.length : Int) ≤ remaining ∧
      Maximal remaining mid rest ∧ BatchTiles s.baseOffset upTo' (pre ++ mid) ∧
      s.rangesLoop fuel pre.flatten.length remaining false (pre.flatten.length, upTo) =
        .ok ((pre ++ mid).flatten.length, upTo') := by
  induction post with
  | nil =>
    intro pre fuel upTo remaining h _ ht hpos
    refine ⟨[], [], upTo, rfl, by simpa using Int.le_of_lt hpos, fun d hd => (by cases hd),
      by rwa [List.append_nil], ?_⟩
    rw [List.append_nil]
    cases fuel with
    | zero => rfl
    | succ fuel =>
      have hend := h.size_flatten
      rw [List.append_nil] at hend
      rw [Segment.rangesLoop, if_neg (by omega)]
  | cons c post ih =>
    intro pre fuel upTo remaining h hfuel ht hpos
    obtain ⟨fuel, rfl⟩ : ∃ k, fuel = k + 1 := ⟨fuel - 1, by simp at hfuel; omega⟩
    have hend := h.end_le
    have h61 := (h.stored c (by simp)).length_ge
    rw [Segment.rangesLoop, if_pos (by omega), h.readBatchMetaAt]
    simp only [h.upTo (c := c) (by simp)]
    rw [if_neg (by omega)]
    by_cases hfit : remaining < c.length
    · refine ⟨[], c :: post, upTo, rfl, by simpa using Int.le_of_lt hpos, ?_, by
        rwa [List.append_nil], ?_⟩
      · intro d hd
        cases hd
        simpa using hfit
      · rw [if_pos ⟨rfl, hfit⟩, List.append_nil]
    · rw [if_neg (fun hh => hfit hh.2)]
      obtain ⟨a, hpre, hc, hlt, -⟩ := tiles_append.mp h.tiles
      have ht' : BatchTiles s.baseOffset (endOffset c) (pre ++ [c]) := hpre.append ⟨hc, hlt, rfl⟩
      by_cases hzero : remaining - c.length ≤ 0
      · refine ⟨[c], post, endOffset c, rfl, by simp; omega, ?_, ht', ?_⟩
        · intro d hd
          have hd' := (h.stored d (by
            have := List.mem_of_mem_head? hd
            simp [this])).length_ge
          simp only [List.flatten_append, List.flatten_cons, List.flatten_nil, List.append_nil,
            List.length_append]
          omega
        · rw [if_pos hzero, Segment.Rep.next_pos]
      · rw [if_neg hzero, Segment.Rep.next_pos]
        have happ : pre ++ c :: post = (pre ++ [c]) ++ post := by simp
        rw [happ] at h
        obtain ⟨mid, rest, upTo', rfl, hle, hmax, htiles, he⟩ :=
          ih (pre ++ [c]) fuel (endOffset c) (remaining - c.length) h (by simp at hfuel ⊢; omega)
            ht' (by omega)
        have happ' : pre ++ c :: mid = (pre ++ [c]) ++ mid := by simp
        refine ⟨c :: mid, rest, upTo', rfl, ?_, fun d hd => ?_, by rwa [happ'], by rwa [happ']⟩
        · rw [List.flatten_cons, List.length_append]
          push_cast
          omega
        · have := hmax d hd
          rw [List.cons_append, List.flatten_cons, List.length_append]
          push_cast
          omega

/-- `ReadRawRangesAt` at the start of a batch. -/
theorem readRawRangesAt_ok {pre post : List ByteString} {c : ByteString}
    (h : s.Rep crc (pre ++ c :: post)) (maxBytes : Int32) :
    ∃ mid rest upTo, post = mid ++ rest ∧
      (mid = [] ∨ ((c :: mid).flatten.length : Int) ≤ maxBytes.toInt) ∧
      Maximal maxBytes.toInt (c :: mid) rest ∧ BatchTiles s.baseOffset upTo (pre ++ c :: mid) ∧
      s.readRawRangesAt pre.flatten.length maxBytes =
        .ok ⟨[⟨s.baseOffset, pre.flatten.length, (c :: mid).flatten.length⟩],
          (c :: mid).flatten.length, upTo⟩ := by
  have hend := h.end_le
  have hlen := h.length_le
  have h61 := (h.stored c (by simp)).length_ge
  have happ : pre ++ c :: post = (pre ++ [c]) ++ post := by simp
  obtain ⟨a, hpre, hc, hlt, -⟩ := tiles_append.mp h.tiles
  have ht : BatchTiles s.baseOffset (endOffset c) (pre ++ [c]) := hpre.append ⟨hc, hlt, rfl⟩
  obtain ⟨fuel, hfuel⟩ : ∃ k, s.currentSize = k + 1 := ⟨s.currentSize - 1, by omega⟩
  -- the first batch is taken whatever its size
  have hfirst : s.rangesLoop s.currentSize pre.flatten.length maxBytes.toInt true (0, 0) =
      if maxBytes.toInt - c.length ≤ 0 then .ok ((pre ++ [c]).flatten.length, endOffset c)
      else s.rangesLoop fuel (pre ++ [c]).flatten.length (maxBytes.toInt - c.length) false
        ((pre ++ [c]).flatten.length, endOffset c) := by
    rw [hfuel, Segment.rangesLoop, if_pos (by omega), h.readBatchMetaAt]
    simp only [h.upTo (c := c) (by simp), Segment.Rep.next_pos]
    rw [if_neg (by rw [← Segment.Rep.next_pos]; omega), if_neg (by simp)]
  have hresult : ∀ {mid : List ByteString} {upTo : Nat},
      s.rangesLoop s.currentSize pre.flatten.length maxBytes.toInt true (0, 0) =
        .ok ((pre ++ c :: mid).flatten.length, upTo) →
      s.readRawRangesAt pre.flatten.length maxBytes =
        .ok ⟨[⟨s.baseOffset, pre.flatten.length, (c :: mid).flatten.length⟩],
          (c :: mid).flatten.length, upTo⟩ := by
    intro mid upTo he
    have hsize : (pre ++ c :: mid).flatten.length =
        pre.flatten.length + (c :: mid).flatten.length := by simp
    have hpos : 61 ≤ (c :: mid).flatten.length := by
      rw [List.flatten_cons, List.length_append]
      omega
    unfold Segment.readRawRangesAt
    rw [if_neg (by omega), he]
    simp only [hsize]
    rw [if_neg (by omega), Nat.add_sub_cancel_left]
  by_cases hzero : maxBytes.toInt - c.length ≤ 0
  · refine ⟨[], post, endOffset c, rfl, .inl rfl, fun d hd => ?_, ht, ?_⟩
    · have hd' := (h.stored d (by
        have := List.mem_of_mem_head? hd
        simp [this])).length_ge
      simp only [List.cons_append, List.nil_append, List.flatten_cons, List.flatten_nil,
        List.append_nil, List.length_append]
      push_cast
      omega
    · exact hresult (by rw [hfirst, if_pos hzero])
  · rw [if_neg hzero] at hfirst
    rw [List.length_append, List.length_cons] at hlen
    obtain ⟨mid, rest, upTo, rfl, hle, hmax, htiles, he⟩ :=
      rangesLoop_rest (pre ++ [c]) fuel (endOffset c) (maxBytes.toInt - c.length) (happ ▸ h)
        (by omega) ht (by omega)
    have happ' : pre ++ c :: mid = (pre ++ [c]) ++ mid := by simp
    refine ⟨mid, rest, upTo, rfl, .inr ?_, fun d hd => ?_, by rwa [happ'], ?_⟩
    · rw [List.flatten_cons, List.length_append]
      push_cast
      omega
    · have := hmax d hd
      rw [List.cons_append, List.flatten_cons, List.length_append]
      push_cast
      omega
    · exact hresult (by rw [hfirst, he, happ'])

end Ranges

/-! ## The read -/

namespace Log

/-- One range of whole batches of one segment, from the batch over the offset up
to the budget, never less than one batch. -/
def GoodRead (l : Log) (offset : Nat) (maxBytes : Int32) (r : ReadRawRangesResult) : Prop :=
  ∃ s ∈ l.segments, ∃ (pre : List ByteString) (c : ByteString) (mid rest : List ByteString),
    s.batches = pre ++ (c :: mid) ++ rest ∧ baseOffset c ≤ offset ∧ offset < endOffset c ∧
    (mid = [] ∨ ((c :: mid).flatten.length : Int) ≤ maxBytes.toInt) ∧
    Maximal maxBytes.toInt (c :: mid) rest ∧
    r = ⟨[⟨s.baseOffset, pre.flatten.length, (c :: mid).flatten.length⟩],
      (c :: mid).flatten.length, endOffset ((c :: mid).getLast (by simp))⟩

/-- The index positions of a segment that spans less than `2^32` offsets. -/
theorem span_relative {crc : Checksum} {p : SegmentPair} (hp : p.Ok crc)
    (hspan : p.segment.nextOffset - p.segment.baseOffset < 2 ^ 32) :
    ∀ c ∈ p.segment.batches, p.segment.baseOffset ≤ baseOffset c ∧
      baseOffset c - p.segment.baseOffset < 2 ^ 32 := by
  intro c hc
  have := hp.rep.tiles.mem hc
  omega

/-- A pair whose segment has the offset reads from the batch over it. -/
theorem pair_reads {crc : Checksum} {p : SegmentPair} (hp : p.Ok crc)
    (hspan : p.segment.nextOffset - p.segment.baseOffset < 2 ^ 32) {offset : Nat}
    (hlo : p.segment.baseOffset ≤ offset) (hhi : offset < p.segment.nextOffset) :
    ∃ pos pre c post, p.index.lookup offset = .ok pos ∧
      p.segment.batches = pre ++ c :: post ∧ baseOffset c ≤ offset ∧ offset < endOffset c ∧
      p.segment.scanTo offset (p.segment.currentSize + 1) pos = .ok pre.flatten.length := by
  obtain ⟨pre, post, hcs, hlook, hhead⟩ := hp.points.lookup hlo
  have hrep := hp.rep
  rw [hcs] at hrep
  obtain ⟨m, hpre, hpost⟩ := tiles_append.mp hrep.tiles
  -- the position is at or before the batch over the offset
  have hm : m ≤ offset := by
    by_cases hnil : pre = []
    · subst hnil
      rw [← show p.segment.baseOffset = m from hpre]
      exact hlo
    · obtain ⟨c, hc, hle⟩ := hhead (span_relative hp hspan) (by omega) hnil
      cases post with
      | nil => cases hc
      | cons x post =>
        cases hc
        rw [← hpost.1]
        exact hle
  obtain ⟨mid, c, rest, rfl, hcl, hch⟩ := hpost.find hm hhi
  have hlen := hrep.length_le
  refine ⟨_, pre ++ mid, c, rest, hlook, by rw [hcs, List.append_assoc], hcl, hch, ?_⟩
  refine scanTo_ok pre _ hrep ?_ hcl hch
  rw [List.length_append, List.length_append] at hlen
  omega

theorem Ok.readRawRanges {crc : Checksum} {l : Log} (h : l.Ok crc)
    (hspan : ∀ s ∈ l.segments, s.nextOffset - s.baseOffset < 2 ^ 32) (offset : Nat)
    (maxBytes : Int32) :
    (l.oldestOffset ≤ offset → offset < l.nextOffset →
      ∃ r, l.readRawRanges offset maxBytes = .ok r ∧ l.GoodRead offset maxBytes r) ∧
    (offset < l.oldestOffset ∨ l.nextOffset ≤ offset →
      ∃ e, l.readRawRanges offset maxBytes = .error e) := by
  unfold Log.readRawRanges
  constructor
  · intro hlo hhi
    obtain ⟨target, hfind, hsplit, hbase, hnext⟩ := findSegment_some h.linked hlo
    have hmem : l.pairAt target ∈ l.pairs := by rw [hsplit]; simp
    have hseg : (l.pairAt target).segment ∈ l.segments := List.mem_map_of_mem hmem
    have hlt : offset < (l.pairAt target).segment.nextOffset := by
      cases target with
      | active => exact hhi
      | sealed i => exact hnext (by simp [after])
    have hp := h.pair _ hmem
    obtain ⟨pos, pre, c, post, hlook, hcs, hcl, hch, hscan⟩ :=
      pair_reads hp (hspan _ hseg) hbase hlt
    have hrep := hp.rep
    rw [hcs] at hrep
    obtain ⟨mid, rest, upTo, rfl, hfit, hmax, htiles, hread⟩ := readRawRangesAt_ok hrep maxBytes
    simp only [hfind, hlook, hscan, hread]
    refine ⟨_, rfl, _, hseg, pre, c, mid, rest, by rw [hcs]; simp, hcl, hch, hfit, hmax, ?_⟩
    have hlast := htiles.end_eq_getLast (by simp)
    rw [List.getLast_append_of_ne_nil (by simp)] at hlast
    rw [hlast]
  · rintro (hlo | hhi)
    · rw [findSegment_none h.linked hlo]
      exact ⟨_, rfl⟩
    · have hact := h.linked.mem l.active_mem
      have hfind : l.findSegment offset = some .active := if_pos (by omega)
      have hseg : l.activePair.segment ∈ l.segments := List.mem_map_of_mem l.active_mem
      obtain ⟨pre, post, hcs, hlook, -⟩ := h.active.points.lookup
        (show l.activePair.segment.baseOffset ≤ offset by omega)
      have hrep := h.active.rep
      have hends : ∀ c ∈ post, endOffset c ≤ offset := by
        intro c hc
        have := hrep.tiles.mem (show c ∈ l.activePair.segment.batches by rw [hcs]; simp [hc])
        exact this.2.2.trans hhi
      rw [hcs] at hrep
      obtain ⟨e, he⟩ := scanTo_error pre (l.activePair.segment.currentSize + 1) hrep hends
      simp only [hfind, pairAt, hlook, he]
      exact ⟨_, rfl⟩

/-- Every log reached by safe calls from a new one reads correctly. -/
theorem log_reads {crc : Checksum} {config : LogConfig} {io : Faults} {l : Log}
    (hnew : newLog crc config [] none io = .ok l) (calls : List (Call × Faults))
    (hg : Runs.Guarded (Log.exec crc) Safe l calls)
    (hspan : ∀ s ∈ (Runs.final (Log.exec crc) l calls).segments,
      s.nextOffset - s.baseOffset < 2 ^ 32) (offset : Nat) (maxBytes : Int32) :
    let l' := Runs.final (Log.exec crc) l calls
    (l'.oldestOffset ≤ offset → offset < l'.nextOffset →
      ∃ r, l'.readRawRanges offset maxBytes = .ok r ∧ l'.GoodRead offset maxBytes r) ∧
    (offset < l'.oldestOffset ∨ l'.nextOffset ≤ offset →
      ∃ e, l'.readRawRanges offset maxBytes = .error e) :=
  (run_ok hnew calls hg).readRawRanges hspan offset maxBytes

theorem log_reads_tidyRun :
    ∃ r, (Runs.final (Log.exec crc32c) (fresh tightConfig) tidyRun).readRawRanges 0 100 = .ok r ∧
      (Runs.final (Log.exec crc32c) (fresh tightConfig) tidyRun).GoodRead 0 100 r :=
  (log_reads (newLog_nil crc32c tightConfig .none) tidyRun tidyRun_safe (by decide +kernel)
    0 100).1 (by decide +kernel) (by decide +kernel)

/-- After the rejected truncation the offset at the gap cannot be read. -/
theorem gap_unreadable :
    newLog crc32c tightConfig [] none .none = .ok (fresh tightConfig) ∧
      (∀ s ∈ gapLog.segments, s.nextOffset - s.baseOffset < 2 ^ 32) ∧
      gapLog.oldestOffset ≤ 2 ∧ 2 < gapLog.nextOffset ∧
      gapLog.readRawRanges 2 1000 = .error (.endOfSegment 2) := by
  refine ⟨newLog_nil crc32c tightConfig .none, ?_, ?_, ?_, ?_⟩ <;> decide +kernel

end Log

end MessageBroker.Storage
