import MessageBroker.Storage.Truncate
import MessageBroker.Lib.Tiling

/-!
# Segment files as sequences of batches

A segment file that the append paths wrote is a concatenation of stored batches,
each as long as its header declares. `Segment.batches` cuts a file by these
lengths; `Rep` says that the cut is the whole file and that the batches tile the
segment's offsets. Every loop over a segment then meets the batches one by one.
-/
namespace MessageBroker.Storage

open Lib.Bytes Lib.Tiling

/-- A batch as it is stored: self-delimiting, with the magic and checksum that
recovery looks for. -/
structure Stored (crc : Checksum) (c : ByteString) : Prop where
  size_eq : declaredSize c = c.length
  min_size : recordBatchOverhead ≤ c.length
  magic_eq : magic c = 2
  crc_eq : (crc (c.drop 21)).toNat = storedCRC c

theorem Stored.length_ge {crc : Checksum} {c : ByteString} (h : Stored crc c) : 61 ≤ c.length :=
  h.min_size

theorem declaredSize_append {c rest : ByteString} (h : 12 ≤ c.length) :
    declaredSize (c ++ rest) = declaredSize c := by
  unfold declaredSize batchLength
  rw [field_append_left (by omega)]

/-! ## Cutting a file into batches -/

/-- Cut by declared sizes. -/
def splitBatches : Nat → ByteString → List ByteString
  | 0, _ => []
  | fuel + 1, bs =>
      if bs = [] then []
      else bs.take (declaredSize bs) :: splitBatches fuel (bs.drop (declaredSize bs))

/-- The batches of a segment. -/
def Segment.batches (s : Segment) : List ByteString :=
  splitBatches s.currentSize (s.file.take s.currentSize)

theorem length_le_flatten {crc : Checksum} {cs : List ByteString} (h : ∀ c ∈ cs, Stored crc c) :
    cs.length ≤ cs.flatten.length := by
  induction cs with
  | nil => exact Nat.le_refl _
  | cons c cs ih =>
    have h61 := (h c List.mem_cons_self).length_ge
    have := ih fun x hx => h x (List.mem_cons_of_mem _ hx)
    rw [List.flatten_cons, List.length_append, List.length_cons]
    omega

theorem splitBatches_flatten {crc : Checksum} {cs : List ByteString}
    (hcs : ∀ c ∈ cs, Stored crc c) :
    ∀ fuel, cs.flatten.length ≤ fuel → splitBatches fuel cs.flatten = cs := by
  induction cs with
  | nil =>
    intro fuel _
    cases fuel with
    | zero => rfl
    | succ fuel => simp [splitBatches]
  | cons c cs ih =>
    intro fuel hfuel
    have hc := hcs c List.mem_cons_self
    have h61 := hc.length_ge
    rw [List.flatten_cons, List.length_append] at hfuel
    obtain ⟨fuel, rfl⟩ : ∃ k, fuel = k + 1 := ⟨fuel - 1, by omega⟩
    have hne : c ++ cs.flatten ≠ [] := by
      intro he
      have := congrArg List.length he
      simp only [List.length_append, List.length_nil] at this
      omega
    rw [List.flatten_cons, splitBatches, if_neg hne, declaredSize_append (by omega), hc.size_eq,
      List.take_left, List.drop_left,
      ih (fun x hx => hcs x (List.mem_cons_of_mem _ hx)) fuel (by omega)]

/-- The batches of a request or a response. -/
def rawBatches (data : ByteString) : List ByteString := splitBatches data.length data

theorem rawBatches_flatten {crc : Checksum} {cs : List ByteString}
    (hcs : ∀ c ∈ cs, Stored crc c) : rawBatches cs.flatten = cs :=
  splitBatches_flatten hcs _ (Nat.le_refl _)

/-- Cutting loses no byte. -/
theorem flatten_splitBatches : ∀ (fuel : Nat) (bs : ByteString), bs.length ≤ fuel →
    (splitBatches fuel bs).flatten = bs := by
  intro fuel
  induction fuel with
  | zero =>
    intro bs h
    exact (List.eq_nil_of_length_eq_zero (Nat.le_zero.mp h)).symm
  | succ fuel ih =>
    intro bs h
    rw [splitBatches]
    split
    · rename_i hnil
      rw [hnil]
      rfl
    · have hpos : 12 ≤ declaredSize bs := Nat.le_add_right 12 _
      have hlen : (bs.drop (declaredSize bs)).length ≤ fuel := by
        rw [List.length_drop]
        omega
      rw [List.flatten_cons, ih _ hlen, List.take_append_drop]

/-- The batches cover the offsets from `a` to `b` without gap or overlap. -/
abbrev BatchTiles (a b : Nat) (cs : List ByteString) : Prop := Tiles baseOffset endOffset a b cs

/-- The segment holds exactly these batches, which tile its offsets. -/
structure Segment.Rep (crc : Checksum) (s : Segment) (cs : List ByteString) : Prop where
  file_eq : s.file = cs.flatten
  size_eq : s.currentSize = s.file.length
  stored : ∀ c ∈ cs, Stored crc c
  tiles : BatchTiles s.baseOffset s.nextOffset cs
  next_lt : s.nextOffset < 2 ^ 64

/-- The header at the start of a stored batch of the file. -/
theorem Segment.readBatchMetaAt_stored {crc : Checksum} (s : Segment) {before c after : ByteString}
    (hfile : s.file = before ++ (c ++ after)) (hc : Stored crc c) :
    s.readBatchMetaAt before.length = .ok (Storage.baseOffset c, lastOffsetDelta c, c.length) := by
  have h61 := hc.length_ge
  have hsize : declaredSize (c.take 27) = c.length := by
    rw [← hc.size_eq, declaredSize, declaredSize, batchLength, batchLength, field_take (by omega)]
  have hbase : Storage.baseOffset (c.take 27) = Storage.baseOffset c := field_take (by omega)
  have hlod : lastOffsetDelta (c.take 27) = lastOffsetDelta c := field_take (by omega)
  rw [Segment.readBatchMetaAt, hfile, readAt_append (by omega)]
  simp only [hsize, hbase, hlod]

namespace Segment.Rep

variable {crc : Checksum} {s : Segment} {cs : List ByteString}

theorem batches_eq (h : s.Rep crc cs) : s.batches = cs := by
  unfold Segment.batches
  rw [h.size_eq, List.take_length, h.file_eq]
  exact splitBatches_flatten h.stored _ (Nat.le_refl _)

theorem self (h : s.Rep crc cs) : s.Rep crc s.batches := by
  rw [h.batches_eq]
  exact h

theorem size_flatten (h : s.Rep crc cs) : s.currentSize = cs.flatten.length := by
  rw [h.size_eq, h.file_eq]

theorem base_le_next (h : s.Rep crc cs) : s.baseOffset ≤ s.nextOffset := h.tiles.le

/-- Empty segments are those without bytes, and those without offsets. -/
theorem eq_nil_iff (h : s.Rep crc cs) : cs = [] ↔ s.currentSize = 0 := by
  constructor
  · rintro rfl
    exact h.size_flatten
  · intro h0
    cases cs with
    | nil => rfl
    | cons c cs =>
      have h61 := (h.stored c List.mem_cons_self).length_ge
      have hsz := h.size_flatten
      rw [List.flatten_cons, List.length_append] at hsz
      omega

theorem eq_nil_iff_next (h : s.Rep crc cs) : cs = [] ↔ s.nextOffset = s.baseOffset := by
  constructor
  · rintro rfl
    exact (show s.baseOffset = s.nextOffset from h.tiles).symm
  · intro he
    by_contra hne
    have := h.tiles.lt_of_ne_nil hne
    omega

/-- The end of a batch fits an offset, so the source's sums do not wrap. -/
theorem endOffset_lt (h : s.Rep crc cs) {c : ByteString} (hc : c ∈ cs) : endOffset c < 2 ^ 64 :=
  (h.tiles.mem hc).2.2.trans_lt h.next_lt

/-- The last offset of a batch and the offset after it, as the source computes them. -/
theorem batchEnd (h : s.Rep crc cs) {c : ByteString} (hc : c ∈ cs) :
    (Storage.baseOffset c + Storage.lastOffsetDelta c) % 2 ^ 64 = endOffset c - 1 := by
  have := h.endOffset_lt hc
  unfold endOffset at this ⊢
  rw [Nat.mod_eq_of_lt (by omega)]
  omega

theorem upTo (h : s.Rep crc cs) {c : ByteString} (hc : c ∈ cs) :
    (Storage.baseOffset c + Storage.lastOffsetDelta c + 1) % 2 ^ 64 = endOffset c :=
  Nat.mod_eq_of_lt (h.endOffset_lt hc)

theorem size_sum (h : s.Rep crc cs) : s.currentSize = (cs.map declaredSize).sum := by
  rw [h.size_flatten, List.length_flatten]
  refine congrArg List.sum (List.map_congr_left fun c hc => ?_)
  exact (h.stored c hc).size_eq.symm

theorem file_split {pre post : List ByteString} {c : ByteString}
    (h : s.Rep crc (pre ++ c :: post)) :
    s.file = pre.flatten ++ (c ++ post.flatten) := by
  rw [h.file_eq, List.flatten_append, List.flatten_cons]

theorem readAt_header {pre post : List ByteString} {c : ByteString}
    (h : s.Rep crc (pre ++ c :: post)) {n : Nat} (hn : n ≤ 61) :
    readAt s.file pre.flatten.length n = some (c.take n) := by
  have h61 := (h.stored c (by simp)).length_ge
  rw [h.file_split, readAt_append (by omega)]

/-- The header at the start of a batch. -/
theorem readBatchMetaAt {pre post : List ByteString} {c : ByteString}
    (h : s.Rep crc (pre ++ c :: post)) :
    s.readBatchMetaAt pre.flatten.length =
      .ok (Storage.baseOffset c, lastOffsetDelta c, c.length) :=
  s.readBatchMetaAt_stored h.file_split (h.stored c (by simp))

/-- Where a batch of the segment ends in its file. -/
theorem end_le {pre post : List ByteString} {c : ByteString} (h : s.Rep crc (pre ++ c :: post)) :
    pre.flatten.length + c.length + post.flatten.length = s.currentSize := by
  have hsz := h.size_flatten
  simp only [List.flatten_append, List.flatten_cons, List.length_append] at hsz
  omega

theorem next_pos {pre : List ByteString} {c : ByteString} :
    pre.flatten.length + c.length = (pre ++ [c]).flatten.length := by
  simp

/-- A batch is longer than a byte, so the bytes bound the number of batches. -/
theorem length_le (h : s.Rep crc cs) : cs.length ≤ s.currentSize := by
  rw [h.size_flatten]
  exact length_le_flatten h.stored

end Segment.Rep

/-- A fresh segment. -/
theorem rep_empty (crc : Checksum) {base : Nat} (hb : base < 2 ^ 64) (maxSize : Int64) :
    Segment.Rep crc ⟨[], base, base, 0, maxSize⟩ [] where
  file_eq := rfl
  size_eq := rfl
  stored _ hc := absurd hc List.not_mem_nil
  tiles := rfl
  next_lt := hb

/-! ## Recovery finds every batch again -/

/-- At the start of a stored batch recovery finds it intact. -/
theorem intactBatchAt_stored {crc : Checksum} {c before after : ByteString} (hc : Stored crc c) :
    intactBatchAt crc (before ++ (c ++ after)) before.length =
      .ok (some (c.length, lastOffsetDelta c)) := by
  have h61 := hc.length_ge
  have hhead : readAt (before ++ (c ++ after)) before.length recordBatchOverhead =
      some (c.take 61) := readAt_append h61
  have hsize : declaredSize (c.take 61) = c.length := by
    rw [← hc.size_eq, declaredSize, declaredSize, batchLength, batchLength, field_take (by omega)]
  have hmagic : magic (c.take 61) = 2 := by
    rw [← hc.magic_eq]
    exact field_take (by omega)
  have hbody : readAt (before ++ (c ++ after)) (before.length + 21) (c.length - 21) =
      some (c.drop 21) := by
    have hsplit : before ++ (c ++ after) = (before ++ c.take 21) ++ (c.drop 21 ++ after) := by
      rw [List.append_assoc, ← List.append_assoc (c.take 21), List.take_append_drop]
    have hpos : before.length + 21 = (before ++ c.take 21).length := by
      rw [List.length_append, List.length_take]
      omega
    have hn : c.length - 21 = (c.drop 21).length := by rw [List.length_drop]
    rw [hsplit, hpos, hn, readAt_append (Nat.le_refl _), List.take_length]
  have hcrc : (crc (c.drop 21)).toNat = storedCRC (c.take 61) := by
    rw [hc.crc_eq]
    exact (field_take (by omega)).symm
  have hlod : lastOffsetDelta (c.take 61) = lastOffsetDelta c := field_take (by omega)
  have hfit : ¬ (before ++ (c ++ after)).length < before.length + c.length := by
    rw [List.length_append, List.length_append]
    omega
  rw [intactBatchAt, hhead]
  simp only [hsize, hmagic, hbody, hcrc, hlod, ne_eq, not_true_eq_false, if_false, if_neg hfit]
  rw [if_neg (by omega)]

/-- Bytes after the batches that recovery does not take for a batch. -/
def NoBatch (crc : Checksum) (file : ByteString) (pos : Nat) : Prop :=
  file.length ≤ pos ∨ intactBatchAt crc file pos = .ok none

instance (crc : Checksum) (file : ByteString) (pos : Nat) : Decidable (NoBatch crc file pos) :=
  inferInstanceAs (Decidable (_ ∨ _))

/-- The loop passes over stored batches. -/
theorem recoverLoop_past {crc : Checksum} {tail : ByteString} {post : List ByteString} :
    ∀ (pre : List ByteString) (fuel next : Nat) {last : Nat}, (∀ c ∈ post, Stored crc c) →
      BatchTiles next last post → last < 2 ^ 64 →
      recoverLoop crc (pre.flatten ++ (post.flatten ++ tail)) (post.length + fuel)
          pre.flatten.length next =
        recoverLoop crc (pre.flatten ++ (post.flatten ++ tail)) fuel
          (pre ++ post).flatten.length last := by
  induction post with
  | nil =>
    intro pre fuel next last _ ht _
    have hnext : next = last := ht
    rw [hnext, List.length_nil, Nat.zero_add, List.append_nil]
  | cons c post ih =>
    intro pre fuel next last hst ht hlast
    obtain ⟨hbase, hlt, hrest⟩ := ht
    have hc := hst c List.mem_cons_self
    have h61 := hc.length_ge
    have hpos : pre.flatten.length < (pre.flatten ++ (c ++ (post.flatten ++ tail))).length := by
      rw [List.length_append, List.length_append]
      omega
    have hnext : (next + (lastOffsetDelta c + 1)) % 2 ^ 64 = endOffset c := by
      have hle := hrest.le
      rw [← hbase, ← Nat.add_assoc]
      exact Nat.mod_eq_of_lt (by unfold endOffset at hle; omega)
    have hfile : (pre ++ [c]).flatten ++ (post.flatten ++ tail) =
        pre.flatten ++ (c ++ (post.flatten ++ tail)) := by
      simp
    have hpre : (pre ++ [c]) ++ post = pre ++ c :: post := by simp
    have hfuel : (c :: post).length + fuel = post.length + fuel + 1 := by
      rw [List.length_cons]
      omega
    rw [List.flatten_cons, List.append_assoc, hfuel, recoverLoop, if_pos hpos,
      intactBatchAt_stored hc]
    simp only [hnext]
    have hstep := ih (pre ++ [c]) fuel (endOffset c)
      (fun x hx => hst x (List.mem_cons_of_mem _ hx)) hrest hlast
    rw [hfile, hpre, ← Segment.Rep.next_pos] at hstep
    exact hstep

/-- The loop over a file of batches followed by bytes that are none. -/
theorem recoverLoop_stored {crc : Checksum} {tail : ByteString} {cs : List ByteString}
    {fuel base last : Nat} (hst : ∀ c ∈ cs, Stored crc c) (hfuel : cs.length ≤ fuel)
    (ht : BatchTiles base last cs) (hlast : last < 2 ^ 64)
    (htail : NoBatch crc (cs.flatten ++ tail) cs.flatten.length) :
    recoverLoop crc (cs.flatten ++ tail) fuel 0 base = .ok (cs.flatten.length, last) := by
  obtain ⟨fuel, rfl⟩ := Nat.exists_eq_add_of_le hfuel
  have hpast : recoverLoop crc (cs.flatten ++ tail) (cs.length + fuel) 0 base =
      recoverLoop crc (cs.flatten ++ tail) fuel cs.flatten.length last :=
    recoverLoop_past [] fuel base hst ht hlast
  rw [hpast]
  cases fuel with
  | zero => rfl
  | succ fuel =>
    rw [recoverLoop]
    rcases htail with hend | hnone
    · rw [if_neg (Nat.not_lt.mpr hend)]
    · rw [hnone]
      split <;> rfl

/-- Opening a file of batches followed by bytes that are none. -/
theorem newSegment_stored {crc : Checksum} {cs : List ByteString} {tail : ByteString}
    {base last : Nat} (hst : ∀ c ∈ cs, Stored crc c) (ht : BatchTiles base last cs)
    (hlast : last < 2 ^ 64) (htail : NoBatch crc (cs.flatten ++ tail) cs.flatten.length)
    (maxSize : Int64) :
    newSegment crc (cs.flatten ++ tail) base maxSize =
      .ok ⟨cs.flatten, base, last, cs.flatten.length, maxSize⟩ := by
  have hrep : Segment.Rep crc ⟨cs.flatten, base, last, cs.flatten.length, maxSize⟩ cs :=
    ⟨rfl, rfl, hst, ht, hlast⟩
  unfold newSegment
  by_cases h0 : (cs.flatten ++ tail).length = 0
  · rw [List.length_append] at h0
    have hnil : cs = [] := hrep.eq_nil_iff.mpr (show cs.flatten.length = 0 by omega)
    have hnext : last = base := hrep.eq_nil_iff_next.mp hnil
    rw [if_pos (by rw [List.length_append]; exact h0), hnil, hnext]
    rfl
  · have hlen : cs.length ≤ (cs.flatten ++ tail).length := by
      have : cs.length ≤ cs.flatten.length := hrep.length_le
      rw [List.length_append]
      omega
    have hloop := recoverLoop_stored hst hlen ht hlast htail
    have hne : ¬ (last = base ∧ 0 < cs.flatten.length) := by
      rintro ⟨he, hpos⟩
      have : cs.flatten.length = 0 := hrep.eq_nil_iff.mp (hrep.eq_nil_iff_next.mpr he)
      omega
    rw [if_neg h0, hloop]
    simp only [if_neg hne, List.take_left]

/-- Opening the file of a segment again gives the segment back. -/
theorem newSegment_rep {crc : Checksum} {s : Segment} {cs : List ByteString} (h : s.Rep crc cs)
    (maxSize : Int64) :
    newSegment crc s.file s.baseOffset maxSize = .ok { s with maxSize := maxSize } := by
  have hend : NoBatch crc (cs.flatten ++ []) cs.flatten.length :=
    .inl (by rw [List.append_nil])
  have hopen := newSegment_stored h.stored h.tiles h.next_lt hend maxSize
  rw [List.append_nil, ← h.file_eq, ← h.size_eq] at hopen
  exact hopen

/-! ## Cutting a segment at a batch boundary -/

/-- The position found is a batch boundary at the offset; every boundary is found. -/
theorem truncationLoop_ok {crc : Checksum} {s : Segment} {offset : Nat} {post : List ByteString} :
    ∀ (pre : List ByteString) (fuel : Nat) {start p : Nat}, s.Rep crc (pre ++ post) →
      post.length < fuel → BatchTiles s.baseOffset start pre →
      BatchTiles start s.nextOffset post →
      s.truncationLoop offset fuel pre.flatten.length = .ok p →
      ∃ kept cut, pre ++ post = kept ++ cut ∧ p = kept.flatten.length ∧
        BatchTiles s.baseOffset offset kept ∧
        BatchTiles offset s.nextOffset cut := by
  induction post with
  | nil =>
    intro pre fuel start p h hfuel hpre hpost hp
    obtain ⟨fuel, rfl⟩ : ∃ k, fuel = k + 1 := ⟨fuel - 1, by simp at hfuel; omega⟩
    have hend : ¬ pre.flatten.length < s.currentSize := by
      rw [h.size_flatten, List.append_nil]
      omega
    rw [Segment.truncationLoop, if_neg hend] at hp
    split at hp
    · rename_i he
      cases hp
      have hstart : start = s.nextOffset := hpost
      exact ⟨pre, [], rfl, rfl, by rw [he, ← hstart]; exact hpre, he⟩
    · cases hp
  | cons c post ih =>
    intro pre fuel start p h hfuel hpre hpost hp
    obtain ⟨fuel, rfl⟩ : ∃ k, fuel = k + 1 := ⟨fuel - 1, by simp at hfuel; omega⟩
    obtain ⟨hbase, hlt, hrest⟩ := hpost
    have hend := h.end_le
    have h61 := (h.stored c (by simp)).length_ge
    rw [Segment.truncationLoop, if_pos (by omega), h.readBatchMetaAt] at hp
    simp only at hp
    rw [if_neg (by omega)] at hp
    split at hp
    · rename_i he
      cases hp
      refine ⟨pre, c :: post, rfl, rfl, by rw [← he, hbase]; exact hpre, ?_⟩
      exact ⟨he, by rw [← he, hbase]; exact hlt, hrest⟩
    · split at hp
      · cases hp
      · rw [Segment.Rep.next_pos] at hp
        have happ : pre ++ c :: post = (pre ++ [c]) ++ post := by simp
        rw [happ] at h ⊢
        exact ih (pre ++ [c]) fuel h (by simp at hfuel; omega)
          (hpre.append ⟨hbase, hlt, rfl⟩) hrest hp

theorem truncationLoop_complete {crc : Checksum} {s : Segment} {offset : Nat}
    {mid : List ByteString} :
    ∀ (pre : List ByteString) (fuel : Nat) {start : Nat} {cut : List ByteString},
      s.Rep crc (pre ++ (mid ++ cut)) → (mid ++ cut).length < fuel →
      BatchTiles start offset mid →
      BatchTiles offset s.nextOffset cut →
      s.truncationLoop offset fuel pre.flatten.length = .ok (pre ++ mid).flatten.length := by
  induction mid with
  | nil =>
    intro pre fuel start cut h hfuel _ hcut
    obtain ⟨fuel, rfl⟩ : ∃ k, fuel = k + 1 := ⟨fuel - 1, by simp at hfuel; omega⟩
    rw [List.append_nil]
    cases cut with
    | nil =>
      have hend : ¬ pre.flatten.length < s.currentSize := by
        rw [h.size_flatten, List.append_nil, List.append_nil]
        omega
      rw [Segment.truncationLoop, if_neg hend, if_pos (show offset = s.nextOffset from hcut)]
    | cons c cut =>
      have hend := h.end_le
      have h61 := (h.stored c (by simp)).length_ge
      simp only [List.nil_append] at h hend
      rw [Segment.truncationLoop, if_pos (by omega), h.readBatchMetaAt]
      simp only
      rw [if_neg (by omega), if_pos hcut.1]
  | cons c mid ih =>
    intro pre fuel start cut h hfuel hmid hcut
    obtain ⟨fuel, rfl⟩ : ∃ k, fuel = k + 1 := ⟨fuel - 1, by simp at hfuel; omega⟩
    obtain ⟨hbase, hlt, hrest⟩ := hmid
    have hle := hrest.le
    rw [List.cons_append] at h
    have hend := h.end_le
    have h61 := (h.stored c (by simp)).length_ge
    rw [Segment.truncationLoop, if_pos (by omega), h.readBatchMetaAt]
    simp only [h.batchEnd (c := c) (by simp)]
    rw [if_neg (by omega), if_neg (by omega), if_neg (by omega), Segment.Rep.next_pos]
    have happ : pre ++ c :: (mid ++ cut) = (pre ++ [c]) ++ (mid ++ cut) := by simp
    have happ' : pre ++ c :: mid = (pre ++ [c]) ++ mid := by simp
    rw [happ] at h
    rw [happ']
    exact ih (pre ++ [c]) fuel h (by simp at hfuel ⊢; omega) hrest hcut

/-- `findTruncationPosition` succeeds exactly at the batch boundaries. -/
theorem findTruncationPosition_ok {crc : Checksum} {s : Segment} {cs : List ByteString}
    (h : s.Rep crc cs) {offset p : Nat} :
    s.findTruncationPosition offset = .ok p ↔ ∃ kept cut, cs = kept ++ cut ∧
      p = kept.flatten.length ∧ BatchTiles s.baseOffset offset kept ∧
      BatchTiles offset s.nextOffset cut := by
  have hlen := h.length_le
  constructor
  · intro hp
    exact truncationLoop_ok [] _ h (by omega) rfl h.tiles hp
  · rintro ⟨kept, cut, rfl, rfl, hkept, hcut⟩
    exact truncationLoop_complete [] _ h (by omega) hkept hcut

/-- Cutting at a boundary leaves the batches before it. -/
theorem truncateAt_rep {crc : Checksum} {s : Segment} {kept cut : List ByteString} {offset : Nat}
    (h : s.Rep crc (kept ++ cut)) (hkept : BatchTiles s.baseOffset offset kept)
    (hcut : BatchTiles offset s.nextOffset cut) :
    ∃ s', s.truncateAt kept.flatten.length offset false = (.ok (), s') ∧ s'.Rep crc kept ∧
      s'.baseOffset = s.baseOffset ∧ s'.nextOffset = offset ∧ s'.maxSize = s.maxSize := by
  have hle := hkept.le
  have hle' := hcut.le
  have hnext := h.next_lt
  have hlen : kept.flatten.length ≤ s.currentSize := by
    rw [h.size_flatten, List.flatten_append, List.length_append]
    omega
  refine ⟨{ s with
    file := s.file.take kept.flatten.length
    currentSize := kept.flatten.length
    nextOffset := offset }, ?_, ?_, rfl, rfl, rfl⟩
  · rw [Segment.truncateAt, if_neg (by omega), if_neg (by omega)]
    rfl
  · have hfile : s.file.take kept.flatten.length = kept.flatten := by
      rw [h.file_eq, List.flatten_append, List.take_left]
    exact ⟨hfile, by simp only [hfile], fun c hc => h.stored c (List.mem_append_left _ hc), hkept,
      by simp only; omega⟩

end MessageBroker.Storage
