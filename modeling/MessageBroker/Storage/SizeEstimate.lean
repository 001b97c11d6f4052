import MessageBroker.Storage.Encoding

/-!
# The size estimate of the internal append

`AppendBatch` decides whether a batch fits before it encodes it. The estimate goes over
the messages and adds up the layout of the records by hand, in the machine's integers,
and corrects its assumption about the key afterwards. The definitions here follow the
source line by line. They are compared with the size the encoding has, and the decision
of `AppendBatch` with the room left in the segment.
-/
namespace MessageBroker.Storage

open Lib.Bytes

namespace Estimate

/-- The loop of `varintSize`. -/
def sizeLoop (u : Nat) (size : Int64) : Int64 :=
  if 0x80 ≤ u then sizeLoop (u >>> 7) (size + 1) else size
termination_by u
decreasing_by
  rw [Nat.shiftRight_eq_div_pow]
  omega

def varintSize (v : Int64) : Int64 := sizeLoop (zigzag v) 1

/-- `len` of a slice; a nil slice has length 0. -/
def len (bs : Option ByteString) : Int64 := Int64.ofNat (bs.getD []).length

/-- The body of the loop of `encodedBatchSize`, up to `bodySize`. -/
def bodySize (firstTimestamp : Int64) (i : Nat) (msg : Message) : Int64 :=
  let tsDelta := msg.timestamp - firstTimestamp
  let offsetDelta := Int64.ofNat i
  let bodySize := 1 + varintSize tsDelta + varintSize offsetDelta + 1 + len msg.key
  -- the length of the key was taken to need one byte
  let bodySize :=
    if msg.key = none then bodySize - 1 + varintSize (-1)
    else bodySize + (varintSize (len msg.key) - 1)
  let bodySize :=
    if msg.value = none then bodySize + varintSize (-1)
    else bodySize + (varintSize (len msg.value) + len msg.value)
  bodySize + 1

/-- The loop of `encodedBatchSize` from message `i` on. -/
def totalFrom (firstTimestamp : Int64) : Nat → List Message → Int64 → Int64
  | _, [], total => total
  | i, msg :: msgs, total =>
      let bodySize := bodySize firstTimestamp i msg
      totalFrom firstTimestamp (i + 1) msgs (total + (varintSize bodySize + bodySize))

def encodedBatchSize (batch : Batch) : Int64 :=
  totalFrom batch.firstTimestamp 0 batch.messages (Int64.ofNat recordBatchOverhead)

/-! ## The estimate is the number of bytes -/

/-- The loop adds a byte for every seven bits; `fuel + 1` groups hold the number. -/
theorem sizeLoop_eq {fuel u : Nat} (h : u < 2 ^ (7 * (fuel + 1))) (size : Int64) :
    sizeLoop u (size + 1) = size + Int64.ofNat (uvarintSize fuel u) := by
  induction fuel generalizing u size with
  | zero =>
    have hlt : u < 128 := h
    rw [sizeLoop, if_neg (by omega), uvarintSize]
    rfl
  | succ fuel ih =>
    rw [sizeLoop, uvarintSize]
    by_cases hge : 0x80 ≤ u
    · have hrest : u >>> 7 < 2 ^ (7 * (fuel + 1)) := by
        rw [Nat.shiftRight_eq_div_pow]
        refine Nat.div_lt_of_lt_mul ?_
        rwa [← Nat.pow_add, show 7 + 7 * (fuel + 1) = 7 * (fuel + 1 + 1) by omega]
      rw [if_pos hge, if_pos hge, ih hrest, Int64.ofNat_add]
      grind
    · rw [if_neg hge, if_neg hge]
      rfl

theorem varintSize_eq (v : Int64) : varintSize v = Int64.ofNat (Storage.varintSize v) := by
  have hlt : zigzag v < 2 ^ (7 * (10 + 1)) := (UInt64.toNat_lt _).trans (by decide)
  have hloop := sizeLoop_eq hlt 0
  rwa [Int64.zero_add, Int64.zero_add] at hloop

/-- Corrected, the key counts with its length prefix. -/
theorem key_corrected (size : Int64) (key : Option ByteString) :
    (if key = none then size + 1 + len key - 1 + varintSize (-1)
      else size + 1 + len key + (varintSize (len key) - 1)) =
      size + Int64.ofNat (nullableSize key) := by
  cases key with
  | none =>
    have hlen : len none = 0 := rfl
    rw [if_pos rfl, hlen, varintSize_eq, nullableSize]
    grind
  | some key =>
    have hlen : len (some key) = Int64.ofNat key.length := rfl
    rw [if_neg (by simp), hlen, varintSize_eq, nullableSize, Int64.ofNat_add]
    grind

theorem value_added (size : Int64) (value : Option ByteString) :
    (if value = none then size + varintSize (-1)
      else size + (varintSize (len value) + len value)) =
      size + Int64.ofNat (nullableSize value) := by
  cases value with
  | none => rw [if_pos rfl, varintSize_eq, nullableSize]
  | some value =>
    have hlen : len (some value) = Int64.ofNat value.length := rfl
    rw [if_neg (by simp), hlen, varintSize_eq, nullableSize, Int64.ofNat_add]

theorem bodySize_eq (firstTimestamp : Int64) (i : Nat) (msg : Message) :
    bodySize firstTimestamp i msg = Int64.ofNat (recordBodySize firstTimestamp i msg) := by
  simp only [bodySize, key_corrected, value_added]
  simp only [varintSize_eq, recordBodySize, Int64.ofNat_add]
  rfl

theorem totalFrom_eq (firstTimestamp : Int64) (i : Nat) (msgs : List Message) (total : Int64) :
    totalFrom firstTimestamp i msgs total =
      total + Int64.ofNat (recordsSize firstTimestamp i msgs) := by
  induction msgs generalizing i total with
  | nil => simp [totalFrom, recordsSize]
  | cons msg msgs ih =>
    simp only [totalFrom, recordsSize, ih, bodySize_eq, varintSize_eq, Int64.ofNat_add]
    grind

theorem encodedBatchSize_eq (batch : Batch) :
    encodedBatchSize batch = Int64.ofNat (Storage.encodedBatchSize batch) := by
  rw [encodedBatchSize, totalFrom_eq, ← Int64.ofNat_add, Storage.encodedBatchSize]

end Estimate

/-! ## The decision of `AppendBatch` -/

/-- While the sum fits an `int64`, the comparison of the source is one of numbers. -/
theorem estimate_exceeds_iff {s : Segment} {batch : Batch}
    (hsum : s.currentSize + encodedBatchSize batch < 2 ^ 63) :
    s.maxSize < Int64.ofNat s.currentSize + Estimate.encodedBatchSize batch ↔
      s.maxSize.toInt < s.currentSize + encodedBatchSize batch := by
  rw [Estimate.encodedBatchSize_eq, ← Int64.ofNat_add, Int64.lt_iff_toInt_lt,
    Int64.toInt_ofNat_of_lt hsum, Nat.cast_add]

/-- A batch is refused for its size, or the segment has room for all of it. -/
theorem Segment.appendBatch_fits (crc : Checksum) (s : Segment) {batch : Batch}
    (hne : batch.messages ≠ []) (fault : Option Nat) :
    s.maxSize.toInt < s.currentSize + encodedBatchSize batch ∧
      s.appendBatch crc batch fault = (.error .segmentFull, s) ∨
    s.currentSize + encodedBatchSize batch ≤ s.maxSize.toInt ∧
      ∃ r s', s.appendBatch crc batch fault = (r, s') ∧ r ≠ .error .segmentFull ∧
        (s'.currentSize = s.currentSize ∨
          s'.currentSize = s.currentSize + encodedBatchSize batch) ∧
        s'.file.length ≤ max s.file.length (s.currentSize + encodedBatchSize batch) := by
  have hlen := length_encodeBatch crc (batch.assigned s.nextOffset) 0
  have hsame : encodedBatchSize (batch.assigned s.nextOffset) = encodedBatchSize batch := rfl
  rw [hsame] at hlen
  unfold Segment.appendBatch
  rw [if_neg hne]
  by_cases hfull : s.maxSize.toInt < s.currentSize + encodedBatchSize batch
  · exact .inl ⟨hfull, if_pos hfull⟩
  rw [if_neg hfull]
  refine .inr ⟨not_lt.mp hfull, ?_⟩
  cases fault with
  | some k =>
    refine ⟨_, _, rfl, by simp, .inl rfl, ?_⟩
    show (writeAt s.file s.currentSize
      ((encodeBatch crc (batch.assigned s.nextOffset) 0).take k)).length ≤ _
    rw [length_writeAt, List.length_take]
    omega
  | none =>
    refine ⟨_, _, rfl, by simp, .inr (congrArg (s.currentSize + ·) hlen), ?_⟩
    show (writeAt s.file s.currentSize
      (encodeBatch crc (batch.assigned s.nextOffset) 0)).length ≤ _
    rw [length_writeAt, hlen]

/-- The estimate is the length of the encoding for every batch and epoch. So `AppendBatch`
leaves no segment above its limit that was not above it before, and refuses a batch with
messages as too large exactly if its encoding does not fit in the bytes left. The `int64`
comparison of the source says the same unless the sizes add up to 2⁶³ or more. -/
theorem appendBatch_size_exact (crc : Checksum) (batch : Batch) (leaderEpoch : Int32) :
    Estimate.encodedBatchSize batch = Int64.ofNat (encodeBatch crc batch leaderEpoch).length ∧
    ∀ (s : Segment) (fault : Option Nat),
      ((s.appendBatch crc batch fault).2.currentSize = s.currentSize ∨
        (s.appendBatch crc batch fault).2.currentSize ≤ s.maxSize.toInt) ∧
      (s.appendBatch crc batch fault).2.file.length ≤ max (s.file.length : Int) s.maxSize.toInt ∧
      (batch.messages ≠ [] →
        ((s.appendBatch crc batch fault).1 = .error .segmentFull ↔
          s.maxSize.toInt - s.currentSize < (encodeBatch crc batch leaderEpoch).length)) ∧
      (s.currentSize + (encodeBatch crc batch leaderEpoch).length < 2 ^ 63 →
        (s.maxSize < Int64.ofNat s.currentSize + Estimate.encodedBatchSize batch ↔
          s.maxSize.toInt - s.currentSize < (encodeBatch crc batch leaderEpoch).length)) := by
  rw [length_encodeBatch]
  refine ⟨Estimate.encodedBatchSize_eq batch, fun s fault => ?_⟩
  have hint : s.currentSize + encodedBatchSize batch < 2 ^ 63 →
      (s.maxSize < Int64.ofNat s.currentSize + Estimate.encodedBatchSize batch ↔
        s.maxSize.toInt - s.currentSize < encodedBatchSize batch) := by
    intro hsum
    rw [estimate_exceeds_iff hsum]
    omega
  by_cases hempty : batch.messages = []
  · have hrefused : s.appendBatch crc batch fault = (.error .emptyBatch, s) := if_pos hempty
    rw [hrefused]
    exact ⟨.inl rfl, le_max_left _ _, fun hne => absurd hempty hne, hint⟩
  rcases s.appendBatch_fits crc hempty fault with
    ⟨hfull, happend⟩ | ⟨hfits, r, s', happend, hr, hsize, hfile⟩
  · rw [happend]
    exact ⟨.inl rfl, le_max_left _ _, fun _ => iff_of_true rfl (by omega), hint⟩
  · rw [happend]
    refine ⟨?_, ?_, fun _ => iff_of_false hr (by omega), hint⟩
    · rcases hsize with hsize | hsize
      · exact .inl hsize
      · refine .inr ?_
        show (s'.currentSize : Int) ≤ s.maxSize.toInt
        rw [hsize, Nat.cast_add]
        exact hfits
    · show (s'.file.length : Int) ≤ max (s.file.length : Int) s.maxSize.toInt
      omega

/-- One message without a key. -/
def keylessBatch : Batch := ⟨0, 0, 0, 0, 0, [⟨none, some [1, 2, 3], -64⟩]⟩

theorem appendBatch_size_exact_keyless :
    Estimate.encodedBatchSize keylessBatch = 71 ∧
    ((⟨[], 0, 0, 0, 70⟩ : Segment).appendBatch crc32c keylessBatch none).1 =
      .error .segmentFull ∧
    ¬ (71 : Int64) < Int64.ofNat 0 + Estimate.encodedBatchSize keylessBatch := by
  have hlen : (encodeBatch crc32c keylessBatch 0).length = 71 := by decide +kernel
  have hexact := appendBatch_size_exact crc32c keylessBatch 0
  rw [hlen] at hexact
  refine ⟨hexact.1, ?_, ?_⟩
  · exact ((hexact.2 ⟨[], 0, 0, 0, 70⟩ none).2.2.1 (by decide)).mpr (by decide)
  · exact mt ((hexact.2 ⟨[], 0, 0, 0, 71⟩ none).2.2.2 (by decide)).mp (by decide)

end MessageBroker.Storage
