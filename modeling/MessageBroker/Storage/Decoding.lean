import MessageBroker.Lib.Cursors
import MessageBroker.Protocol.Decoder
import MessageBroker.Storage.Encoding

/-!
# Reading a batch back

`decodeBatch` of the log: the header by position, then the records one varint
after the other. Positions are 64-bit `int`s and wrap, and a slice out of range
panics; the records of a header's count are not bounded by memory here.
-/
namespace MessageBroker.Storage

open Lib.Bytes Lib.Varint Lib.Cursors
open Protocol (wrap64 wrap64_of_nat)

/-! ## The decoder -/

/-- What is wrong with a record. -/
inductive RecordError
  | unexpectedEnd
  | badLength
  | lengthExceedsBatch (recLen : Int64)
  | truncatedAttributes
  | badTimestampDelta
  | badOffsetDelta
  | badKeyLen
  | keyTruncated
  | badValLen
  | valueTruncated
  | badHeaderCount
  | badHeaderKeyLen (header : Nat)
  | badHeaderValueLen (header : Nat)
  deriving DecidableEq

/-- The errors of `decodeBatch`, and the panic of a slice out of range. -/
inductive DecodeBatchError
  | tooShort (have_ : Nat)
  | truncated (have_ need : Nat)
  | unsupportedMagic (magic : Nat)
  | crcMismatch
  | record (i : Nat) (e : RecordError)
  | sliceOutOfRange
  deriving DecidableEq

/-- The record loop, over its position. -/
abbrev Scan := StateT Int (Except DecodeBatchError)

namespace Scan

variable (data : ByteString) (totalSize : Nat) (e : DecodeBatchError)

/-- `data[pos:]`. -/
def sliceFrom : Scan ByteString := fun pos =>
  if 0 ≤ pos ∧ pos ≤ data.length then .ok (data.drop pos.toNat, pos) else .error .sliceOutOfRange

/-- `data[pos : pos+n : pos+n]`. -/
def slice (n : Int) : Scan ByteString := fun pos =>
  if 0 ≤ pos ∧ pos ≤ wrap64 (pos + n) ∧ wrap64 (pos + n) ≤ data.length then
    .ok ((data.drop pos.toNat).take n.toNat, pos)
  else .error .sliceOutOfRange

/-- `pos += n`. -/
def advance (n : Int) : Scan Unit := fun pos => .ok ((), wrap64 (pos + n))

/-- Refuses a position at or past the end of the batch. -/
def notAtEnd : Scan Unit := fun pos => if totalSize ≤ pos then .error e else .ok ((), pos)

/-- Refuses `n` bytes that reach past the end of the batch. -/
def fits (n : Int) : Scan Unit := fun pos =>
  if totalSize < wrap64 (pos + n) then .error e else .ok ((), pos)

/-- `binary.Varint(data[pos:])`. -/
def varint : Scan Int64 := do
  match readVarint (← sliceFrom data) with
  | none => throw e
  | some (v, n) =>
    advance n
    return v

/-- A key or value: its length, then its bytes. A negative length is a nil slice. -/
def nullable (badLen truncated : RecordError) (i : Nat) : Scan (Option ByteString) := do
  let n ← varint data (.record i badLen)
  if n < 0 then return none
  fits totalSize (.record i truncated) n.toInt
  let bs ← slice data n.toInt
  advance n.toInt
  return some bs

/-- The loop over the record headers from header `h` on. -/
def skipHeaders (i : Nat) : Nat → Nat → Scan Unit
  | _, 0 => pure ()
  | h, n + 1 => do
      let hkLen ← varint data (.record i (.badHeaderKeyLen h))
      if 0 < hkLen then advance hkLen.toInt
      let hvLen ← varint data (.record i (.badHeaderValueLen h))
      if 0 < hvLen then advance hvLen.toInt
      skipHeaders i (h + 1) n

/-- The body of the record loop up to the headers: the time, the key, the value and
the number of headers. -/
def recordFields (i : Nat) : Scan (Int64 × Option ByteString × Option ByteString × Int64) := do
  notAtEnd totalSize (.record i .unexpectedEnd)
  let recLen ← varint data (.record i .badLength)
  fits totalSize (.record i (.lengthExceedsBatch recLen)) recLen.toInt
  notAtEnd totalSize (.record i .truncatedAttributes)
  advance 1
  let tsDelta ← varint data (.record i .badTimestampDelta)
  let _offsetDelta ← varint data (.record i .badOffsetDelta)
  let key ← nullable data totalSize .badKeyLen .keyTruncated i
  let val ← nullable data totalSize .badValLen .valueTruncated i
  let hdrCount ← varint data (.record i .badHeaderCount)
  return (tsDelta, key, val, hdrCount)

/-- The body of the record loop. -/
def decodeRecord (firstTimestamp : Int64) (i : Nat) : Scan Message := do
  let (tsDelta, key, val, hdrCount) ← recordFields data totalSize i
  skipHeaders data i 0 hdrCount.toInt.toNat
  return ⟨key, val, firstTimestamp + tsDelta⟩

end Scan

def decodeBatch (crc : Checksum) (data : ByteString) : Except DecodeBatchError Batch :=
  if data.length < recordBatchOverhead then .error (.tooShort data.length)
  else
    let totalSize := declaredSize data
    if data.length < totalSize then .error (.truncated data.length totalSize)
    else if magic data ≠ 2 then .error (.unsupportedMagic (magic data))
    -- `data[21:totalSize]`
    else if totalSize < 21 then .error .sliceOutOfRange
    else if (crc ((data.take totalSize).drop 21)).toNat ≠ storedCRC data then .error .crcMismatch
    else do
      let firstTimestamp := Int64.ofNat (field data 27 8)
      let (messages, _) ← rounds (Scan.decodeRecord data totalSize firstTimestamp) 0
        (recordCount data) 61
      return {
        firstOffset := baseOffset data
        attributes := UInt16.ofNat (field data 21 2)
        firstTimestamp := firstTimestamp
        maxTimestamp := Int64.ofNat (field data 35 8)
        lastOffsetDelta := lastOffsetDelta data
        messages := messages }

/-! ## Varints -/

theorem zigzag_lt (v : Int64) : zigzag v < 2 ^ 64 := UInt64.toNat_lt _

theorem zigzag_of_lt {v : Int64} (h : v.toBitVec.toNat < 2 ^ 63) :
    zigzag v = 2 * v.toBitVec.toNat := by
  have hmsb : v.toBitVec.msb = false := BitVec.msb_eq_false_iff_two_mul_lt.mpr (by omega)
  have hsign : v.toBitVec.sshiftRight 63 = 0#64 := by
    rw [BitVec.sshiftRight_eq_of_msb_false hmsb]
    apply BitVec.eq_of_toNat_eq
    rw [BitVec.toNat_ushiftRight, Nat.shiftRight_eq_div_pow, Nat.div_eq_of_lt h]
    rfl
  have hz : zigzag v = (v.toBitVec <<< 1 ^^^ v.toBitVec.sshiftRight 63).toNat := rfl
  rw [hz, hsign, BitVec.xor_zero, BitVec.toNat_shiftLeft, Nat.shiftLeft_eq]
  omega

theorem zigzag_of_ge {v : Int64} (h : 2 ^ 63 ≤ v.toBitVec.toNat) :
    zigzag v = 2 * (2 ^ 64 - 1 - v.toBitVec.toNat) + 1 := by
  have hlt := v.toBitVec.isLt
  have hmsb : v.toBitVec.msb = true := BitVec.msb_eq_true_iff_two_mul_ge.mpr (by omega)
  have hsign : v.toBitVec.sshiftRight 63 = BitVec.allOnes 64 := by
    rw [BitVec.sshiftRight_eq_of_msb_true hmsb]
    apply BitVec.eq_of_toNat_eq
    rw [BitVec.toNat_not, BitVec.toNat_ushiftRight, BitVec.toNat_not, Nat.shiftRight_eq_div_pow,
      BitVec.toNat_allOnes]
    omega
  have hz : zigzag v = (v.toBitVec <<< 1 ^^^ v.toBitVec.sshiftRight 63).toNat := rfl
  rw [hz, hsign, BitVec.xor_allOnes, BitVec.toNat_not, BitVec.toNat_shiftLeft, Nat.shiftLeft_eq]
  omega

theorem unzigzag_zigzag (v : Int64) : unzigzag (zigzag v) = v := by
  have hlt := v.toBitVec.isLt
  apply Int64.toBitVec_inj.mp
  apply BitVec.eq_of_toNat_eq
  unfold unzigzag
  rcases Nat.lt_or_ge v.toBitVec.toNat (2 ^ 63) with h | h
  · rw [zigzag_of_lt h, if_neg (by omega), Nat.shiftRight_eq_div_pow]
    show (BitVec.ofNat 64 _).toNat = _
    rw [BitVec.toNat_ofNat]
    omega
  · rw [zigzag_of_ge h, if_pos (by omega), Nat.shiftRight_eq_div_pow]
    show (~~~ BitVec.ofNat 64 _).toNat = _
    rw [BitVec.toNat_not, BitVec.toNat_ofNat]
    omega

/-- The reader at byte `i` takes the rest of a number off its bytes: the writer has
as many rounds left as the reader. -/
theorem readUvarintFrom_uvarint {fuel i u : Nat} (acc : Nat) (rest : ByteString) (h10 : i < 10)
    (hf : i + fuel = 10) (hu : u < 2 ^ (64 - 7 * i)) :
    readUvarintFrom i acc (uvarint fuel u ++ rest) =
      some (acc ||| u <<< (7 * i), i + (uvarint fuel u).length) := by
  induction fuel generalizing i u acc with
  | zero => omega
  | succ fuel ih =>
    unfold uvarint
    split
    · rename_i hbig
      have hb : (UInt8.ofNat (u ||| 0x80)).toNat = u % 128 + 128 := by
        rw [UInt8.toNat_ofNat']
        exact or_continuation u
      -- the tenth byte has room for one bit only
      have h9 : i ≠ 9 := by
        rintro rfl
        omega
      have hu' : u >>> 7 < 2 ^ (64 - 7 * (i + 1)) := by
        rw [Nat.shiftRight_eq_div_pow, Nat.div_lt_iff_lt_mul (by decide), ← Nat.pow_add]
        rwa [show 64 - 7 * (i + 1) + 7 = 64 - 7 * i by omega]
      rw [List.cons_append, readUvarintFrom, if_neg (by omega), hb, if_neg (by omega),
        show (u % 128 + 128) % 128 = u % 128 by omega, ih _ (by omega) (by omega) hu',
        Nat.or_assoc, low_or_high, List.length_cons]
      congr 2
      omega
    · rename_i hsmall
      have hb : (UInt8.ofNat u).toNat = u := by
        rw [UInt8.toNat_ofNat']
        omega
      have hfit : ¬ (i = 9 ∧ 1 < u) := by
        rintro ⟨rfl, h1⟩
        omega
      rw [List.singleton_append, readUvarintFrom, if_neg (by omega), hb, if_pos (by omega),
        if_neg hfit]
      rfl

theorem readUvarint_uvarint {u : Nat} (hu : u < 2 ^ 64) (rest : ByteString) :
    readUvarint (uvarint 10 u ++ rest) = some (u, (uvarint 10 u).length) := by
  have h := readUvarintFrom_uvarint 0 rest (by decide) (rfl : 0 + 10 = 10) hu
  rwa [Nat.zero_or, Nat.mul_zero, Nat.shiftLeft_zero, Nat.zero_add] at h

theorem readVarint_varint (v : Int64) (rest : ByteString) :
    readVarint (varint v ++ rest) = some (v, (varint v).length) := by
  rw [readVarint, varint, readUvarint_uvarint (zigzag_lt v)]
  show some (unzigzag (zigzag v), _) = _
  rw [unzigzag_zigzag]

/-- A length below `2^63` survives its conversion. -/
theorem ofNat_toUInt64 (v : Int64) : Int64.ofNat v.toUInt64.toNat = v := by
  apply Int64.toBitVec_inj.mp
  simp

/-! ## The records -/

namespace Scan

/-- How a position stands in a batch that ends with its data. -/
def cursor (data : ByteString) : Cursor Int where
  stands pos p rest := pos = p ∧ p + rest.length = data.length ∧ data.drop p = rest
  limit := 2 ^ 63

section Steps

variable {data : ByteString} {e : DecodeBatchError}

theorem advance_ok {p n : Nat} (h : p + n < 2 ^ 63) :
    advance n (p : Int) = .ok ((), ((p + n : Nat) : Int)) := by
  rw [advance, ← wrap64_of_nat h, Int.natCast_add]

theorem stands_append {pos : Int} {p : Nat} {w rest : ByteString}
    (hs : (cursor data).stands pos p (w ++ rest)) :
    (cursor data).stands ((p + w.length : Nat) : Int) (p + w.length) rest := by
  obtain ⟨-, hlen, hdrop⟩ := hs
  rw [List.length_append] at hlen
  refine ⟨rfl, by omega, ?_⟩
  rw [← List.drop_drop, hdrop, List.drop_left]

theorem reads_varint (v : Int64) : (cursor data).Reads (varint data e) (Storage.varint v) v := by
  intro pos p rest hs hlt
  obtain ⟨rfl, hlen, hdrop⟩ := hs
  refine ⟨_, ?_, stands_append ⟨rfl, hlen, hdrop⟩⟩
  have hfrom : sliceFrom data (p : Int) = .ok (data.drop p, (p : Int)) :=
    if_pos ⟨Int.natCast_nonneg p, by omega⟩
  unfold varint
  rw [bind_ok hfrom, hdrop, readVarint_varint]
  exact bind_ok (advance_ok hlt)

theorem reads_advance_one (b : UInt8) : (cursor data).Reads (advance 1) [b] () := by
  intro pos p rest hs hlt
  obtain ⟨rfl, hlen, hdrop⟩ := hs
  exact ⟨_, advance_ok hlt, stands_append ⟨rfl, hlen, hdrop⟩⟩

/-- A check that the next `n` bytes are there, before bytes that begin with them. -/
theorem fits_ok {n : Nat} {w : ByteString} (hn : n ≤ w.length) {pos : Int} {p : Nat}
    {rest : ByteString} (hs : (cursor data).stands pos p (w ++ rest))
    (hlt : p + w.length < 2 ^ 63) : fits data.length e n pos = .ok ((), pos) := by
  obtain ⟨rfl, hlen, -⟩ := hs
  rw [List.length_append] at hlen
  have hwrap : wrap64 ((p : Int) + n) = (p + n : Nat) := by
    rw [← wrap64_of_nat (show p + n < 2 ^ 63 by omega), Int.natCast_add]
  exact if_neg (by rw [hwrap]; omega)

theorem notAtEnd_ok {w : ByteString} (hw : 0 < w.length) {pos : Int} {p : Nat}
    {rest : ByteString} (hs : (cursor data).stands pos p (w ++ rest)) :
    notAtEnd data.length e pos = .ok ((), pos) := by
  obtain ⟨rfl, hlen, -⟩ := hs
  rw [List.length_append] at hlen
  exact if_neg (by omega)

theorem slice_ok {w : ByteString} {pos : Int} {p : Nat} {rest : ByteString}
    (hs : (cursor data).stands pos p (w ++ rest)) (hlt : p + w.length < 2 ^ 63) :
    slice data w.length pos = .ok (w, pos) := by
  obtain ⟨rfl, hlen, hdrop⟩ := hs
  rw [List.length_append] at hlen
  have hwrap : wrap64 ((p : Int) + w.length) = (p + w.length : Nat) := by
    rw [← wrap64_of_nat hlt, Int.natCast_add]
  have hin : (0 : Int) ≤ p ∧ (p : Int) ≤ wrap64 (p + w.length) ∧
      wrap64 (p + w.length) ≤ data.length := by
    rw [hwrap]
    omega
  rw [slice, if_pos hin, Int.toNat_natCast, Int.toNat_natCast, hdrop, List.take_left]

theorem reads_advance (w : ByteString) : (cursor data).Reads (advance w.length) w () := by
  intro pos p rest hs hlt
  obtain ⟨rfl, hlen, hdrop⟩ := hs
  exact ⟨_, advance_ok hlt, stands_append ⟨rfl, hlen, hdrop⟩⟩

theorem reads_nullable {badLen truncated : RecordError} {i : Nat} (o : Option ByteString) :
    (cursor data).Reads (nullable data data.length badLen truncated i) (Storage.nullable o)
      o := by
  cases o with
  | none =>
    exact ((reads_varint (-1)).bind (Cursor.reads_pure none)).of_eq (List.append_nil _).symm
  | some bs =>
    refine (reads_varint (Int64.ofNat bs.length)).bind (Cursor.Reads.bounded fun hlt => ?_)
    have hint := Int64.toInt_ofNat_of_lt hlt
    have hneg : ¬ Int64.ofNat bs.length < 0 := by
      rw [Int64.lt_iff_toInt_lt, hint]
      exact Int.not_lt.mpr (Int.natCast_nonneg _)
    rw [if_neg hneg, hint]
    refine Cursor.Reads.look (fun _ _ _ hs hb => fits_ok (le_refl _) hs hb) ?_
    refine Cursor.Reads.look (fun _ _ _ hs hb => slice_ok hs hb) ?_
    exact (reads_advance bs).return

end Steps

variable {data : ByteString}

/-- One record, as `appendRecord` writes it. -/
def wire (firstTimestamp : Int64) (i : Nat) (msg : Message) : ByteString :=
  Storage.varint (Int64.ofNat (recordBody firstTimestamp i msg).length) ++
    recordBody firstTimestamp i msg

theorem records_eq_writeAll (firstTimestamp : Int64) (i : Nat) (msgs : List Message) :
    records firstTimestamp i msgs = writeAll (wire firstTimestamp) i msgs := by
  induction msgs generalizing i with
  | nil => rfl
  | cons msg msgs ih => rw [records, writeAll, ih, wire]

theorem length_recordBody_pos (firstTimestamp : Int64) (i : Nat) (msg : Message) :
    0 < (recordBody firstTimestamp i msg).length := by
  rw [length_recordBody, recordBodySize]
  omega

theorem reads_decodeRecord (firstTimestamp : Int64) (i : Nat) (msg : Message) :
    (cursor data).Reads (decodeRecord data data.length firstTimestamp i)
      (wire firstTimestamp i msg) msg := by
  have hpos := length_recordBody_pos firstTimestamp i msg
  have hstart : 0 < (wire firstTimestamp i msg).length := by
    rw [wire, List.length_append]
    omega
  simp only [decodeRecord, recordFields, bind_assoc, pure_bind]
  refine Cursor.Reads.look (fun _ _ _ hs _ => notAtEnd_ok hstart hs) ?_
  refine (reads_varint _).bind (Cursor.Reads.bounded fun hlt => ?_)
  rw [Int64.toInt_ofNat_of_lt hlt]
  refine Cursor.Reads.look (fun _ _ _ hs hb => fits_ok (le_refl _) hs hb) ?_
  refine Cursor.Reads.look (fun _ _ _ hs _ => notAtEnd_ok hpos hs) ?_
  have hbody : recordBody firstTimestamp i msg = [0] ++
      (Storage.varint (msg.timestamp - firstTimestamp) ++ (Storage.varint (Int64.ofNat i) ++
        (Storage.nullable msg.key ++ (Storage.nullable msg.value ++
          (Storage.varint 0 ++ []))))) := by
    simp only [recordBody, List.append_assoc, List.append_nil]
  rw [hbody]
  refine (reads_advance_one 0).bind ((reads_varint _).bind ((reads_varint _).bind ?_))
  refine (reads_nullable msg.key).bind ((reads_nullable msg.value).bind ((reads_varint 0).bind ?_))
  have hts : firstTimestamp + (msg.timestamp - firstTimestamp) = msg.timestamp := by
    rw [Int64.add_comm, Int64.sub_add_cancel]
  rw [hts]
  exact Cursor.reads_pure msg

end Scan

/-- `decodeBatch` gives an encoded batch back. -/
theorem decodeBatch_encodeBatch (crc : Checksum) (batch : Batch) (leaderEpoch : Int32)
    (hoffset : batch.firstOffset < 2 ^ 64) (hdelta : batch.lastOffsetDelta < 2 ^ 32)
    (hsize : (encodeBatch crc batch leaderEpoch).length < 2 ^ 31) :
    decodeBatch crc (encodeBatch crc batch leaderEpoch) = .ok batch := by
  have hlen := length_encodeBatch crc batch leaderEpoch
  have hstored := stored_encodeBatch crc batch leaderEpoch (by omega)
  have hcount : batch.messages.length < 2 ^ 32 := by
    have h := length_le_recordsSize batch.firstTimestamp 0 batch.messages
    have hs : encodedBatchSize batch = 61 + recordsSize batch.firstTimestamp 0 batch.messages := rfl
    omega
  have hattr : field (encodeBatch crc batch leaderEpoch) 21 2 = batch.attributes.toNat :=
    (field_encodeBatch crc batch leaderEpoch (k := 5) rfl (by decide)).trans
      (Nat.mod_eq_of_lt batch.attributes.toNat_lt)
  have hfirst : field (encodeBatch crc batch leaderEpoch) 27 8 =
      batch.firstTimestamp.toUInt64.toNat :=
    (field_encodeBatch crc batch leaderEpoch (k := 7) rfl (by decide)).trans
      (Nat.mod_eq_of_lt batch.firstTimestamp.toUInt64.toNat_lt)
  have hmax : field (encodeBatch crc batch leaderEpoch) 35 8 =
      batch.maxTimestamp.toUInt64.toNat :=
    (field_encodeBatch crc batch leaderEpoch (k := 8) rfl (by decide)).trans
      (Nat.mod_eq_of_lt batch.maxTimestamp.toUInt64.toNat_lt)
  have hreads := Cursor.Reads.rounds (c := Scan.cursor (encodeBatch crc batch leaderEpoch))
    (fun i msg (_ : msg ∈ batch.messages) => Scan.reads_decodeRecord batch.firstTimestamp i msg) 0
  have hdrop := drop_overhead_encodeBatch crc batch leaderEpoch
  rw [Scan.records_eq_writeAll, recordBatchOverhead] at hdrop
  have hrecords := congrArg List.length hdrop
  rw [List.length_drop] at hrecords
  obtain ⟨hdecl, hmin, hmagic, hcrc⟩ := hstored
  rw [recordBatchOverhead] at hmin
  obtain ⟨pos, hrun, -⟩ := hreads 61 61 []
    ⟨rfl, by rw [List.append_nil]; omega, by rw [hdrop, List.append_nil]⟩
    (show _ < 2 ^ 63 by omega)
  unfold decodeBatch
  simp only [hdecl, hmagic, hattr, hfirst, hmax,
    recordCount_encodeBatch crc batch leaderEpoch hcount,
    baseOffset_encodeBatch crc batch leaderEpoch hoffset,
    lastOffsetDelta_encodeBatch crc batch leaderEpoch hdelta, ofNat_toUInt64, UInt16.ofNat_toNat]
  rw [if_neg (by rw [recordBatchOverhead]; omega), if_neg (lt_irrefl _), if_neg (by decide),
    if_neg (by omega), List.take_length, if_neg (by rw [hcrc]; exact not_not.mpr rfl), hrun]
  rfl

end MessageBroker.Storage
