import MessageBroker.Protocol.Wire

/-!
# Record batches of the protocol

The protocol package has its own encoder and decoder of record batches beside the
log's. The encoders write the same bytes and each decoder reads them back.
-/
namespace MessageBroker.Protocol

open Lib.Bytes Lib.Cursors
open Storage (Batch Message Checksum crc32c)

/-! ## The encoder -/

def putNullable : Option ByteString → ByteString
  | none => putVarint (-1)
  | some bs => putVarint (Int64.ofNat bs.length) ++ bs

def encodeRecord (msg : Message) (index : Nat) (baseTimestamp : Int64) : ByteString :=
  let body := putInt8 0 ++ putVarint (msg.timestamp - baseTimestamp) ++
    putVarint (Int64.ofNat index) ++ putNullable msg.key ++ putNullable msg.value ++ putVarint 0
  putVarint (Int64.ofNat body.length) ++ body

/-- The part of a batch that the checksum covers. -/
def encodeBody (batch : Batch) : ByteString :=
  putInt16 batch.attributes.toInt16 ++ putInt32 (Int32.ofNat batch.lastOffsetDelta) ++
    putInt64 batch.firstTimestamp ++ putInt64 batch.maxTimestamp ++ putInt64 (-1) ++
    putInt16 (-1) ++ putInt32 (-1) ++ putInt32 (Int32.ofNat batch.messages.length) ++
    writeAll (fun i msg => encodeRecord msg i batch.firstTimestamp) 0 batch.messages

def encodeRecordBatch (crc : Checksum) (batch : Batch) (leaderEpoch : Int32) : ByteString :=
  let bodyData := encodeBody batch
  let batchLength := 4 + 1 + 4 + bodyData.length
  putInt64 (Int64.ofNat batch.firstOffset) ++ putInt32 (Int32.ofNat batchLength) ++
    putInt32 leaderEpoch ++ putInt8 2 ++ putUint32 (crc bodyData) ++ bodyData

/-! ## The decoder -/

inductive RecordBatchError
  | tooShort (have_ : Nat)
  | truncated (need : Int) (have_ : Nat)
  | unsupportedMagic (magic : Int8)
  | crcMismatch
  | decode (e : DecodeError)
  | record (i : Nat) (e : DecodeError)
  deriving DecidableEq

namespace Decoder

/-- A length and, unless it is negative, so many bytes. -/
def nullableField : Decode (Option ByteString) := do
  let n ← varint
  if n < 0 then return none
  rawBytes n.toInt

/-- The loop over record headers, whose keys and values are dropped. -/
def skipHeaders : Nat → Decode Unit
  | 0 => pure ()
  | n + 1 => do
      let _key ← nullableField
      let _value ← nullableField
      skipHeaders n

/-- The body of the record loop up to the headers: the time, the key, the value and
the number of headers. -/
def recordFields : Decode (Int64 × Option ByteString × Option ByteString × Int64) := do
  let _length ← varint
  let _attributes ← int8
  let tsDelta ← varint
  let _offsetDelta ← varint
  let key ← nullableField
  let val ← nullableField
  let headerCount ← varint
  return (tsDelta, key, val, headerCount)

def decodeRecord (baseTimestamp : Int64) : Decode Message := do
  let (tsDelta, key, val, headerCount) ← recordFields
  skipHeaders headerCount.toInt.toNat
  return ⟨key, val, baseTimestamp + tsDelta⟩

/-- The record loop from record `i` on. -/
def decodeRecords (baseTimestamp : Int64) :
    Nat → Nat → Decode (Except RecordBatchError (List Message))
  | _, 0 => return .ok []
  | i, n + 1 => do
      let msg ← decodeRecord baseTimestamp
      match ← error with
      | some e => return .error (.record i e)
      | none =>
        match ← decodeRecords baseTimestamp (i + 1) n with
        | .error e => return .error e
        | .ok msgs => return .ok (msg :: msgs)

/-- `decodeOneRecordBatch` from the end of the header to the records: what it keeps of
the attributes, the offsets and the times, and the number of records. -/
def bodyFields : Decode (Int16 × Int32 × Int64 × Int64 × Int32) := do
  let attributes ← int16
  let lastOffsetDelta ← int32
  let baseTimestamp ← int64
  let maxTimestamp ← int64
  let _producerId ← int64
  let _producerEpoch ← int16
  let _baseSequence ← int32
  let recordCount ← int32
  return (attributes, lastOffsetDelta, baseTimestamp, maxTimestamp, recordCount)

/-- `decodeOneRecordBatch` from the end of the header on. -/
def decodeBody (baseOffset : Int64) : Decode (Except RecordBatchError Batch) := do
  let (attributes, lastOffsetDelta, baseTimestamp, maxTimestamp, recordCount) ← bodyFields
  match ← error with
  | some e => return .error (.decode e)
  | none =>
    -- `make([]Message, recordCount)`
    if recordCount < 0 then throw .makeNegativeLength
    match ← decodeRecords baseTimestamp 0 recordCount.toInt.toNat with
    | .error e => return .error e
    | .ok messages => return .ok {
        firstOffset := baseOffset.toUInt64.toNat
        attributes := attributes.toUInt16
        firstTimestamp := baseTimestamp
        maxTimestamp := maxTimestamp
        lastOffsetDelta := lastOffsetDelta.toUInt32.toNat
        messages := messages }

/-- `decodeOneRecordBatch` after its first check: the batch and its size. -/
def decodeBatchAt (crc : Checksum) (data : ByteString) :
    Decode (Except RecordBatchError (Batch × Int)) := do
  let baseOffset ← int64
  let batchLength ← int32
  let totalSize := 12 + batchLength.toInt
  if data.length < totalSize then return .error (.truncated totalSize data.length)
  let _partitionLeaderEpoch ← int32
  let magic ← int8
  if magic ≠ 2 then return .error (.unsupportedMagic magic)
  let storedCRC ← uint32
  -- `data[21:totalSize]`
  if totalSize < 21 then throw .sliceOutOfRange
  let bodyBytes := (data.take totalSize.toNat).drop 21
  if crc bodyBytes ≠ storedCRC then return .error .crcMismatch
  let (result, _) ← decodeBody baseOffset (newDecoder bodyBytes)
  return result.map fun batch => (batch, totalSize)

end Decoder

def decodeOneRecordBatch (crc : Checksum) (data : ByteString) :
    Except Panic (Except RecordBatchError (Batch × Int)) :=
  if data.length < 12 then .ok (.error (.tooShort data.length))
  else (Decoder.decodeBatchAt crc data).run' (Decoder.newDecoder data)

/-- The loop of `DecodeRecordBatch` from `pos` on: the batches, and the error of the
first one that does not decode with its position. A batch takes at least 21 bytes. -/
def decodeLoop (crc : Checksum) :
    Nat → Nat → ByteString → Except Panic (List Batch × Option (Nat × RecordBatchError))
  | 0, _, _ => .ok ([], none)
  | fuel + 1, pos, rest =>
      if rest = [] then .ok ([], none)
      else do
        match ← decodeOneRecordBatch crc rest with
        | .error e => return ([], some (pos, e))
        | .ok (batch, consumed) =>
          let (batches, err) ← decodeLoop crc fuel (pos + consumed.toNat) (rest.drop consumed.toNat)
          return (batch :: batches, err)

def decodeRecordBatch (crc : Checksum) (data : ByteString) :
    Except Panic (List Batch × Option (Nat × RecordBatchError)) :=
  decodeLoop crc data.length 0 data

/-! ## The encoders agree -/

theorem encodeRecord_eq (msg : Message) (index : Nat) (baseTimestamp : Int64) :
    encodeRecord msg index baseTimestamp = Storage.Scan.wire baseTimestamp index msg := by
  have hnull : putNullable = Storage.nullable := by
    funext o
    cases o with
    | none => rfl
    | some bs => rfl
  rw [encodeRecord, hnull]
  rfl

theorem putInt32_ofNat (n : Nat) : putInt32 (Int32.ofNat n) = beBytes 4 n := by
  have h : (Int32.ofNat n).toUInt32.toNat = n % 256 ^ 4 := by simp
  rw [putInt32, h, beBytes_mod]

theorem putInt64_ofNat (n : Nat) : putInt64 (Int64.ofNat n) = beBytes 8 n := by
  have h : (Int64.ofNat n).toUInt64.toNat = n % 256 ^ 8 := by simp
  rw [putInt64, h, beBytes_mod]

theorem writeAll_encodeRecord (baseTimestamp : Int64) (i : Nat) (msgs : List Message) :
    writeAll (fun i msg => encodeRecord msg i baseTimestamp) i msgs =
      Storage.records baseTimestamp i msgs := by
  have hwrite : (fun i msg => encodeRecord msg i baseTimestamp) =
      Storage.Scan.wire baseTimestamp := by
    funext i msg
    exact encodeRecord_eq msg i baseTimestamp
  rw [Storage.Scan.records_eq_writeAll, hwrite]

theorem encodeBody_eq (batch : Batch) : encodeBody batch = Storage.crcBody batch := by
  rw [encodeBody, writeAll_encodeRecord, putInt32_ofNat, putInt32_ofNat]
  rfl

theorem encodeRecordBatch_eq (crc : Checksum) (batch : Batch) (leaderEpoch : Int32) :
    encodeRecordBatch crc batch leaderEpoch = Storage.encodeBatch crc batch leaderEpoch := by
  have hmagic : putInt8 2 = [2] := by decide
  rw [encodeRecordBatch, encodeBody_eq, putInt64_ofNat, putInt32_ofNat, hmagic]
  rfl

/-! ## Reading a batch back -/

namespace Decoder

theorem reads_nullableField (o : Option ByteString) :
    cursor.Reads nullableField (putNullable o) o := by
  cases o with
  | none =>
    exact ((reads_varint (-1)).bind (Cursor.reads_pure none)).of_eq (List.append_nil _).symm
  | some bs =>
    refine (reads_varint (Int64.ofNat bs.length)).bind (Cursor.Reads.bounded fun hlt => ?_)
    have hint := Int64.toInt_ofNat_of_lt hlt
    have hneg : ¬ Int64.ofNat bs.length < 0 := by
      rw [Int64.lt_iff_toInt_lt, hint]
      exact Int.not_lt.mpr (Int.natCast_nonneg _)
    rw [if_neg hneg, hint]
    exact reads_rawBytes bs

theorem reads_decodeRecord (baseTimestamp : Int64) (i : Nat) (msg : Message) :
    cursor.Reads (decodeRecord baseTimestamp) (encodeRecord msg i baseTimestamp) msg := by
  simp only [decodeRecord, recordFields, bind_assoc, pure_bind]
  refine (reads_varint _).bind ?_
  rw [List.append_assoc, List.append_assoc, List.append_assoc, List.append_assoc]
  refine (reads_int8 0).bind ((reads_varint _).bind ((reads_varint _).bind ?_))
  refine (reads_nullableField msg.key).bind ?_
  have hts : baseTimestamp + (msg.timestamp - baseTimestamp) = msg.timestamp := by
    rw [Int64.add_comm, Int64.sub_add_cancel]
  rw [hts]
  refine (reads_nullableField msg.value).bind ?_
  -- no headers follow
  exact ((reads_varint 0).bind (Cursor.reads_pure msg)).of_eq (List.append_nil _).symm

theorem reads_decodeRecords (baseTimestamp : Int64) (i : Nat) (msgs : List Message) :
    cursor.Reads (decodeRecords baseTimestamp i msgs.length)
      (writeAll (fun i msg => encodeRecord msg i baseTimestamp) i msgs) (.ok msgs) := by
  induction msgs generalizing i with
  | nil => exact Cursor.reads_pure (Except.ok [])
  | cons msg msgs ih =>
    refine (reads_decodeRecord baseTimestamp i msg).bind ?_
    refine Cursor.Reads.look (fun _ _ _ hs _ => error_ok hs) ?_
    refine ((ih (i + 1)).bind ?_).of_eq (List.append_nil _).symm
    exact Cursor.reads_pure (Except.ok (msg :: msgs))

theorem reads_decodeBody (batch : Batch) (hoffset : batch.firstOffset < 2 ^ 64)
    (hdelta : batch.lastOffsetDelta < 2 ^ 32) (hcount : batch.messages.length < 2 ^ 31) :
    cursor.Reads (decodeBody (Int64.ofNat batch.firstOffset)) (encodeBody batch) (.ok batch) := by
  have hint := Int32.toInt_ofNat_of_lt hcount
  have hneg : ¬ Int32.ofNat batch.messages.length < 0 := by
    rw [Int32.lt_iff_toInt_lt, hint]
    exact Int.not_lt.mpr (Int.natCast_nonneg _)
  have hbody : encodeBody batch = putInt16 batch.attributes.toInt16 ++
      (putInt32 (Int32.ofNat batch.lastOffsetDelta) ++ (putInt64 batch.firstTimestamp ++
        (putInt64 batch.maxTimestamp ++ (putInt64 (-1) ++ (putInt16 (-1) ++ (putInt32 (-1) ++
          (putInt32 (Int32.ofNat batch.messages.length) ++
            writeAll (fun i msg => encodeRecord msg i batch.firstTimestamp) 0
              batch.messages))))))) := by
    simp only [encodeBody, List.append_assoc]
  rw [hbody]
  simp only [decodeBody, bodyFields, bind_assoc, pure_bind]
  refine (reads_int16 _).bind ((reads_int32 _).bind ((reads_int64 _).bind ?_))
  refine (reads_int64 _).bind ((reads_int64 _).bind ((reads_int16 _).bind ?_))
  refine (reads_int32 _).bind ((reads_int32 _).bind ?_)
  refine Cursor.Reads.look (fun _ _ _ hs _ => error_ok hs) ?_
  simp only [if_neg hneg, hint, Int.toNat_natCast]
  have hrecords := reads_decodeRecords batch.firstTimestamp 0 batch.messages
  refine (hrecords.bind ?_).of_eq (List.append_nil _).symm
  have hfirst : (Int64.ofNat batch.firstOffset).toUInt64.toNat = batch.firstOffset := by
    rw [← Nat.mod_eq_of_lt hoffset]
    simp
  have hlast : (Int32.ofNat batch.lastOffsetDelta).toUInt32.toNat = batch.lastOffsetDelta := by
    rw [← Nat.mod_eq_of_lt hdelta]
    simp
  simp only [hfirst, hlast, UInt16.toUInt16_toInt16]
  exact Cursor.reads_pure (Except.ok batch)

/-- The part of a batch before the checksum starts. -/
def putHeader (crc : Checksum) (batch : Batch) (leaderEpoch : Int32) : ByteString :=
  putInt64 (Int64.ofNat batch.firstOffset) ++
    (putInt32 (Int32.ofNat (4 + 1 + 4 + (encodeBody batch).length)) ++
      (putInt32 leaderEpoch ++ (putInt8 2 ++ putUint32 (crc (encodeBody batch)))))

theorem encodeRecordBatch_split (crc : Checksum) (batch : Batch) (leaderEpoch : Int32) :
    encodeRecordBatch crc batch leaderEpoch =
      putHeader crc batch leaderEpoch ++ encodeBody batch := by
  simp only [encodeRecordBatch, putHeader, List.append_assoc]

theorem length_putHeader (crc : Checksum) (batch : Batch) (leaderEpoch : Int32) :
    (putHeader crc batch leaderEpoch).length = 21 := by
  simp only [putHeader, putInt64, putInt32, putInt8, putUint32, List.length_append, length_beBytes]

/-- A batch is read off its header and its body, whatever follows it. -/
theorem reads_decodeBatchAt (crc : Checksum) (batch : Batch) (leaderEpoch : Int32)
    (rest : ByteString) (hoffset : batch.firstOffset < 2 ^ 64)
    (hdelta : batch.lastOffsetDelta < 2 ^ 32) (hsize : 21 + (encodeBody batch).length < 2 ^ 31)
    (hcount : batch.messages.length < 2 ^ 31) :
    cursor.Reads (decodeBatchAt crc (putHeader crc batch leaderEpoch ++ encodeBody batch ++ rest))
      (putHeader crc batch leaderEpoch)
      (.ok (batch, ((21 + (encodeBody batch).length : Nat) : Int))) := by
  have hlen := length_putHeader crc batch leaderEpoch
  have hint := Int32.toInt_ofNat_of_lt
    (show 4 + 1 + 4 + (encodeBody batch).length < 2 ^ 31 by omega)
  have htotal : 12 + (Int32.ofNat (4 + 1 + 4 + (encodeBody batch).length)).toInt =
      ((21 + (encodeBody batch).length : Nat) : Int) := by
    rw [hint]
    omega
  have hdata : ¬ (((putHeader crc batch leaderEpoch ++ encodeBody batch ++ rest).length : Int) <
      ((21 + (encodeBody batch).length : Nat) : Int)) := by
    rw [List.length_append, List.length_append, hlen]
    omega
  have hbody : ((putHeader crc batch leaderEpoch ++ encodeBody batch ++ rest).take
      (21 + (encodeBody batch).length)).drop 21 = encodeBody batch := by
    rw [List.take_left' (by rw [List.length_append, hlen]), List.drop_left' hlen]
  obtain ⟨d, hrun, -⟩ := reads_decodeBody batch hoffset hdelta hcount
    (newDecoder (encodeBody batch)) 0 [] (by rw [List.append_nil]; exact stands_newDecoder _)
    (show _ < 2 ^ 63 by omega)
  refine (reads_int64 _).bind ((reads_int32 _).bind ?_)
  simp only [htotal]
  rw [if_neg hdata]
  refine (reads_int32 _).bind ((reads_int8 _).bind ?_)
  rw [if_neg (by decide)]
  refine ((reads_uint32 _).bind ?_).of_eq (List.append_nil _).symm
  have h21 : ¬ ((21 + (encodeBody batch).length : Nat) : Int) < 21 := by omega
  simp only [if_neg h21, Int.toNat_natCast, hbody, hrun, ne_eq, not_true_eq_false, if_false]
  exact Cursor.reads_pure (Except.ok (batch, _))

end Decoder

/-- A message takes at least two bytes of the body. -/
theorem length_messages_le (batch : Batch) :
    batch.messages.length ≤ (encodeBody batch).length := by
  have h := Storage.length_le_recordsSize batch.firstTimestamp 0 batch.messages
  rw [encodeBody_eq, Storage.length_crcBody]
  omega

theorem decodeOneRecordBatch_encode (crc : Checksum) (batch : Batch) (leaderEpoch : Int32)
    (rest : ByteString) (hoffset : batch.firstOffset < 2 ^ 64)
    (hdelta : batch.lastOffsetDelta < 2 ^ 32)
    (hsize : (encodeRecordBatch crc batch leaderEpoch).length < 2 ^ 31) :
    decodeOneRecordBatch crc (encodeRecordBatch crc batch leaderEpoch ++ rest) =
      .ok (.ok (batch, ((encodeRecordBatch crc batch leaderEpoch).length : Int))) := by
  have hmessages := length_messages_le batch
  have hhead := Decoder.length_putHeader crc batch leaderEpoch
  have hlen : (encodeRecordBatch crc batch leaderEpoch).length =
      21 + (encodeBody batch).length := by
    rw [Decoder.encodeRecordBatch_split, List.length_append, hhead]
  rw [hlen] at hsize ⊢
  rw [Decoder.encodeRecordBatch_split]
  obtain ⟨d, hrun, -⟩ := Decoder.reads_decodeBatchAt crc batch leaderEpoch rest hoffset hdelta hsize
    (by omega) (Decoder.newDecoder _) 0 (encodeBody batch ++ rest)
    (by rw [← List.append_assoc]; exact Decoder.stands_newDecoder _) (by rw [hhead]; decide)
  have h12 : ¬ (Decoder.putHeader crc batch leaderEpoch ++ encodeBody batch ++ rest).length <
      12 := by
    rw [List.length_append, List.length_append, hhead]
    omega
  rw [decodeOneRecordBatch, if_neg h12, StateT.run']
  show Prod.fst <$> Decoder.decodeBatchAt crc _ _ = _
  rw [hrun]
  rfl

/-- The loop reads as many batches as were written, one a round. -/
theorem decodeLoop_encode (crc : Checksum) (entries : List (Batch × Int32))
    (h : ∀ x ∈ entries, x.1.firstOffset < 2 ^ 64 ∧ x.1.lastOffsetDelta < 2 ^ 32 ∧
      (encodeRecordBatch crc x.1 x.2).length < 2 ^ 31) {fuel : Nat} (pos : Nat)
    (hf : entries.length ≤ fuel) :
    decodeLoop crc fuel pos (entries.flatMap fun x => encodeRecordBatch crc x.1 x.2) =
      .ok (entries.map Prod.fst, none) := by
  induction entries generalizing fuel pos with
  | nil =>
    cases fuel with
    | zero => rfl
    | succ fuel => rfl
  | cons x entries ih =>
    obtain ⟨batch, leaderEpoch⟩ := x
    obtain ⟨fuel, rfl⟩ : ∃ k, fuel = k + 1 := ⟨fuel - 1, by rw [List.length_cons] at hf; omega⟩
    obtain ⟨hoffset, hdelta, hsize⟩ := h (batch, leaderEpoch) List.mem_cons_self
    have hne : encodeRecordBatch crc batch leaderEpoch ++
        entries.flatMap (fun x => encodeRecordBatch crc x.1 x.2) ≠ [] := by
      rw [Decoder.encodeRecordBatch_split]
      intro hnil
      have := congrArg List.length hnil
      rw [List.length_append, List.length_append, Decoder.length_putHeader] at this
      simp at this
    have hlen : entries.length ≤ fuel := by rw [List.length_cons] at hf; omega
    have hrest := ih (fun x hx => h x (List.mem_cons_of_mem _ hx))
      (pos + (encodeRecordBatch crc batch leaderEpoch).length) hlen
    rw [List.flatMap_cons, decodeLoop, if_neg hne,
      decodeOneRecordBatch_encode crc batch leaderEpoch _ hoffset hdelta hsize]
    simp only [bind, Except.bind, Int.toNat_natCast, List.drop_left, hrest]
    rfl

theorem length_le_flatMap (crc : Checksum) (entries : List (Batch × Int32)) :
    entries.length ≤ (entries.flatMap fun x => encodeRecordBatch crc x.1 x.2).length := by
  rw [List.length_flatMap]
  have h := List.length_le_sum_of_one_le
    (entries.map fun x => (encodeRecordBatch crc x.1 x.2).length) ?_
  · rwa [List.length_map] at h
  · intro n hn
    obtain ⟨x, -, rfl⟩ := List.mem_map.mp hn
    rw [Decoder.encodeRecordBatch_split, List.length_append, Decoder.length_putHeader]
    omega

/-- The two encoders write the same bytes; the log's decoder gives the batch back;
and the protocol's decoder gives back every list of batches written one after the
other. The offset and the delta are a `uint64` and a `uint32`. -/
theorem record_batch_codecs_agree (crc : Checksum) :
    (∀ (batch : Batch) (leaderEpoch : Int32), batch.firstOffset < 2 ^ 64 →
      batch.lastOffsetDelta < 2 ^ 32 → (Storage.encodeBatch crc batch leaderEpoch).length < 2 ^ 31 →
      encodeRecordBatch crc batch leaderEpoch = Storage.encodeBatch crc batch leaderEpoch ∧
      Storage.decodeBatch crc (Storage.encodeBatch crc batch leaderEpoch) = .ok batch) ∧
    ∀ entries : List (Batch × Int32),
      (∀ x ∈ entries, x.1.firstOffset < 2 ^ 64 ∧ x.1.lastOffsetDelta < 2 ^ 32 ∧
        (encodeRecordBatch crc x.1 x.2).length < 2 ^ 31) →
      decodeRecordBatch crc (entries.flatMap fun x => encodeRecordBatch crc x.1 x.2) =
        .ok (entries.map Prod.fst, none) := by
  constructor
  · intro batch leaderEpoch hoffset hdelta hsize
    exact ⟨encodeRecordBatch_eq crc batch leaderEpoch,
      Storage.decodeBatch_encodeBatch crc batch leaderEpoch hoffset hdelta hsize⟩
  · intro entries h
    exact decodeLoop_encode crc entries h 0 (length_le_flatMap crc entries)

/-- Null and empty fields, and a timestamp delta that wraps. -/
def sampleBatch : Batch :=
  ⟨7, 3, -9223372036854775808, 5, 2,
    [⟨none, some [], 9223372036854775807⟩, ⟨some [1], none, -1⟩, ⟨some [], some [2, 3], 0⟩]⟩

theorem record_batch_codecs_agree_sampleBatch :
    encodeRecordBatch crc32c sampleBatch 4 = Storage.encodeBatch crc32c sampleBatch 4 ∧
    Storage.decodeBatch crc32c (Storage.encodeBatch crc32c sampleBatch 4) = .ok sampleBatch ∧
    decodeRecordBatch crc32c (encodeRecordBatch crc32c sampleBatch 4 ++
        (encodeRecordBatch crc32c ⟨10, 0, 0, 0, 0, []⟩ (-1) ++ [])) =
      .ok ([sampleBatch, ⟨10, 0, 0, 0, 0, []⟩], none) := by
  obtain ⟨hone, hall⟩ := record_batch_codecs_agree crc32c
  obtain ⟨henc, hdec⟩ := hone sampleBatch 4 (by decide) (by decide) (by decide +kernel)
  refine ⟨henc, hdec, hall [(sampleBatch, 4), (⟨10, 0, 0, 0, 0, []⟩, -1)] ?_⟩
  decide +kernel

end MessageBroker.Protocol
