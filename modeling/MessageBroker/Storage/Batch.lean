import MessageBroker.Lib.Bytes

/-!
# Record batches on the wire and on disk

The 61-byte header, the checks a batch has to pass before it is stored, the
scan of a request into batches, and the encoder of the internal append path. The
checksum is a parameter of everything that checks it; `crc32c` is the one the
source uses.
-/
namespace MessageBroker.Storage

open Lib.Bytes

/-- `recordBatchOverhead`: the header before the records. -/
def recordBatchOverhead : Nat := 61

/-- A checksum of a byte string. -/
abbrev Checksum := ByteString → UInt32

/-- One input bit of the reflected Castagnoli polynomial. -/
def crc32cShift (c : UInt32) : UInt32 :=
  if c &&& 1 = 1 then (c >>> 1) ^^^ 0x82F63B78 else c >>> 1

def crc32cByte (c : UInt32) (b : UInt8) : UInt32 :=
  Nat.iterate crc32cShift 8 (c ^^^ b.toUInt32)

/-- `crc32.Checksum(_, crc32cTable)`. -/
def crc32c : Checksum := fun bs => ~~~ bs.foldl crc32cByte 0xFFFFFFFF

/-! ## Header fields -/

def baseOffset (bs : ByteString) : Nat := field bs 0 8
def batchLength (bs : ByteString) : Nat := field bs 8 4
def partitionLeaderEpoch (bs : ByteString) : Int32 := Int32.ofNat (field bs 12 4)
def magic (bs : ByteString) : Nat := field bs 16 1
def storedCRC (bs : ByteString) : Nat := field bs 17 4
def lastOffsetDelta (bs : ByteString) : Nat := field bs 23 4
def recordCount (bs : ByteString) : Nat := field bs 57 4

/-- The size a header declares; `batchLength` covers the bytes from 12 on. -/
def declaredSize (bs : ByteString) : Nat := 12 + batchLength bs

/-- The first offset after the batch. -/
def endOffset (bs : ByteString) : Nat := baseOffset bs + lastOffsetDelta bs + 1

/-! ## Validation -/

/-- The reasons to refuse raw batches. All but `unsupportedMagic` are
`ErrCorruptBatch`. -/
inductive BatchError
  | tooShort (have_ : Nat)
  | negativeLength (batchLength : Int)
  | belowMinimum (batchLength : Int)
  | truncated (need have_ : Nat)
  | unsupportedMagic (magic : Nat)
  | crcMismatch
  | negativeLastOffsetDelta (delta : Int)
  | recordCountNotPositive (count : Int)
  | inconsistentCount (delta count : Int)
  | negativeBaseOffset (raw : Nat)
  deriving DecidableEq

/-- `validateRawBatch`: the size and last offset delta of the first batch. -/
def validateRawBatch (crc : Checksum) (data : ByteString) : Except BatchError (Nat × Nat) :=
  if data.length < recordBatchOverhead then .error (.tooShort data.length)
  else if int32 (batchLength data) < 0 then .error (.negativeLength (int32 (batchLength data)))
  else
    let totalSize := declaredSize data
    if totalSize < recordBatchOverhead then .error (.belowMinimum (int32 (batchLength data)))
    else if data.length < totalSize then .error (.truncated totalSize data.length)
    else if magic data ≠ 2 then .error (.unsupportedMagic (magic data))
    else if (crc ((data.take totalSize).drop 21)).toNat ≠ storedCRC data then .error .crcMismatch
    else if int32 (lastOffsetDelta data) < 0 then
      .error (.negativeLastOffsetDelta (int32 (lastOffsetDelta data)))
    else if int32 (recordCount data) ≤ 0 then
      .error (.recordCountNotPositive (int32 (recordCount data)))
    else if int32 (lastOffsetDelta data) ≠ int32 (recordCount data) - 1 then
      .error (.inconsistentCount (int32 (lastOffsetDelta data)) (int32 (recordCount data)))
    else .ok (totalSize, lastOffsetDelta data)

structure BatchBounds where
  offset : Nat
  size : Nat
  lastOffsetDelta : Nat
  baseOffset : Nat
  leaderEpoch : Int32
  deriving DecidableEq

/-- The loop of `scanRawBatches` at position `pos`, over the bytes from there on. -/
def scanLoop (crc : Checksum) : Nat → Nat → ByteString → Except BatchError (List BatchBounds)
  | 0, _, _ => .ok []
  | fuel + 1, pos, rest =>
      if rest = [] then .ok []
      else match validateRawBatch crc rest with
        | .error e => .error e
        | .ok (size, lod) =>
          if 2 ^ 63 ≤ baseOffset rest then .error (.negativeBaseOffset (baseOffset rest))
          else match scanLoop crc fuel (pos + size) (rest.drop size) with
            | .error e => .error e
            | .ok bounds =>
              .ok (⟨pos, size, lod, baseOffset rest, partitionLeaderEpoch rest⟩ :: bounds)

def scanRawBatches (crc : Checksum) (data : ByteString) : Except BatchError (List BatchBounds) :=
  scanLoop crc data.length 0 data

/-! ## The internal batch and its encoding -/

/-- `protocol.Message`; an absent key or value is a nil slice. -/
structure Message where
  key : Option ByteString
  value : Option ByteString
  timestamp : Int64
  deriving DecidableEq

/-- `protocol.Batch`. -/
structure Batch where
  firstOffset : Nat
  attributes : UInt16
  firstTimestamp : Int64
  maxTimestamp : Int64
  lastOffsetDelta : Nat
  messages : List Message
  deriving DecidableEq

/-- `uint64((v << 1) ^ (v >> 63))`. -/
def zigzag (v : Int64) : Nat := ((v <<< 1) ^^^ (v >>> 63)).toUInt64.toNat

/-- The counting loop of `varintSize`; ten rounds empty a 64-bit word. -/
def uvarintSize : Nat → Nat → Nat
  | 0, _ => 1
  | fuel + 1, u => if 0x80 ≤ u then uvarintSize fuel (u >>> 7) + 1 else 1

def varintSize (v : Int64) : Nat := uvarintSize 10 (zigzag v)

/-- `binary.AppendUvarint`, on the same rounds. -/
def uvarint : Nat → Nat → ByteString
  | 0, u => [UInt8.ofNat u]
  | fuel + 1, u => if 0x80 ≤ u then UInt8.ofNat (u ||| 0x80) :: uvarint fuel (u >>> 7)
      else [UInt8.ofNat u]

/-- `binary.AppendVarint` onto an empty slice. -/
def varint (v : Int64) : ByteString := uvarint 10 (zigzag v)

/-- The bytes a nullable field takes in a record. -/
def nullableSize : Option ByteString → Nat
  | none => varintSize (-1)
  | some bs => varintSize (Int64.ofNat bs.length) + bs.length

/-- The record body size computed in `encodedBatchSize`. -/
def recordBodySize (firstTimestamp : Int64) (i : Nat) (msg : Message) : Nat :=
  1 + varintSize (msg.timestamp - firstTimestamp) + varintSize (Int64.ofNat i) +
    nullableSize msg.key + nullableSize msg.value + 1

/-- The loop of `encodedBatchSize` from message `i` on. -/
def recordsSize (firstTimestamp : Int64) : Nat → List Message → Nat
  | _, [] => 0
  | i, msg :: msgs =>
      let bodySize := recordBodySize firstTimestamp i msg
      varintSize (Int64.ofNat bodySize) + bodySize + recordsSize firstTimestamp (i + 1) msgs

def encodedBatchSize (batch : Batch) : Nat :=
  recordBatchOverhead + recordsSize batch.firstTimestamp 0 batch.messages

def nullable : Option ByteString → ByteString
  | none => varint (-1)
  | some bs => varint (Int64.ofNat bs.length) ++ bs

/-- The body `appendRecord` builds. -/
def recordBody (firstTimestamp : Int64) (i : Nat) (msg : Message) : ByteString :=
  [0] ++ varint (msg.timestamp - firstTimestamp) ++ varint (Int64.ofNat i) ++
    nullable msg.key ++ nullable msg.value ++ varint 0

/-- `appendRecord` over the messages from `i` on. -/
def records (firstTimestamp : Int64) : Nat → List Message → ByteString
  | _, [] => []
  | i, msg :: msgs =>
      let body := recordBody firstTimestamp i msg
      varint (Int64.ofNat body.length) ++ body ++ records firstTimestamp (i + 1) msgs

/-- The bytes `[21:]` of an encoded batch, over which the checksum runs. -/
def crcBody (batch : Batch) : ByteString :=
  beBytes 2 batch.attributes.toNat ++ beBytes 4 batch.lastOffsetDelta ++
    beBytes 8 batch.firstTimestamp.toUInt64.toNat ++ beBytes 8 batch.maxTimestamp.toUInt64.toNat ++
    beBytes 8 0xFFFFFFFFFFFFFFFF ++ beBytes 2 0xFFFF ++ beBytes 4 0xFFFFFFFF ++
    beBytes 4 batch.messages.length ++ records batch.firstTimestamp 0 batch.messages

def encodeBatch (crc : Checksum) (batch : Batch) (leaderEpoch : Int32) : ByteString :=
  let body := crcBody batch
  beBytes 8 batch.firstOffset ++ beBytes 4 (4 + 1 + 4 + body.length) ++
    beBytes 4 leaderEpoch.toUInt32.toNat ++ [2] ++ beBytes 4 (crc body).toNat ++ body

end MessageBroker.Storage
