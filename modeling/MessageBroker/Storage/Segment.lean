import MessageBroker.Storage.Batch

/-!
# Segments

A segment is a file of batches with the counters the log keeps in memory: its
base offset, the next offset and the number of bytes written. Loops over the
file run on fuel bounded by the file's length. An operation returns what the
source returns together with the segment it leaves, also when it fails.
-/
namespace MessageBroker.Storage

open Lib.Bytes

structure Segment where
  file : ByteString
  baseOffset : Nat
  nextOffset : Nat
  currentSize : Nat
  maxSize : Int64
  deriving DecidableEq

def Segment.isFull (s : Segment) : Bool := decide (s.maxSize.toInt ≤ s.currentSize)

inductive SegmentError
  | segmentFull
  | emptyBatch
  | offsetOverflow
  | emptyBounds
  | write
  | truncate
  | noValidBatches
  | negativeAllocation
  | readMeta (pos : Nat)
  | readBatch (pos : Nat)
  | invalidSize (size pos : Nat)
  | pastEnd (pos size : Nat)
  | beyondSize (pos size : Nat)
  | noCompleteBatch (pos : Nat)
  | invalidBatchLength (batchLength : Int) (pos : Nat)
  | insideBatch (offset first last : Nat)
  | notABoundary (offset base : Nat)
  | beforeBase (offset base : Nat)
  deriving DecidableEq

/-! ## Opening a segment file -/

/-- One round of `recover`: the size and last offset delta of an intact batch, or
nothing if the file is to be truncated here. -/
def intactBatchAt (crc : Checksum) (file : ByteString) (pos : Nat) :
    Except SegmentError (Option (Nat × Nat)) :=
  match readAt file pos recordBatchOverhead with
  | none => .ok none
  | some header =>
    let totalSize := declaredSize header
    if file.length < pos + totalSize then .ok none
    else if magic header ≠ 2 then .ok none
    -- `make([]byte, totalSize-21)` with a negative length panics
    else if totalSize < 21 then .error .negativeAllocation
    else match readAt file (pos + 21) (totalSize - 21) with
      | none => .ok none
      | some body =>
        if (crc body).toNat ≠ storedCRC header then .ok none
        else .ok (some (totalSize, lastOffsetDelta header))

/-- The loop of `recover`: the position and the next offset at which it stops.
Every exit before the end of the file truncates it there. -/
def recoverLoop (crc : Checksum) (file : ByteString) :
    Nat → Nat → Nat → Except SegmentError (Nat × Nat)
  | 0, pos, next => .ok (pos, next)
  | fuel + 1, pos, next =>
      if pos < file.length then
        match intactBatchAt crc file pos with
        | .error e => .error e
        | .ok none => .ok (pos, next)
        | .ok (some (size, lod)) =>
          recoverLoop crc file fuel (pos + size) ((next + (lod + 1)) % 2 ^ 64)
      else .ok (pos, next)

/-- `NewSegment` on a file with these contents. -/
def newSegment (crc : Checksum) (file : ByteString) (base : Nat) (maxSize : Int64) :
    Except SegmentError Segment :=
  if file.length = 0 then .ok ⟨[], base, base, 0, maxSize⟩
  else match recoverLoop crc file file.length 0 base with
    | .error e => .error e
    | .ok (pos, next) =>
      if next = base ∧ 0 < pos then .error .noValidBatches
      else .ok ⟨file.take pos, base, next, pos, maxSize⟩

/-! ## Appending -/

/-- A `WriteAt` that fails after `k` bytes when the fault says `some k`. -/
def Segment.write (s : Segment) (buf : ByteString) (fault : Option Nat) :
    Except SegmentError Unit × Segment :=
  match fault with
  | none => (.ok (), { s with file := writeAt s.file s.currentSize buf })
  | some k => (.error .write, { s with file := writeAt s.file s.currentSize (buf.take k) })

/-- `Segment.AppendBatch`: the position and the offset given to the batch. -/
def Segment.appendBatch (crc : Checksum) (s : Segment) (batch : Batch) (fault : Option Nat) :
    Except SegmentError (Nat × Nat) × Segment :=
  if batch.messages = [] then (.error .emptyBatch, s)
  else if s.maxSize.toInt < s.currentSize + encodedBatchSize batch then (.error .segmentFull, s)
  else
    let batch := { batch with
      firstOffset := s.nextOffset
      lastOffsetDelta := (batch.messages.length - 1) % 2 ^ 32 }
    let buf := encodeBatch crc batch 0
    match s.write buf fault with
    | (.error e, s) => (.error e, s)
    | (.ok (), s) =>
      (.ok (s.currentSize, batch.firstOffset), { s with
        nextOffset := (s.nextOffset + batch.messages.length) % 2 ^ 64
        currentSize := s.currentSize + buf.length })

/-- The loop of `appendRawBatches`: with `assign`, each batch is stamped with its
offset and the epoch. `none` is the offset overflow. -/
def stampLoop (leaderEpoch : Int32) (assign : Bool) :
    List BatchBounds → ByteString → Nat → Option (ByteString × Nat)
  | [], buf, offset => some (buf, offset)
  | b :: bs, buf, offset =>
      let buf := if assign then
          patch (patch buf b.offset (beBytes 8 offset)) (b.offset + 12)
            (beBytes 4 leaderEpoch.toUInt32.toNat)
        else buf
      let delta := b.lastOffsetDelta + 1
      if 2 ^ 64 - 1 - delta < offset then none
      else stampLoop leaderEpoch assign bs buf (offset + delta)

/-- `Segment.appendRawBatches`: the first offset, the position and the number of
offsets taken. -/
def Segment.appendRawBatches (s : Segment) (data : ByteString) (bounds : List BatchBounds)
    (leaderEpoch : Int32) (assign : Bool) (fault : Option Nat) :
    Except SegmentError (Nat × Nat × Nat) × Segment :=
  if 0 < s.currentSize ∧ s.maxSize.toInt < s.currentSize + data.length then
    (.error .segmentFull, s)
  else match if assign then some s.nextOffset else bounds.head?.map (·.baseOffset) with
    -- without `assign` the source reads `bounds[0]`; its caller never passes an empty list
    | none => (.error .emptyBounds, s)
    | some assigned =>
      match stampLoop leaderEpoch assign bounds data assigned with
      | none => (.error .offsetOverflow, s)
      | some (buf, offset) =>
        let totalRecords := offset - assigned
        match s.write buf fault with
        | (.error e, s) => (.error e, s)
        | (.ok (), s) =>
          (.ok (assigned, s.currentSize, totalRecords), { s with
            nextOffset := (s.nextOffset + totalRecords) % 2 ^ 64
            currentSize := s.currentSize + data.length })

/-! ## Reading -/

/-- `ReadBatchMetaAt`: first offset, last offset delta and size on disk. -/
def Segment.readBatchMetaAt (s : Segment) (pos : Nat) : Except SegmentError (Nat × Nat × Nat) :=
  match readAt s.file pos 27 with
  | none => .error (.readMeta pos)
  | some buf => .ok (Storage.baseOffset buf, Storage.lastOffsetDelta buf, declaredSize buf)

/-- `readBatchOffsetAndEpochAt`: first offset, epoch and size on disk. -/
def Segment.readBatchOffsetAndEpochAt (s : Segment) (pos : Nat) :
    Except SegmentError (Nat × Int32 × Nat) :=
  match readAt s.file pos 16 with
  | none => .error (.readMeta pos)
  | some header =>
    if int32 (batchLength header) < recordBatchOverhead - 12 then
      .error (.invalidBatchLength (int32 (batchLength header)) pos)
    else .ok (Storage.baseOffset header, partitionLeaderEpoch header, declaredSize header)

/-- `RawRange`; a file is named by the base offset of its segment. -/
structure RawRange where
  file : Nat
  offset : Nat
  length : Nat
  deriving DecidableEq

structure ReadRawRangesResult where
  ranges : List RawRange
  bytes : Nat
  fetchedUpTo : Nat
  deriving DecidableEq

/-- The loop of `ReadRawRangesAt`, with the end position and the fetched offset
found so far. -/
def Segment.rangesLoop (s : Segment) :
    Nat → Nat → Int → Bool → Nat × Nat → Except SegmentError (Nat × Nat)
  | 0, _, _, _, acc => .ok acc
  | fuel + 1, pos, remaining, first, acc =>
      if pos < s.currentSize then
        match s.readBatchMetaAt pos with
        | .error e => .error e
        | .ok (firstOffset, lod, totalSize) =>
          if s.currentSize < pos + totalSize then .ok acc
          else if !first ∧ remaining < totalSize then .ok acc
          else
            let acc := (pos + totalSize, (firstOffset + lod + 1) % 2 ^ 64)
            let remaining := remaining - totalSize
            if remaining ≤ 0 then .ok acc
            else s.rangesLoop fuel (pos + totalSize) remaining false acc
      else .ok acc

def Segment.readRawRangesAt (s : Segment) (pos : Nat) (maxBytes : Int32) :
    Except SegmentError ReadRawRangesResult :=
  if s.currentSize ≤ pos then .error (.beyondSize pos s.currentSize)
  else match s.rangesLoop s.currentSize pos maxBytes.toInt true (0, 0) with
    | .error e => .error e
    | .ok (endPos, fetchedUpTo) =>
      if endPos = 0 then .error (.noCompleteBatch pos)
      else .ok ⟨[⟨s.baseOffset, pos, endPos - pos⟩], endPos - pos, fetchedUpTo⟩

/-- The loop of `ReadRawBatchAt`, with the bytes and the fetched offset so far. -/
def Segment.rawLoop (s : Segment) :
    Nat → Nat → Int → Bool → ByteString × Nat → Except SegmentError (ByteString × Nat)
  | 0, _, _, _, acc => .ok acc
  | fuel + 1, pos, remaining, first, acc =>
      if pos < s.currentSize then
        match s.readBatchMetaAt pos with
        | .error e => .error e
        | .ok (firstOffset, lod, totalSize) =>
          if s.currentSize < pos + totalSize then .ok acc
          else if !first ∧ remaining < totalSize then .ok acc
          else match readAt s.file pos totalSize with
            | none => .error (.readBatch pos)
            | some bytes =>
              let acc := (acc.1 ++ bytes, (firstOffset + lod + 1) % 2 ^ 64)
              let remaining := remaining - totalSize
              if remaining ≤ 0 then .ok acc
              else s.rawLoop fuel (pos + totalSize) remaining false acc
      else .ok acc

/-- `ReadRawBatchAt`: the bytes of whole batches and the offset after them. -/
def Segment.readRawBatchAt (s : Segment) (pos : Nat) (maxBytes : Int32) :
    Except SegmentError (ByteString × Nat) :=
  if s.currentSize ≤ pos then .error (.beyondSize pos s.currentSize)
  else match s.rawLoop s.currentSize pos maxBytes.toInt true ([], 0) with
    | .error e => .error e
    | .ok (result, fetchedUpTo) =>
      if result = [] then .error (.noCompleteBatch pos) else .ok (result, fetchedUpTo)

/-! ## Truncating -/

/-- `Segment.truncateAt`; positions are never negative here. -/
def Segment.truncateAt (s : Segment) (position nextOffset : Nat) (fault : Bool) :
    Except SegmentError Unit × Segment :=
  if nextOffset < s.baseOffset then (.error (.beforeBase nextOffset s.baseOffset), s)
  else if s.currentSize < position then (.error (.beyondSize position s.currentSize), s)
  else if fault then (.error .truncate, s)
  else (.ok (), { s with
    file := s.file.take position
    currentSize := position
    nextOffset := nextOffset })

/-- The loop of `findTruncationPosition`. -/
def Segment.truncationLoop (s : Segment) (offset : Nat) : Nat → Nat → Except SegmentError Nat
  | 0, pos => .ok pos
  | fuel + 1, pos =>
      if pos < s.currentSize then
        match s.readBatchMetaAt pos with
        | .error e => .error e
        | .ok (first, lod, onDiskSize) =>
          if onDiskSize = 0 ∨ s.currentSize < pos + onDiskSize then
            .error (.invalidSize onDiskSize pos)
          else if first = offset then .ok pos
          else if first < offset ∧ offset ≤ (first + lod) % 2 ^ 64 then
            .error (.insideBatch offset first ((first + lod) % 2 ^ 64))
          else s.truncationLoop offset fuel (pos + onDiskSize)
      else if offset = s.nextOffset then .ok pos
      else .error (.notABoundary offset s.baseOffset)

def Segment.findTruncationPosition (s : Segment) (offset : Nat) : Except SegmentError Nat :=
  s.truncationLoop offset (s.currentSize + 1) 0

end MessageBroker.Storage
