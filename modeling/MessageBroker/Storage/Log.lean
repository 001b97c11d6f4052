import MessageBroker.Storage.Index
import MessageBroker.Storage.EpochCache

/-!
# The partition log

Sealed segments followed by one active segment, each with its index, and the
leader epoch cache. A write goes to the active segment; a full segment or index
is sealed and a new one opened at the end offset. `Faults` says which file
operations of a call fail; `Faults.none` is the fault-free file system.
-/
namespace MessageBroker.Storage

open Lib.Bytes Lib

structure LogConfig where
  maxSegmentBytes : Int64
  maxIndexBytes : Int64
  indexIntervalBytes : Int64
  maxMessageBytes : Int64
  deriving DecidableEq

def applyDefaults (c : LogConfig) : LogConfig where
  maxSegmentBytes := if c.maxSegmentBytes ≤ 0 then 1073741824 else c.maxSegmentBytes
  maxIndexBytes := if c.maxIndexBytes ≤ 0 then 1048576 else c.maxIndexBytes
  indexIntervalBytes := if c.indexIntervalBytes ≤ 0 then 4096 else c.indexIntervalBytes
  maxMessageBytes := if c.maxMessageBytes ≤ 0 then 1048588 else c.maxMessageBytes

structure SegmentPair where
  segment : Segment
  index : Index
  bytesSinceIndex : Nat
  deriving DecidableEq

/-- Which file operations of a call fail. -/
structure Faults where
  /-- opening the files of a new segment -/
  rollFails : Bool
  /-- the segment write, after this many bytes -/
  writeFails : Option Nat
  /-- truncating the segment file -/
  truncateFails : Bool
  /-- rewriting the epoch checkpoint -/
  checkpointFails : Bool
  /-- removing the segment file with this base offset; its index file goes in any case -/
  removeFails : Nat → Bool

def Faults.none : Faults := ⟨false, .none, false, false, fun _ => false⟩

structure Log where
  config : LogConfig
  sealedPairs : List SegmentPair
  activePair : SegmentPair
  epochCache : EpochCache
  checkpoint : Option EpochCache
  epochCheckpointDirty : Bool
  /-- segment files that a truncation could not remove -/
  strays : List (Nat × ByteString)

inductive LogError
  | batch (e : BatchError)
  | emptyRecords
  | messageTooLarge (i n size : Nat) (max : Int64)
  | segment (e : SegmentError)
  | rebuild (e : RebuildError)
  | index (e : IndexError)
  | roll (e : SegmentError)
  | rollRebuild (e : RebuildError)
  | rollFiles
  | tooLargeForAnySegment (max : Int64)
  | unexpectedAppendOffset (expected got : Nat)
  | epochOrder (i : Nat) (epoch prev : Int32)
  | epoch (e : EpochError)
  | exceedsEnd (offset leo : Nat)
  | beforeStart (offset oldest : Nat)
  | gap (offset first : Nat)
  | endOfSegment (offset : Nat)
  | cleanup (bases : List Nat) (persist : Option EpochError)
  deriving DecidableEq

namespace Log

def pairs (l : Log) : List SegmentPair := l.sealedPairs ++ [l.activePair]

def segments (l : Log) : List Segment := l.pairs.map (·.segment)

def oldestOffset (l : Log) : Nat :=
  match l.sealedPairs with
  | [] => l.activePair.segment.baseOffset
  | p :: _ => p.segment.baseOffset

def nextOffset (l : Log) : Nat := l.activePair.segment.nextOffset

theorem oldestOffset_of_head {l : Log} {s : Segment} (h : l.segments.head? = some s) :
    l.oldestOffset = s.baseOffset := by
  unfold segments pairs at h
  unfold oldestOffset
  cases hs : l.sealedPairs with
  | nil =>
    rw [hs] at h
    exact congrArg Segment.baseOffset (Option.some.inj h)
  | cons p ps =>
    rw [hs] at h
    exact congrArg Segment.baseOffset (Option.some.inj h)

theorem nextOffset_of_last {l : Log} {s : Segment} {init : List Segment}
    (h : l.segments = init ++ [s]) : l.nextOffset = s.nextOffset := by
  unfold segments pairs at h
  rw [List.map_append] at h
  exact congrArg Segment.nextOffset (List.cons.inj (List.append_inj_right' h rfl)).1

/-! ## Rolling -/

/-- The bytes in the segment file of this base offset. A pair of the log comes
before a stray file, and a later pair before an earlier one. -/
def fileAt (l : Log) (base : Nat) : ByteString :=
  match l.pairs.reverse.find? (fun p => p.segment.baseOffset == base) with
  | some p => p.segment.file
  | none => ((l.strays.find? (fun f => f.1 == base)).map (·.2)).getD []

end Log

/-- `newSegmentPair` on a segment file with these contents. -/
def newSegmentPair (crc : Checksum) (config : LogConfig) (file : ByteString) (base : Nat) :
    Except LogError SegmentPair :=
  match newSegment crc file base config.maxSegmentBytes with
  | .error e => .error (.roll e)
  | .ok seg =>
    match rebuildIndexFromSegment seg ⟨[], base, config.maxIndexBytes⟩
      config.indexIntervalBytes with
    | (.error e, _) => .error (.rollRebuild e)
    | (.ok bytes, idx) => .ok ⟨seg, idx, bytes⟩

namespace Log

/-- `roll`: seal the active segment and open the next one. A failing one leaves no file,
where the source leaves an empty segment file if only the index cannot be opened. -/
def roll (crc : Checksum) (l : Log) (io : Faults) : Except LogError Unit × Log :=
  let base := l.nextOffset
  if io.rollFails then (.error .rollFiles, l)
  else match newSegmentPair crc l.config (l.fileAt base) base with
    | .error e => (.error e, l)
    | .ok pair => (.ok (), { l with
        sealedPairs := l.sealedPairs ++ [l.activePair]
        activePair := pair
        strays := l.strays.filter (fun f => f.1 != base) })

/-- The roll before an append to a full segment or index. -/
def rollIfFull (crc : Checksum) (l : Log) (io : Faults) : Except LogError Unit × Log :=
  if l.activePair.segment.isFull || l.activePair.index.isFull then l.roll crc io else (.ok (), l)

/-! ## Appending -/

def withSegment (l : Log) (s : Segment) : Log :=
  { l with activePair := { l.activePair with segment := s } }

/-- The index entry an append may add: `bytes` were written at `pos`. -/
def noteAppend (l : Log) (offset pos bytes : Nat) : Except LogError Unit × Log :=
  let bytesSinceIndex := l.activePair.bytesSinceIndex + bytes
  if pos = 0 ∨ l.config.indexIntervalBytes.toInt ≤ bytesSinceIndex then
    match l.activePair.index.write offset pos with
    | (.error e, idx) => (.error (.index e), { l with
        activePair := ⟨l.activePair.segment, idx, bytesSinceIndex⟩ })
    | (.ok (), idx) => (.ok (), { l with activePair := ⟨l.activePair.segment, idx, 0⟩ })
  else (.ok (), { l with
    activePair := { l.activePair with bytesSinceIndex := bytesSinceIndex } })

/-- The second half of `Append`: the batch goes to the active segment, after a
roll if it does not fit. -/
def appendBatchToActive (crc : Checksum) (l : Log) (batch : Batch) (io : Faults) :
    Except LogError (Nat × Nat) × Log :=
  match l.activePair.segment.appendBatch crc batch io.writeFails with
  | (.error .segmentFull, s) =>
      if s.currentSize = 0 then (.error (.tooLargeForAnySegment l.config.maxSegmentBytes), l)
      else match l.roll crc io with
        | (.error e, l) => (.error e, l)
        | (.ok (), l) =>
          match l.activePair.segment.appendBatch crc batch io.writeFails with
          | (.error e, s) => (.error (.segment e), l.withSegment s)
          | (.ok r, s) => (.ok r, l.withSegment s)
  | (.error e, s) => (.error (.segment e), l.withSegment s)
  | (.ok r, s) => (.ok r, l.withSegment s)

/-- `Log.Append`: the offset given to the batch. -/
def append (crc : Checksum) (l : Log) (batch : Batch) (io : Faults) :
    Except LogError Nat × Log :=
  match l.rollIfFull crc io with
  | (.error e, l) => (.error e, l)
  | (.ok (), l) =>
    match l.appendBatchToActive crc batch io with
    | (.error e, l) => (.error e, l)
    | (.ok (pos, first), l) =>
      match l.noteAppend first pos (encodedBatchSize batch) with
      | (.error e, l) => (.error e, l)
      | (.ok (), l) => (.ok first, l)

/-- The end of `store`, once the bytes are written. -/
def noted (l : Log) (assigned pos total bytes : Nat) : Except LogError (Nat × Nat) × Log :=
  match l.noteAppend assigned pos bytes with
  | (.error e, l) => (.error e, l)
  | (.ok (), l) => (.ok (assigned, total), l)

theorem noted_snd (l : Log) (assigned pos total bytes : Nat) :
    (l.noted assigned pos total bytes).2 = (l.noteAppend assigned pos bytes).2 := by
  unfold noted
  rcases l.noteAppend assigned pos bytes with ⟨_ | _, l'⟩ <;> rfl

/-- The shared second half of `AppendRaw` and `AppendReplicaRaw`: store the bytes
in the active segment, after a roll if they do not fit, and note them in the
index. The result is the first offset and the number of offsets. -/
def store (crc : Checksum) (l : Log) (data : ByteString) (bounds : List BatchBounds)
    (leaderEpoch : Int32) (assign : Bool) (io : Faults) : Except LogError (Nat × Nat) × Log :=
  match l.rollIfFull crc io with
  | (.error e, l) => (.error e, l)
  | (.ok (), l) =>
    match l.activePair.segment.appendRawBatches data bounds leaderEpoch assign io.writeFails with
    | (.error .segmentFull, _) =>
        match l.roll crc io with
        | (.error e, l) => (.error e, l)
        | (.ok (), l) =>
          match l.activePair.segment.appendRawBatches data bounds leaderEpoch assign
              io.writeFails with
          | (.error e, s) => (.error (.segment e), l.withSegment s)
          | (.ok (assigned, pos, total), s) =>
            (l.withSegment s).noted assigned pos total data.length
    | (.error e, s) => (.error (.segment e), l.withSegment s)
    | (.ok (assigned, pos, total), s) => (l.withSegment s).noted assigned pos total data.length

/-- The size check of `AppendRaw`, from batch `i` of `n` on. -/
def checkSizes (max : Int64) (n : Nat) : Nat → List BatchBounds → Except LogError Unit
  | _, [] => .ok ()
  | i, b :: bs =>
      if max.toInt < b.size then .error (.messageTooLarge (i + 1) n b.size max)
      else checkSizes max n (i + 1) bs

/-- `Log.AppendRaw`: the first offset and the last offset delta. -/
def appendRaw (crc : Checksum) (l : Log) (data : ByteString) (leaderEpoch : Int32) (io : Faults) :
    Except LogError (Nat × Nat) × Log :=
  match scanRawBatches crc data with
  | .error e => (.error (.batch e), l)
  | .ok bounds =>
    if bounds = [] then (.error .emptyRecords, l)
    else match checkSizes l.config.maxMessageBytes bounds.length 0 bounds with
      | .error e => (.error e, l)
      | .ok () =>
        match l.store crc data bounds leaderEpoch true io with
        | (.error e, l) => (.error e, l)
        | (.ok (assigned, total), l) => (.ok (assigned, (total - 1) % 2 ^ 32), l)

/-! ## Leader epochs -/

/-- `persistEpochCheckpointLocked`. -/
def persistEpochCheckpoint (l : Log) (io : Faults) : Except EpochError Unit × Log :=
  if !l.epochCheckpointDirty then (.ok (), l)
  else match writeCheckpoint l.checkpoint l.epochCache io.checkpointFails with
    | (.error e, _) => (.error e, l)
    | (.ok (), file) => (.ok (), { l with checkpoint := file, epochCheckpointDirty := false })

/-- The loop of `assignLeaderEpochs`. -/
def assignLoop (l : Log) : List EpochEntry → Except EpochError Unit × Log
  | [] => (.ok (), l)
  | e :: es =>
      match l.epochCache.assign e.epoch e.startOffset with
      | .error err => (.error err, l)
      | .ok (changed, cache) =>
        assignLoop { l with
          epochCache := cache
          epochCheckpointDirty := l.epochCheckpointDirty || changed } es

/-- `assignLeaderEpochs`; `AssignLeaderEpoch` is the case of one entry. -/
def assignLeaderEpochs (l : Log) (entries : List EpochEntry) (io : Faults) :
    Except EpochError Unit × Log :=
  match l.assignLoop entries with
  | (.error e, l) => (.error e, l)
  | (.ok (), l) => l.persistEpochCheckpoint io

def assignLeaderEpoch (l : Log) (epoch : Int32) (startOffset : Nat) (io : Faults) :
    Except EpochError Unit × Log :=
  l.assignLeaderEpochs [⟨epoch, startOffset⟩] io

def endOffsetForLeaderEpoch (l : Log) (epoch : Int32) : Option EpochEndOffset :=
  l.epochCache.endOffsetFor epoch l.nextOffset

def epochForOffset (l : Log) (offset : Nat) : Option Int32 := l.epochCache.epochForOffset offset

def latestLeaderEpoch (l : Log) : Option Int32 := l.epochCache.getLast?.map (·.epoch)

/-! ## Replica appends -/

/-- The check loop of `AppendReplicaRaw` after batch `prev`: the epochs that
start in the remaining batches. -/
def transitionsLoop : Nat → BatchBounds → List BatchBounds → Except LogError (List EpochEntry)
  | _, _, [] => .ok []
  | i, prev, b :: bs =>
      let expectedNext := (prev.baseOffset + prev.lastOffsetDelta + 1) % 2 ^ 64
      if b.baseOffset ≠ expectedNext then
        .error (.unexpectedAppendOffset expectedNext b.baseOffset)
      else if b.leaderEpoch < prev.leaderEpoch then
        .error (.epochOrder i b.leaderEpoch prev.leaderEpoch)
      else match transitionsLoop (i + 1) b bs with
        | .error e => .error e
        | .ok entries =>
          .ok (if b.leaderEpoch ≠ prev.leaderEpoch then ⟨b.leaderEpoch, b.baseOffset⟩ :: entries
            else entries)

/-- The bytes before the first batch of an epoch later than the fetch's. -/
def acceptedBytes (data : ByteString) (bounds : List BatchBounds) (fetchEpoch : Int32) :
    ByteString :=
  match bounds.find? (fun b => decide (fetchEpoch < b.leaderEpoch)) with
  | none => data
  | some b => data.take b.offset

/-- `Log.AppendReplicaRaw`: the number of offsets appended. -/
def appendReplicaRaw (crc : Checksum) (l : Log) (data : ByteString) (fetchEpoch : Int32)
    (io : Faults) : Except LogError Nat × Log :=
  match scanRawBatches crc data with
  | .error e => (.error (.batch e), l)
  | .ok bounds =>
    if bounds = [] then (.error .emptyRecords, l)
    else
      let accepted := bounds.takeWhile (fun b => decide (b.leaderEpoch ≤ fetchEpoch))
      match accepted with
      | [] => (.ok 0, l)
      | first :: rest =>
        if first.baseOffset ≠ l.nextOffset then
          (.error (.unexpectedAppendOffset l.nextOffset first.baseOffset), l)
        else match transitionsLoop 1 first rest with
          | .error e => (.error e, l)
          | .ok entries =>
            match l.assignLeaderEpochs (⟨first.leaderEpoch, first.baseOffset⟩ :: entries) io with
            | (.error e, l) => (.error (.epoch e), l)
            | (.ok (), l) =>
              match l.store crc (acceptedBytes data bounds fetchEpoch) accepted 0 false io with
              | (.error e, l) => (.error e, l)
              | (.ok (_, total), l) => (.ok total, l)

end Log

end MessageBroker.Storage
