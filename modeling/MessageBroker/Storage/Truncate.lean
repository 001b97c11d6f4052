import MessageBroker.Storage.Log

/-!
# Truncating and reopening a log

Truncation cuts one segment at a batch boundary, drops the segments after it and
the cached epochs that start at or after the cut. Reopening recovers each
segment file of the directory, rebuilds its index, and recovers the epoch cache
from the checkpoint or from the batches.
-/
namespace MessageBroker.Storage

open Lib.Bytes Lib

/-- Where `findSegment` finds an offset. -/
inductive Target
  | active
  | sealed (i : Nat)
  deriving DecidableEq

/-- The name and contents of a segment's file. -/
def Segment.fileEntry (s : Segment) : Nat × ByteString := (s.baseOffset, s.file)

def SegmentPair.fileEntry (p : SegmentPair) : Nat × ByteString := p.segment.fileEntry

namespace Log

/-- The sealed pair at index `i`. -/
def sealedAt (l : Log) (i : Nat) : SegmentPair := l.sealedPairs.getD i l.activePair

/-- `findSegment`. -/
def findSegment (l : Log) (offset : Nat) : Option Target :=
  if l.activePair.segment.baseOffset ≤ offset then some .active
  else
    let i := Search.sortSearch l.sealedPairs.length
      (fun i => decide (offset < (l.sealedAt i).segment.baseOffset))
    if i = 0 then none else some (.sealed (i - 1))

def pairAt (l : Log) : Target → SegmentPair
  | .active => l.activePair
  | .sealed i => l.sealedAt i

/-! ## Truncation -/

end Log

/-- `truncateSegmentPair`. -/
def truncateSegmentPair (pair : SegmentPair) (position nextOffset : Nat) (interval : Int64)
    (fault : Bool) : Except LogError Unit × SegmentPair :=
  match pair.segment.truncateAt position nextOffset fault with
  | (.error e, s) => (.error (.segment e), { pair with segment := s })
  | (.ok (), s) =>
    match rebuildIndexFromSegment s pair.index interval with
    | (.error e, idx) => (.error (.rebuild e), { pair with segment := s, index := idx })
    | (.ok bytes, idx) => (.ok (), ⟨s, idx, bytes⟩)

namespace Log

/-- The end of `TruncateTo`: the epoch cache, the checkpoint, and the errors of
removing files joined with those of the checkpoint. -/
def finishTruncate (l : Log) (offset : Nat) (physical : Bool) (failed : List Nat) (io : Faults) :
    Except LogError Unit × Log :=
  let cache := if physical then l.epochCache.truncateFromEnd offset else l.epochCache
  let l := { l with
    epochCache := cache
    epochCheckpointDirty := l.epochCheckpointDirty || decide (cache ≠ l.epochCache) }
  match l.persistEpochCheckpoint io with
  | (.error e, l) => (.error (.cleanup failed (some e)), l)
  | (.ok (), l) => if failed = [] then (.ok (), l) else (.error (.cleanup failed none), l)

/-- `Log.TruncateTo`. -/
def truncateTo (l : Log) (offset : Nat) (io : Faults) : Except LogError Unit × Log :=
  if l.nextOffset < offset then (.error (.exceedsEnd offset l.nextOffset), l)
  else if offset < l.oldestOffset then (.error (.beforeStart offset l.oldestOffset), l)
  else if offset < l.nextOffset then
    match l.findSegment offset with
    | none => (.error (.beforeStart offset l.oldestOffset), l)
    | some target =>
      match (l.pairAt target).segment.findTruncationPosition offset with
      | .error e => (.error (.segment e), l)
      | .ok position =>
        match truncateSegmentPair (l.pairAt target) position offset l.config.indexIntervalBytes
            io.truncateFails, target with
        | (.error e, pair), .active => (.error e, { l with activePair := pair })
        -- the pair is shared with the sealed list, where it stays
        | (.error e, pair), .sealed i =>
            (.error e, { l with sealedPairs := l.sealedPairs.set i pair })
        | (.ok (), pair), .active => finishTruncate { l with activePair := pair } offset true [] io
        | (.ok (), pair), .sealed i =>
            let toRemove := l.sealedPairs.drop (i + 1) ++ [l.activePair]
            let kept := toRemove.filter fun p => io.removeFails p.segment.baseOffset
            finishTruncate { l with
              sealedPairs := l.sealedPairs.take i
              activePair := pair
              strays := l.strays ++ kept.map SegmentPair.fileEntry }
              offset true (kept.map (·.segment.baseOffset)) io
  else finishTruncate l offset false [] io

/-! ## Reopening -/

/-- Of consecutive entries with one name, the last is what the file holds. -/
def lastOfEach : List (Nat × ByteString) → List (Nat × ByteString)
  | a :: b :: rest => if a.1 = b.1 then lastOfEach (b :: rest) else a :: lastOfEach (b :: rest)
  | files => files

/-- The segment files of the directory, by base offset. -/
def directory (l : Log) : List (Nat × ByteString) :=
  lastOfEach ((l.strays ++ l.pairs.map SegmentPair.fileEntry).insertionSort fun a b => a.1 ≤ b.1)

end Log

/-- Open the segment files one after the other. -/
def openPairs (crc : Checksum) (config : LogConfig) :
    List (Nat × ByteString) → Except LogError (List SegmentPair)
  | [] => .ok []
  | (base, file) :: files =>
      match newSegmentPair crc config file base with
      | .error e => .error e
      | .ok pair =>
        match openPairs crc config files with
        | .error e => .error e
        | .ok pairs => .ok (pair :: pairs)

/-- The inner loop of `scanEpochHistoryLocked` over one segment, with the last
epoch seen. -/
def scanEpochs (s : Segment) :
    Nat → Nat → Option Int32 → Except LogError (List EpochEntry × Option Int32)
  | 0, _, last => .ok ([], last)
  | fuel + 1, pos, last =>
      if pos < s.currentSize then
        match s.readBatchOffsetAndEpochAt pos with
        | .error e => .error (.segment e)
        | .ok (first, epoch, onDiskSize) =>
          if s.currentSize - pos < onDiskSize then
            .error (.segment (.pastEnd pos s.currentSize))
          else
            let starts := decide (0 ≤ epoch ∧ last ≠ some epoch)
            match scanEpochs s fuel (pos + onDiskSize) (if starts then some epoch else last) with
            | .error e => .error e
            | .ok (entries, last) =>
              .ok (if starts then ⟨epoch, first⟩ :: entries else entries, last)
      else .ok ([], last)

/-- `scanEpochHistoryLocked` over the segments in order. -/
def scanEpochHistory : Option Int32 → List Segment → Except LogError (List EpochEntry)
  | _, [] => .ok []
  | last, s :: segments =>
      match scanEpochs s (s.currentSize + 1) 0 last with
      | .error e => .error e
      | .ok (entries, last) =>
        match scanEpochHistory last segments with
        | .error e => .error e
        | .ok more => .ok (entries ++ more)

/-- `RecoverEpochCache`: the cache and the checkpoint file it leaves. -/
def recoverEpochCache (segments : List Segment) (leo : Nat) (checkpoint : Option EpochCache)
    (io : Faults) : Except LogError (EpochCache × Option EpochCache) :=
  let loaded := checkpoint.getD []
  match replayEpochEntries [] loaded with
  | .error e => .error (.epoch e)
  | .ok replayed =>
    let cache := replayed.truncateAfter leo
    let rewrite (cache : EpochCache) : Except LogError (EpochCache × Option EpochCache) :=
      match writeCheckpoint checkpoint cache io.checkpointFails with
      | (.error e, _) => .error (.epoch e)
      | (.ok (), file) => .ok (cache, file)
    if 0 < leo ∧ (loaded ≠ replayed ∨ cache = []) then
      match scanEpochHistory none segments with
      | .error e => .error e
      | .ok scanned =>
        match replayEpochEntries [] scanned with
        | .error e => .error (.epoch e)
        | .ok cache => rewrite (cache.truncateAfter leo)
    else if loaded ≠ cache then rewrite cache
    else .ok (cache, checkpoint)

/-- What a recovery without error has done: it keeps the replayed entries, or those it
finds in the batches, and writes the checkpoint unless it holds them already. -/
theorem recoverEpochCache_inv {segments : List Segment} {leo : Nat}
    {checkpoint : Option EpochCache} {io : Faults} {cache : EpochCache}
    {file : Option EpochCache}
    (h : recoverEpochCache segments leo checkpoint io = .ok (cache, file)) :
    ∃ replayed, replayEpochEntries [] (checkpoint.getD []) = .ok replayed ∧
      ((0 < leo ∧ (checkpoint.getD [] ≠ replayed ∨ replayed.truncateAfter leo = [])) ∧
          (∃ scanned rebuilt, scanEpochHistory none segments = .ok scanned ∧
            replayEpochEntries [] scanned = .ok rebuilt ∧ cache = rebuilt.truncateAfter leo) ∧
          writeCheckpoint checkpoint cache io.checkpointFails = (.ok (), file) ∨
        ¬ (0 < leo ∧ (checkpoint.getD [] ≠ replayed ∨ replayed.truncateAfter leo = [])) ∧
          cache = replayed.truncateAfter leo ∧
          (checkpoint.getD [] ≠ cache ∧
              writeCheckpoint checkpoint cache io.checkpointFails = (.ok (), file) ∨
            checkpoint.getD [] = cache ∧ file = checkpoint)) := by
  unfold recoverEpochCache at h
  simp only at h
  split at h
  · cases h
  rename_i replayed hreplay
  refine ⟨replayed, hreplay, ?_⟩
  split at h
  · rename_i hscan
    split at h
    · cases h
    rename_i scanned hscanned
    split at h
    · cases h
    rename_i rebuilt hrebuilt
    split at h
    · cases h
    rename_i written hwrite
    cases h
    exact .inl ⟨hscan, ⟨scanned, rebuilt, hscanned, hrebuilt, rfl⟩, hwrite⟩
  · rename_i hscan
    split at h
    · rename_i hne
      split at h
      · cases h
      rename_i written hwrite
      cases h
      exact .inr ⟨hscan, rfl, .inl ⟨hne, hwrite⟩⟩
    · rename_i heq
      cases h
      exact .inr ⟨hscan, rfl, .inr ⟨not_not.mp heq, rfl⟩⟩

/-- The pairs `NewLog` opens: the last one is active, and an empty directory gets
a segment at offset 0. -/
def openActive (crc : Checksum) (config : LogConfig) (files : List (Nat × ByteString)) :
    Except LogError (List SegmentPair × SegmentPair) :=
  match openPairs crc config files with
  | .error e => .error e
  | .ok pairs =>
    match pairs.getLast? with
    | some active => .ok (pairs.dropLast, active)
    | none =>
      match newSegmentPair crc config [] 0 with
      | .error e => .error e
      | .ok active => .ok ([], active)

/-- `NewLog` on a directory with these segment files and checkpoint. -/
def newLog (crc : Checksum) (config : LogConfig) (files : List (Nat × ByteString))
    (checkpoint : Option EpochCache) (io : Faults) : Except LogError Log :=
  let config := applyDefaults config
  match openActive crc config files with
  | .error e => .error e
  | .ok (sealedPairs, active) =>
    match recoverEpochCache ((sealedPairs ++ [active]).map (·.segment)) active.segment.nextOffset
        checkpoint io with
    | .error e => .error e
    | .ok (cache, file) => .ok ⟨config, sealedPairs, active, cache, file, false, []⟩

/-- `Close` followed by `NewLog` on the same directory. -/
def Log.reopen (crc : Checksum) (l : Log) (config : LogConfig) (io : Faults) :
    Except LogError Log :=
  newLog crc config l.directory l.checkpoint io

/-! ## Reading -/

/-- The forward scan of `ReadRaw` and `ReadRawRanges`: the position of the batch
that contains the offset. -/
def Segment.scanTo (s : Segment) (offset : Nat) : Nat → Nat → Except LogError Nat
  | 0, _ => .error (.endOfSegment offset)
  | fuel + 1, pos =>
      match s.readBatchMetaAt pos with
      | .error e => .error (.segment e)
      | .ok (first, lod, onDiskSize) =>
        let batchEnd := (first + lod) % 2 ^ 64
        if first ≤ offset ∧ offset ≤ batchEnd then .ok pos
        else if offset < first then .error (.gap offset first)
        else if s.currentSize ≤ pos + onDiskSize then .error (.endOfSegment offset)
        else s.scanTo offset fuel (pos + onDiskSize)

/-- `Log.ReadRaw`: the bytes of whole batches from the one with the offset on, and
the offset after them. -/
def Log.readRaw (l : Log) (offset : Nat) (maxBytes : Int32) :
    Except LogError (ByteString × Nat) :=
  match l.findSegment offset with
  | none => .error (.beforeStart offset l.oldestOffset)
  | some target =>
    let pair := l.pairAt target
    match pair.index.lookup offset with
    | .error e => .error (.index e)
    | .ok filePos =>
      match pair.segment.scanTo offset (pair.segment.currentSize + 1) filePos with
      | .error e => .error e
      | .ok pos =>
        match pair.segment.readRawBatchAt pos maxBytes with
        | .error e => .error (.segment e)
        | .ok r => .ok r

/-- `Log.ReadRawRanges`. -/
def Log.readRawRanges (l : Log) (offset : Nat) (maxBytes : Int32) :
    Except LogError ReadRawRangesResult :=
  match l.findSegment offset with
  | none => .error (.beforeStart offset l.oldestOffset)
  | some target =>
    let pair := l.pairAt target
    match pair.index.lookup offset with
    | .error e => .error (.index e)
    | .ok filePos =>
      match pair.segment.scanTo offset (pair.segment.currentSize + 1) filePos with
      | .error e => .error e
      | .ok pos =>
        match pair.segment.readRawRangesAt pos maxBytes with
        | .error e => .error (.segment e)
        | .ok r => .ok r

end MessageBroker.Storage
