import MessageBroker.Broker.Partition

/-!
# Produce, replicate and fetch

The raw paths of a partition: appending a produce request, applying a fetch
response of the leader, answering where an epoch ends, and serving a fetch.
-/
namespace MessageBroker.Broker

open Lib.Bytes Storage

/-- What `AppendRaw` returns: the first offset, and the channel a producer with
`acks=all` waits on. -/
structure AppendResult where
  firstOffset : Nat
  waits : Option Nat
  deriving DecidableEq

/-- `records` is empty where the source returns nil. -/
structure FetchRawResult where
  records : ByteString
  highWatermark : Nat
  logStartOffset : Nat
  fetchedUpTo : Nat
  deriving DecidableEq

structure FetchRawRangeResult where
  ranges : List RawRange
  recordsSize : Nat
  highWatermark : Nat
  logStartOffset : Nat
  fetchedUpTo : Nat
  deriving DecidableEq

/-- The error `AppendRaw` returns for an error of the log. -/
def appendError : LogError → PartitionError
  | .batch (.unsupportedMagic _) => .code .unsupportedForMessageFormat
  | .batch _ => .code .corruptMessage
  | .emptyRecords => .code .corruptMessage
  | .segment .offsetOverflow => .code .corruptMessage
  | .messageTooLarge _ _ _ _ => .code .messageTooLarge
  | e => .log e

namespace Partition

def pushPurgatory (p : Partition) (requiredHW : Nat) : Partition :=
  { p with
    purgatory := p.purgatory ++ [⟨p.pushed, requiredHW⟩]
    pushed := p.pushed + 1 }

/-- `AppendRaw` under `appendMu`: the log takes the request, and a producer may wait. -/
def storeLocked (crc : Checksum) (p : Partition) (data : ByteString) (acks : Acks) (io : Faults) :
    Except PartitionError AppendResult × Partition :=
  match p.log.appendRaw crc data p.leaderEpoch io with
  | (.error e, l) => (.error (appendError e), { p with log := l })
  | (.ok (firstOffset, lod), l) =>
    let requiredHW := (firstOffset + lod + 1) % 2 ^ 64
    let p := { p with log := l }.notifyWaiters
    if acks = .all then (.ok ⟨firstOffset, some p.pushed⟩, p.pushPurgatory requiredHW)
    else (.ok ⟨firstOffset, none⟩, p)

/-- `AppendRaw` up to its `maybeAdvanceHW`. -/
def storeRaw (crc : Checksum) (p : Partition) (data : ByteString) (acks : Acks) (io : Faults) :
    Except PartitionError AppendResult × Partition :=
  if !p.isLeader then (.error (.code .notLeaderOrFollower), p)
  else if p.closed then (.error .closed, p)
  else if data.length < recordBatchOverhead then (.error (.code .corruptMessage), p)
  else match acks with
    | .invalid _ => (.error (.code .invalidRequiredAcks), p)
    | acks => p.storeLocked crc data acks io

def appendRaw (crc : Checksum) (p : Partition) (data : ByteString) (acks : Acks) (io : Faults) :
    Except PartitionError AppendResult × Partition :=
  match p.storeRaw crc data acks io with
  | (.error e, p) => (.error e, p)
  | (.ok r, p) => (.ok r, p.maybeAdvanceHW)

/-- A request is refused before the log sees it; or the log's error is passed on; or
the fetches are woken and a producer may wait. -/
theorem storeRaw_cases (crc : Checksum) (p : Partition) (data : ByteString) (acks : Acks)
    (io : Faults) :
    (∃ e, p.storeRaw crc data acks io = (.error e, p)) ∨
    p.isLeader = true ∧ p.closed = false ∧
    ∃ r l, p.log.appendRaw crc data p.leaderEpoch io = (r, l) ∧
      ((∃ e e', r = .error e ∧ p.storeRaw crc data acks io = (.error e', { p with log := l })) ∨
        ∃ x y purgatory pushed, r = .ok x ∧ p.storeRaw crc data acks io = (.ok y,
          { p with
            log := l
            notified := p.notified + 1
            purgatory := purgatory
            pushed := pushed })) := by
  unfold storeRaw
  split
  · exact .inl ⟨_, rfl⟩
  split
  · exact .inl ⟨_, rfl⟩
  rename_i hl hc
  split
  · exact .inl ⟨_, rfl⟩
  split
  · exact .inl ⟨_, rfl⟩
  refine .inr ⟨by simpa using hl, by simpa using hc, ?_⟩
  unfold storeLocked
  cases p.log.appendRaw crc data p.leaderEpoch io with
  | mk r l =>
    cases r with
    | error e => exact ⟨_, l, rfl, .inl ⟨_, _, rfl, rfl⟩⟩
    | ok x =>
      refine ⟨_, l, rfl, .inr ?_⟩
      simp only
      split
      · exact ⟨x, _, _, _, rfl, rfl⟩
      · exact ⟨x, _, p.purgatory, p.pushed, rfl, rfl⟩

/-- `Append` of one batch. Unlike `AppendRaw` it looks at `acks` only after the log
has taken the batch, and wakes nobody itself. -/
def append (crc : Checksum) (p : Partition) (batch : Batch) (acks : Acks) (io : Faults) :
    Except PartitionError AppendResult × Partition :=
  if !p.isLeader then (.error (.code .notLeaderOrFollower), p)
  else if p.closed then (.error .closed, p)
  else match p.log.append crc batch io with
    | (.error e, l) => (.error (.log e), { p with log := l })
    | (.ok firstOffset, l) =>
      let requiredHW := (firstOffset + batch.messages.length) % 2 ^ 64
      let p := { p with log := l }
      match acks with
      | .invalid value => (.error (.unknownAcks value), p)
      | .all => (.ok ⟨firstOffset, some p.pushed⟩, (p.pushPurgatory requiredHW).maybeAdvanceHW)
      | _ => (.ok ⟨firstOffset, none⟩, p.maybeAdvanceHW)

/-! ## Applying a fetch response -/

/-- The end of `AppendFromLeader`: the high watermark follows the leader's, as
far as the log reaches. -/
def followHW (p : Partition) (oldLEO leaderHW : Nat) : Partition :=
  let candidateHW := if p.leo < leaderHW then p.leo else leaderHW
  let oldHW := p.highWatermark
  let p := if oldHW < candidateHW then { p with highWatermark := candidateHW } else p
  if p.leo ≠ oldLEO ∨ p.highWatermark ≠ oldHW then p.notifyWaiters else p

/-- Following the leader's watermark wakes the fetches if anything moved. -/
theorem followHW_cases (p : Partition) (oldLEO leaderHW : Nat) :
    ∃ notified, p.followHW oldLEO leaderHW = { p with
        highWatermark := max p.highWatermark (min leaderHW p.leo)
        notified := notified } ∧
      (notified = p.notified + 1 ∨ notified = p.notified ∧ p.leo = oldLEO ∧
        max p.highWatermark (min leaderHW p.leo) = p.highWatermark) := by
  have hcand : (if p.leo < leaderHW then p.leo else leaderHW) = min leaderHW p.leo := by
    split <;> omega
  unfold followHW
  simp only [hcand]
  by_cases hlt : p.highWatermark < min leaderHW p.leo
  · rw [if_pos hlt, max_eq_right hlt.le]
    have hmoved : min leaderHW p.leo ≠ p.highWatermark := by omega
    exact ⟨_, if_pos (.inr hmoved), .inl rfl⟩
  · rw [if_neg hlt, max_eq_left (not_lt.mp hlt)]
    by_cases hleo : p.leo = oldLEO
    · exact ⟨p.notified, if_neg (by simp [hleo]), .inr ⟨rfl, hleo, rfl⟩⟩
    · exact ⟨_, if_pos (.inl hleo), .inl rfl⟩

def appendFromLeader (crc : Checksum) (p : Partition) (data : ByteString) (fetchEpoch : Int32)
    (leaderHW : Nat) (io : Faults) : Except PartitionError Unit × Partition :=
  if p.closed then (.error .closed, p)
  else if p.isLeader ∨ p.leaderID < 0 ∨ p.leaderID = p.localBrokerID then
    (.error (.code .notLeaderOrFollower), p)
  else if fetchEpoch < p.leaderEpoch then (.error (.code .fencedLeaderEpoch), p)
  else if p.leaderEpoch < fetchEpoch then (.error (.code .unknownLeaderEpoch), p)
  else if data = [] then (.ok (), p.followHW p.leo leaderHW)
  else match p.log.appendReplicaRaw crc data fetchEpoch io with
    | (.error e, l) => (.error (.log e), { p with log := l })
    | (.ok _, l) => (.ok (), { p with log := l }.followHW p.leo leaderHW)

/-! ## Answering where an epoch ends -/

end Partition

/-- `validateLeaderEpoch`; a negative epoch is not checked. -/
def validateLeaderEpoch (requested current : Int32) : Option ErrorCode :=
  if requested < 0 then none
  else if requested < current then some .fencedLeaderEpoch
  else if current < requested then some .unknownLeaderEpoch
  else none

namespace Partition

def endOffsetForLeaderEpoch (p : Partition) (requestedEpoch currentLeaderEpoch : Int32) :
    Except PartitionError (Option EpochEndOffset) :=
  if p.closed then .error .closed
  else if !p.isLeader then .error (.code .notLeaderOrFollower)
  else match validateLeaderEpoch currentLeaderEpoch p.leaderEpoch with
    | some e => .error (.code e)
    | none => .ok (p.log.endOffsetForLeaderEpoch requestedEpoch)

/-! ## Serving a fetch -/

end Partition

/-- The loop of `capToHW`: the bytes and the offset reached so far. -/
def capLoop (file : ByteString) (pos length maxOffset : Nat) :
    Nat → Nat → Nat → Except CapError (Nat × Nat)
  | 0, consumed, exclusiveEnd => .ok (consumed, exclusiveEnd)
  | fuel + 1, consumed, exclusiveEnd =>
      if consumed < length then
        if length - consumed < 27 then .error (.trailingBytes (length - consumed) (pos + consumed))
        else match readAt file (pos + consumed) 27 with
          | none => .error (.read (pos + consumed))
          | some hdr =>
            let totalSize := declaredSize hdr
            if totalSize < recordBatchOverhead then
              .error (.belowMinimum (pos + consumed) totalSize)
            else if length < consumed + totalSize then
              .error (.exceedsRange (pos + consumed) totalSize (length - consumed))
            else
              let batchEnd := (baseOffset hdr + lastOffsetDelta hdr + 1) % 2 ^ 64
              if maxOffset < batchEnd then .ok (consumed, exclusiveEnd)
              else capLoop file pos length maxOffset fuel (consumed + totalSize) batchEnd
      else .ok (consumed, exclusiveEnd)

def capToHW (file : ByteString) (pos length maxOffset fallback : Nat) :
    Except CapError (Nat × Nat) :=
  capLoop file pos length maxOffset (length + 1) 0 fallback

/-- The capping loop of `FetchRawRanges`: ranges, bytes and the offset reached. -/
def capRanges (l : Log) (hw : Nat) :
    List RawRange → Nat → Except CapError (List RawRange × Nat × Nat)
  | [], upTo => .ok ([], 0, upTo)
  | rg :: rest, upTo =>
      match capToHW (l.fileAt rg.file) rg.offset rg.length hw upTo with
      | .error e => .error e
      | .ok (n, u) =>
        if n < rg.length then
          .ok (if 0 < n then ([{ rg with length := n }], n, u) else ([], 0, upTo))
        else match capRanges l hw rest (if 0 < n then u else upTo) with
          | .error e => .error e
          | .ok (ranges, size, upTo) =>
            .ok (if 0 < n then ({ rg with length := n } :: ranges, n + size, upTo)
              else (ranges, size, upTo))

namespace Partition

/-- `FetchRaw`; a negative replica id is a consumer. -/
def fetchRaw (p : Partition) (fetchOffset : Nat) (replicaID : Int32) (maxBytes : Int32) :
    Except PartitionError FetchRawResult × Partition :=
  let isFollower := decide (0 ≤ replicaID)
  let logStart := p.log.oldestOffset
  if p.closed then (.error .closed, p)
  else if !p.isLeader then (.error (.code .notLeaderOrFollower), p)
  else if fetchOffset < logStart ∨ p.leo < fetchOffset then
    (.error (.code .offsetOutOfRange), p)
  else if !isFollower ∧ p.highWatermark ≤ fetchOffset then
    (.ok ⟨[], p.highWatermark, logStart, 0⟩, p)
  else if isFollower ∧ fetchOffset = p.leo then
    let p := p.updateFollowerLEO replicaID fetchOffset
    (.ok ⟨[], p.highWatermark, logStart, 0⟩, p)
  else match p.log.readRaw fetchOffset maxBytes with
    | .error e => (.error (.log e), p)
    | .ok (raw, fetchedUpTo) =>
      let p := if isFollower then p.updateFollowerLEO replicaID fetchOffset else p
      if !isFollower ∧ p.highWatermark < fetchedUpTo then
        match capToHW raw 0 raw.length p.highWatermark fetchOffset with
        | .error e => (.error (.capping e), p)
        | .ok (n, upTo) => (.ok ⟨raw.take n, p.highWatermark, logStart, upTo⟩, p)
      else (.ok ⟨raw, p.highWatermark, logStart, fetchedUpTo⟩, p)

/-- `FetchRawRanges`; a negative replica id is a consumer. -/
def fetchRawRanges (p : Partition) (fetchOffset : Nat) (replicaID : Int32) (maxBytes : Int32)
    (allowOversizedFirstBatch : Bool) :
    Except PartitionError FetchRawRangeResult × Partition :=
  let isFollower := decide (0 ≤ replicaID)
  let logStart := p.log.oldestOffset
  let nothing (p : Partition) : FetchRawRangeResult :=
    ⟨[], 0, p.highWatermark, logStart, fetchOffset⟩
  if p.closed then (.error .closed, p)
  else if !p.isLeader then (.error (.code .notLeaderOrFollower), p)
  else if fetchOffset < logStart ∨ p.leo < fetchOffset then
    (.error (.code .offsetOutOfRange), p)
  else if !isFollower ∧ p.highWatermark ≤ fetchOffset then (.ok (nothing p), p)
  else if isFollower ∧ fetchOffset = p.leo then
    let p := p.updateFollowerLEO replicaID fetchOffset
    (.ok (nothing p), p)
  else match p.log.readRawRanges fetchOffset maxBytes with
    | .error e => (.error (.log e), p)
    | .ok raw =>
      let p := if isFollower then p.updateFollowerLEO replicaID fetchOffset else p
      if !allowOversizedFirstBatch ∧ maxBytes.toInt < raw.bytes then (.ok (nothing p), p)
      else if !isFollower ∧ p.highWatermark < raw.fetchedUpTo then
        match capRanges p.log p.highWatermark raw.ranges fetchOffset with
        | .error e => (.error (.capping e), p)
        | .ok (ranges, size, upTo) =>
          (.ok ⟨ranges, size, p.highWatermark, logStart, upTo⟩, p)
      else (.ok ⟨raw.ranges, raw.bytes, p.highWatermark, logStart, raw.fetchedUpTo⟩, p)

/-- The bytes of the ranges, as the response streams them. -/
def rangeBytes (p : Partition) (ranges : List RawRange) : ByteString :=
  ranges.flatMap fun rg => ((p.log.fileAt rg.file).drop rg.offset).take rg.length

/-- The bytes of a range of the log. -/
theorem rangeBytes_single (p : Partition) (rg : RawRange) :
    p.rangeBytes [rg] = ((p.log.fileAt rg.file).drop rg.offset).take rg.length := by
  rw [rangeBytes, List.flatMap_cons, List.flatMap_nil, List.append_nil]

end Partition

end MessageBroker.Broker
