import MessageBroker.Storage.Truncate

/-!
# A partition replica

A partition is a log with a serving role: leader of an epoch with an in-sync
replica set, follower of another broker, or unassigned. The leader advances the
high watermark as its replicas fetch and completes the producers that wait for
it. Each operation here is one call; it returns what the source returns and the
partition it leaves. `io` says which file operations of the call fail.
-/
namespace MessageBroker.Broker

open Lib.Bytes Storage

inductive Acks
  | none
  | leader
  | all
  | invalid (value : Int16)
  deriving DecidableEq

inductive ErrorCode
  | offsetOutOfRange
  | corruptMessage
  | unknownTopicOrPartition
  | notLeaderOrFollower
  | requestTimedOut
  | messageTooLarge
  | invalidRequiredAcks
  | unsupportedVersion
  | unsupportedForMessageFormat
  | storageError
  | fencedLeaderEpoch
  | unknownLeaderEpoch
  deriving DecidableEq

/-- The wire value of an error code; 0 is no error. -/
def ErrorCode.toInt16 : ErrorCode → Int16
  | .offsetOutOfRange => 1
  | .corruptMessage => 2
  | .unknownTopicOrPartition => 3
  | .notLeaderOrFollower => 6
  | .requestTimedOut => 7
  | .messageTooLarge => 10
  | .invalidRequiredAcks => 21
  | .unsupportedVersion => 35
  | .unsupportedForMessageFormat => 43
  | .storageError => 56
  | .fencedLeaderEpoch => 74
  | .unknownLeaderEpoch => 75

inductive CapError
  | trailingBytes (n pos : Nat)
  | read (pos : Nat)
  | belowMinimum (pos size : Nat)
  | exceedsRange (pos size available : Nat)
  deriving DecidableEq

inductive PartitionError
  | code (e : ErrorCode)
  | closed
  | log (e : LogError)
  | capping (e : CapError)
  | staleEpoch (epoch latest : Int32)
  | persistEpoch (epoch : Int32) (offset : Nat) (e : EpochError)
  | truncateWhileLeader
  | unknownAcks (value : Int16)
  deriving DecidableEq

structure ISREntry where
  brokerID : Int32
  leo : Nat
  deriving DecidableEq

/-- A producer waiting for the high watermark; `id` stands for its channel. -/
structure PurgatoryEntry where
  id : Nat
  requiredHW : Nat
  deriving DecidableEq

structure Partition where
  localBrokerID : Int32
  log : Log
  highWatermark : Nat
  isLeader : Bool
  leaderEpoch : Int32
  leaderID : Int32
  isr : List ISREntry
  purgatory : List PurgatoryEntry
  /-- channels made so far -/
  pushed : Nat
  /-- closed channels, with the error their producer reads -/
  done : List (Nat × Option ErrorCode)
  /-- how often the waiting fetches were woken -/
  notified : Nat
  closed : Bool

def newPartition (localBrokerID : Int32) (l : Log) : Partition where
  localBrokerID := localBrokerID
  log := l
  highWatermark := l.oldestOffset
  isLeader := false
  leaderEpoch := 0
  leaderID := -1
  isr := []
  purgatory := []
  pushed := 0
  done := []
  notified := 0
  closed := false

namespace Partition

def leo (p : Partition) : Nat := p.log.nextOffset

def notifyWaiters (p : Partition) : Partition := { p with notified := p.notified + 1 }

/-! ## Purgatory -/

/-- Complete every producer whose watermark is reached. The heap pops them from
the smallest watermark on, which are those at or below the given one. -/
def drainPurgatory (p : Partition) (newHW : Nat) : Partition :=
  { p with
    purgatory := p.purgatory.filter fun e => decide (newHW < e.requiredHW)
    done := p.done ++ (p.purgatory.filter fun e => decide (e.requiredHW ≤ newHW)).map
      fun e => (e.id, none) }

def failPurgatory (p : Partition) (err : ErrorCode) : Partition :=
  { p with
    purgatory := []
    done := p.done ++ p.purgatory.map fun e => (e.id, some err) }

/-- The context of a waiting producer expires. -/
def expire (p : Partition) (id : Nat) : Partition :=
  if p.purgatory.any (fun e => e.id == id) then
    { p with
      purgatory := p.purgatory.filter fun e => e.id != id
      done := p.done ++ [(id, some .requestTimedOut)] }
  else p

/-! ## High watermark -/

/-- The least end offset among the leader and its replicas. -/
def minLEO (localBrokerID : Int32) : Nat → List ISREntry → Nat
  | hw, [] => hw
  | hw, e :: es =>
      minLEO localBrokerID
        (if e.brokerID = localBrokerID then hw else if e.leo < hw then e.leo else hw) es

def maybeAdvanceHW (p : Partition) : Partition :=
  if !p.isLeader then p
  else if p.isr = [] then p
  else
    let newHW := minLEO p.localBrokerID p.leo p.isr
    if newHW ≤ p.highWatermark then p.drainPurgatory p.highWatermark
    else ({ p with highWatermark := newHW }.drainPurgatory newHW).notifyWaiters

/-- The end offset of the first entry of the broker is overwritten. -/
def setLEO (brokerID : Int32) (leo : Nat) : List ISREntry → List ISREntry
  | [] => []
  | e :: es =>
      if e.brokerID = brokerID then { e with leo := leo } :: es else e :: setLEO brokerID leo es

def updateFollowerLEO (p : Partition) (brokerID : Int32) (leo : Nat) : Partition :=
  { p with isr := setLEO brokerID leo p.isr }.maybeAdvanceHW

/-! ## Roles -/

/-- `MakeLeader` past its epoch check: the epoch is assigned at the end of the
log, and a failure to persist it leaves the partition unassigned. -/
def becomeLeader (p : Partition) (epoch : Int32) (initialISR : List Int32) (initialHW : Nat)
    (io : Faults) : Except PartitionError Unit × Partition :=
  match p.log.assignLeaderEpoch epoch p.leo io with
  | (.error e, l) =>
      (.error (.persistEpoch epoch p.leo e), ({ p with
        log := l
        isLeader := false
        leaderID := -1
        isr := [] }.failPurgatory .notLeaderOrFollower).notifyWaiters)
  | (.ok (), l) =>
      (.ok (), { p with
        log := l
        leaderEpoch := epoch
        leaderID := p.localBrokerID
        isr := initialISR.map fun id => ⟨id, 0⟩
        highWatermark := initialHW
        isLeader := true }.notifyWaiters)

def makeLeader (p : Partition) (epoch : Int32) (initialISR : List Int32) (initialHW : Nat)
    (io : Faults) : Except PartitionError Unit × Partition :=
  match p.log.latestLeaderEpoch with
  | some latest =>
      if epoch < latest then (.error (.staleEpoch epoch latest), p)
      else p.becomeLeader epoch initialISR initialHW io
  | none => p.becomeLeader epoch initialISR initialHW io

def makeFollower (p : Partition) (epoch leaderID : Int32) : Partition :=
  ({ p with
    isLeader := false
    leaderEpoch := epoch
    leaderID := leaderID
    isr := [] }.failPurgatory .notLeaderOrFollower).notifyWaiters

def makeUnassigned (p : Partition) : Partition :=
  ({ p with
    isLeader := false
    leaderID := -1
    isr := [] }.failPurgatory .notLeaderOrFollower).notifyWaiters

/-- The end offset known for a broker; the last entry of a broker wins in the
source's map, and a new broker starts at 0. -/
def previousLEO (isr : List ISREntry) (id : Int32) : Nat :=
  ((isr.reverse.find? fun e => e.brokerID == id).map (·.leo)).getD 0

/-- `UpdateLeaderISR` up to its `maybeAdvanceHW`. -/
def setISR (p : Partition) (epoch : Int32) (ids : List Int32) :
    Except PartitionError Unit × Partition :=
  if !p.isLeader ∨ p.leaderEpoch ≠ epoch ∨ p.leaderID ≠ p.localBrokerID then
    (.error (.code .notLeaderOrFollower), p)
  else (.ok (), { p with isr := ids.map fun id => ⟨id, previousLEO p.isr id⟩ })

def updateLeaderISR (p : Partition) (epoch : Int32) (ids : List Int32) :
    Except PartitionError Unit × Partition :=
  match p.setISR epoch ids with
  | (.error e, p) => (.error e, p)
  | (.ok (), p) => (.ok (), p.maybeAdvanceHW)

theorem setISR_cases (p : Partition) (epoch : Int32) (ids : List Int32) :
    (∃ e, p.setISR epoch ids = (.error e, p)) ∨
    p.setISR epoch ids = (.ok (), { p with
      isr := ids.map fun id => ⟨id, previousLEO p.isr id⟩ }) := by
  unfold setISR
  split
  · exact .inl ⟨_, rfl⟩
  · exact .inr rfl

/-! ## Truncating and closing -/

/-- `TruncateTo`: the high watermark never stays above the end of the log. The files are
taken to be open: after `Close` the source fails here. -/
def truncateTo (p : Partition) (offset : Nat) (io : Faults) :
    Except PartitionError Unit × Partition :=
  if p.isLeader then (.error .truncateWhileLeader, p)
  else
    let oldLEO := p.leo
    match p.log.truncateTo offset io with
    | (r, l) =>
      let p := { p with log := l }
      let newLEO := p.leo
      let stateChanged := decide (newLEO ≠ oldLEO) || decide (newLEO < p.highWatermark)
      let p := if newLEO < p.highWatermark then { p with highWatermark := newLEO } else p
      let p := if stateChanged then p.notifyWaiters else p
      match r with
      | .error e => (.error (.log e), p)
      | .ok () => (.ok (), p)

/-- What a truncation may change; it wakes the fetches if the end or the watermark
moved. -/
theorem truncateTo_frame {p : Partition} (hl : p.isLeader = false) {offset : Nat} {io : Faults}
    {r : Except LogError Unit} {l : Log} (ht : p.log.truncateTo offset io = (r, l)) :
    ∃ r' notified, p.truncateTo offset io = (r', { p with
        log := l
        highWatermark := min p.highWatermark l.nextOffset
        notified := notified }) ∧ (r' = .ok () ↔ r = .ok ()) ∧
      (notified = p.notified + 1 ∨ notified = p.notified ∧ l.nextOffset = p.leo ∧
        p.highWatermark ≤ l.nextOffset) := by
  unfold truncateTo
  rw [if_neg (by rw [hl]; decide), ht]
  by_cases hlt : l.nextOffset < p.highWatermark
  · rw [min_eq_right hlt.le]
    simp only [leo, hlt, decide_true, Bool.or_true, if_true]
    cases r
    · exact ⟨_, _, rfl, by simp, .inl rfl⟩
    · exact ⟨_, _, rfl, by simp, .inl rfl⟩
  · rw [min_eq_left (not_lt.mp hlt)]
    simp only [leo, hlt, decide_false, Bool.or_false, if_false]
    by_cases hne : l.nextOffset = p.log.nextOffset
    · simp only [hne, ne_eq, not_true_eq_false, decide_false, Bool.false_eq_true, if_false]
      rw [hne] at hlt
      cases r
      · exact ⟨_, p.notified, rfl, by simp, .inr ⟨rfl, trivial, not_lt.mp hlt⟩⟩
      · exact ⟨_, p.notified, rfl, by simp, .inr ⟨rfl, trivial, not_lt.mp hlt⟩⟩
    · simp only [hne, ne_eq, not_false_eq_true, decide_true, if_true]
      cases r
      · exact ⟨_, _, rfl, by simp, .inl rfl⟩
      · exact ⟨_, _, rfl, by simp, .inl rfl⟩

/-- `Close`; later calls have no effect. -/
def close (p : Partition) : Partition :=
  if p.closed then p
  else ({ p with closed := true }.failPurgatory .storageError).notifyWaiters

def isrSnapshot (p : Partition) : List Int32 := p.isr.map (·.brokerID)

/-! ## What the helpers leave alone -/

section Frame

variable (p : Partition)

@[simp] theorem notifyWaiters_isLeader : p.notifyWaiters.isLeader = p.isLeader := rfl
@[simp] theorem failPurgatory_isLeader (err : ErrorCode) :
    (p.failPurgatory err).isLeader = p.isLeader := rfl

theorem maybeAdvanceHW_frame : ∃ hw purgatory done notified, p.maybeAdvanceHW = { p with
    highWatermark := hw
    purgatory := purgatory
    done := done
    notified := notified } := by
  unfold maybeAdvanceHW
  split
  · exact ⟨_, _, _, _, rfl⟩
  split
  · exact ⟨_, _, _, _, rfl⟩
  simp only
  split
  · exact ⟨_, _, _, _, rfl⟩
  · exact ⟨_, _, _, _, rfl⟩

@[simp] theorem maybeAdvanceHW_log : p.maybeAdvanceHW.log = p.log := by
  obtain ⟨_, _, _, _, h⟩ := p.maybeAdvanceHW_frame
  rw [h]

@[simp] theorem maybeAdvanceHW_isLeader : p.maybeAdvanceHW.isLeader = p.isLeader := by
  obtain ⟨_, _, _, _, h⟩ := p.maybeAdvanceHW_frame
  rw [h]

@[simp] theorem maybeAdvanceHW_leaderEpoch : p.maybeAdvanceHW.leaderEpoch = p.leaderEpoch := by
  obtain ⟨_, _, _, _, h⟩ := p.maybeAdvanceHW_frame
  rw [h]

end Frame

end Partition

end MessageBroker.Broker
