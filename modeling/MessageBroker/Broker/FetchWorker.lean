import MessageBroker.Broker.FetchPass
import MessageBroker.Broker.Reconcile
import MessageBroker.Controller.State
import MessageBroker.Protocol.Fetch

/-!
# A fetch worker among other goroutines

The worker of one leader reconciles the partitions it was given, asks for their
records and appends what it receives. Between the sections in which it holds its
mutex it can be given other assignments, and the partitions change their roles at any
time. Every step below is one such section, or one access to a partition where the
worker goes through several. The file shows that what the worker stores was asked for
after a reconciliation in the epoch the partition follows.
-/
namespace MessageBroker.Broker

open Std Lib Lib.Bytes Storage Protocol
open Controller (TopicPartitionKey)

/-! ## Reconciling in steps -/

inductive ReconcileFailure
  /-- the request failed, or its response is not for one partition -/
  | unanswered
  | failed (e : ReconcileError)
  deriving DecidableEq

/-- Where a goroutine is in `reconcilePartition`; `attempts` are those left. -/
inductive ReconcilePhase
  | start
  /-- before the request for `followerEpoch` -/
  | asking (attempts : Nat) (followerEpoch : Int32)
  /-- before looking up the answered epoch in the log -/
  | answered (attempts : Nat) (rp : EpochResponse)
  /-- before bounding the offset by the end of the log -/
  | located (attempts : Nat) (rp : EpochResponse) (localEnd : Option EpochEndOffset)
  /-- before comparing the offset with the end of the log -/
  | bounded (attempts : Nat) (rp : EpochResponse) (localEnd : Option EpochEndOffset)
      (offset : Nat)
  /-- before `TruncateTo` -/
  | cutting (attempts : Nat) (rp : EpochResponse) (localEnd : Option EpochEndOffset)
      (offset : Nat)
  | returned (r : Except ReconcileFailure Unit)
  deriving DecidableEq

/-- The end of an attempt. -/
def nextAttempt (attempts : Nat) (rp : EpochResponse) :
    Option EpochEndOffset → ReconcilePhase
  | none => .returned (.ok ())
  | some l =>
      if l.epoch = rp.leaderEpoch then .returned (.ok ()) else .asking attempts l.epoch

/-- One step of `reconcilePartition`, with the answer to a request and the file
operations that fail. -/
def reconcileStep (p : Partition) (answer : Option EpochResponse) (io : Faults) :
    ReconcilePhase → ReconcilePhase × Partition
  | .start =>
      match p.log.latestLeaderEpoch with
      | none => (.returned (.ok ()), p)
      | some followerEpoch => (.asking 32 followerEpoch, p)
  | .asking 0 _ => (.returned (.error (.failed .notConverged)), p)
  | .asking (attempts + 1) _ =>
      match answer with
      | none => (.returned (.error .unanswered), p)
      | some rp =>
        if rp.errorCode ≠ 0 then (.returned (.error (.failed (.code rp.errorCode))), p)
        else if rp.leaderEpoch < 0 ∨ rp.endOffset < 0 then
          (.returned (.error (.failed .undefined)), p)
        else (.answered attempts rp, p)
  | .answered attempts rp =>
      (.located attempts rp (p.log.endOffsetForLeaderEpoch rp.leaderEpoch), p)
  | .located attempts rp localEnd =>
      (.bounded attempts rp localEnd
        (truncationOffset rp.endOffset.toUInt64.toNat localEnd p.leo), p)
  | .bounded attempts rp localEnd offset =>
      if offset < p.leo then (.cutting attempts rp localEnd offset, p)
      else (nextAttempt attempts rp localEnd, p)
  | .cutting attempts rp localEnd offset =>
      match p.truncateTo offset io with
      | (.error e, p) => (.returned (.error (.failed (.truncate offset e))), p)
      | (.ok (), p) => (nextAttempt attempts rp localEnd, p)
  | .returned r => (.returned r, p)

section Alone

variable (leader : Partition) (currentLeaderEpoch : Int32) (io : Nat → Faults)

/-- The leader's answer to the request a goroutine is about to send. -/
def answerTo : ReconcilePhase → Option EpochResponse
  | .asking _ followerEpoch =>
      some (leader.offsetsForLeaderEpoch currentLeaderEpoch followerEpoch)
  | _ => none

/-- The file operations that fail in the attempt a goroutine is in. -/
def faultsIn : ReconcilePhase → Faults
  | .cutting attempts _ _ _ => io attempts
  | _ => .none

/-- A step with nothing in between, answered by the leader. -/
def reconcileOnward (x : ReconcilePhase × Partition) : ReconcilePhase × Partition :=
  reconcileStep x.2 (answerTo leader currentLeaderEpoch x.1) (faultsIn io x.1) x.1

/-- The phase after an attempt. -/
def afterRound (attempts : Nat) :
    Except ReconcileError (Option Int32) × Partition → ReconcilePhase × Partition
  | (.error e, p) => (.returned (.error (.failed e)), p)
  | (.ok none, p) => (.returned (.ok ()), p)
  | (.ok (some epoch), p) => (.asking attempts epoch, p)

/-- Undisturbed, the steps of an attempt add up to a round. -/
theorem reconcileOnward_round (attempts : Nat) (followerEpoch : Int32) (p : Partition) :
    ∃ n, (reconcileOnward leader currentLeaderEpoch io)^[n]
        (.asking (attempts + 1) followerEpoch, p) =
      afterRound attempts
        (reconcileRound leader currentLeaderEpoch followerEpoch p (io attempts)) := by
  have hnext : ∀ (rp : EpochResponse) (localEnd : Option EpochEndOffset) (q : Partition),
      afterRound attempts (match localEnd with
        | none => (.ok none, q)
        | some l => (.ok (if l.epoch = rp.leaderEpoch then none else some l.epoch), q)) =
      (nextAttempt attempts rp localEnd, q) := by
    intro rp localEnd q
    cases localEnd with
    | none => rfl
    | some l =>
      by_cases heq : l.epoch = rp.leaderEpoch
      · simp only [nextAttempt, heq, if_true, afterRound]
      · simp only [nextAttempt, heq, if_false, afterRound]
  unfold reconcileRound
  simp only
  generalize hrp : leader.offsetsForLeaderEpoch currentLeaderEpoch followerEpoch = rp
  by_cases hcode : rp.errorCode ≠ 0
  · refine ⟨1, ?_⟩
    simp only [Function.iterate_one, reconcileOnward, reconcileStep, answerTo, hrp, hcode, ne_eq,
      not_false_eq_true, if_true, afterRound]
  by_cases hundef : rp.leaderEpoch < 0 ∨ rp.endOffset < 0
  · refine ⟨1, ?_⟩
    simp only [Function.iterate_one, reconcileOnward, reconcileStep, answerTo, hrp, hcode,
      if_false, hundef, if_true, afterRound]
  generalize hend : p.log.endOffsetForLeaderEpoch rp.leaderEpoch = localEnd
  generalize hoff : truncationOffset rp.endOffset.toUInt64.toNat localEnd p.leo = offset
  have hbounded : (reconcileOnward leader currentLeaderEpoch io)^[3]
      (.asking (attempts + 1) followerEpoch, p) = (.bounded attempts rp localEnd offset, p) := by
    simp only [Function.iterate_succ_apply, Function.iterate_zero_apply, reconcileOnward,
      reconcileStep, answerTo, hrp, hcode, if_false, hundef, hend, hoff]
  rw [if_neg hcode, if_neg hundef]
  by_cases hlt : offset < p.leo
  · refine ⟨2 + 3, ?_⟩
    rw [Function.iterate_add_apply, hbounded]
    simp only [Function.iterate_succ_apply, Function.iterate_zero_apply, reconcileOnward,
      reconcileStep, hlt, if_true, faultsIn]
    rcases p.truncateTo offset (io attempts) with ⟨e | ⟨⟩, q⟩
    · rfl
    · exact (hnext rp localEnd q).symm
  · refine ⟨1 + 3, ?_⟩
    rw [Function.iterate_add_apply, hbounded]
    simp only [Function.iterate_one, reconcileOnward, reconcileStep, hlt, if_false]
    exact (hnext rp localEnd p).symm

/-- Where a goroutine that has returned from `reconcilePartition` stands. -/
def afterReconcile : Except ReconcileError Unit × Partition → ReconcilePhase × Partition
  | (.error e, p) => (.returned (.error (.failed e)), p)
  | (.ok (), p) => (.returned (.ok ()), p)

theorem reconcileOnward_loop (attempts : Nat) (followerEpoch : Int32) (p : Partition) :
    ∃ n, (reconcileOnward leader currentLeaderEpoch io)^[n] (.asking attempts followerEpoch, p) =
      afterReconcile (reconcileLoop leader currentLeaderEpoch io attempts followerEpoch p) := by
  induction attempts generalizing followerEpoch p with
  | zero => exact ⟨1, rfl⟩
  | succ attempts ih =>
    obtain ⟨m, hm⟩ := reconcileOnward_round leader currentLeaderEpoch io attempts followerEpoch p
    unfold reconcileLoop
    rcases hround : reconcileRound leader currentLeaderEpoch followerEpoch p (io attempts) with
      ⟨e | (_ | epoch), q⟩
    · exact ⟨m, by rw [hm, hround]; rfl⟩
    · exact ⟨m, by rw [hm, hround]; rfl⟩
    · obtain ⟨n, hn⟩ := ih epoch q
      refine ⟨n + m, ?_⟩
      rw [Function.iterate_add_apply, hm, hround]
      exact hn

/-- Undisturbed, the steps add up to `reconcilePartition`. -/
theorem reconcileOnward_start (p : Partition) :
    ∃ n, (reconcileOnward leader currentLeaderEpoch io)^[n] (.start, p) =
      afterReconcile (reconcilePartition leader p currentLeaderEpoch io) := by
  unfold reconcilePartition
  have hstart : reconcileOnward leader currentLeaderEpoch io (.start, p) =
      match p.log.latestLeaderEpoch with
      | none => (.returned (.ok ()), p)
      | some followerEpoch => (.asking 32 followerEpoch, p) := rfl
  cases hlatest : p.log.latestLeaderEpoch with
  | none =>
    refine ⟨1, ?_⟩
    rw [Function.iterate_one, hstart, hlatest]
    rfl
  | some followerEpoch =>
    obtain ⟨n, hn⟩ := reconcileOnward_loop leader currentLeaderEpoch io 32 followerEpoch p
    refine ⟨n + 1, ?_⟩
    rw [Function.iterate_succ_apply, hstart, hlatest]
    exact hn

end Alone

/-! ## The worker -/

/-- `partition` stands for the pointer to the object. -/
structure AssignedPartition where
  partition : Nat
  leaderEpoch : Int32
  deriving DecidableEq

structure RequestState where
  partition : Nat
  fetchOffset : Nat
  leaderEpoch : Int32
  deriving DecidableEq

abbrev KeyMap (α : Type) := ExtTreeMap TopicPartitionKey α TopicPartitionKey.cmp

/-- Where the worker is with one partition of a response. -/
inductive ApplyPhase
  /-- before looking the partition up -/
  | lookup
  /-- before reading the epoch of the partition -/
  | epoch (key : TopicPartitionKey) (fp : FetchResponsePartition) (state : RequestState)
  /-- before reading the end of its log -/
  | leo (key : TopicPartitionKey) (fp : FetchResponsePartition) (state : RequestState)
  /-- before `AppendFromLeader` -/
  | append (key : TopicPartitionKey) (fp : FetchResponsePartition) (state : RequestState)

/-- Where the worker is in `fetchOnce`. -/
inductive WorkerPhase
  | idle
  /-- at the head of the loop over `toReconcile`, with what is left of it -/
  | choosing (toReconcile : KeyMap AssignedPartition)
  /-- in `reconcilePartition` -/
  | reconciling (toReconcile : KeyMap AssignedPartition) (key : TopicPartitionKey)
      (assignment : AssignedPartition) (phase : ReconcilePhase)
  /-- building the request, with the assignments still to visit; the mutex is held -/
  | building (todo : KeyMap AssignedPartition) (requestStates : KeyMap RequestState)
      (entries : List (TopicPartitionKey × FetchRequestPartition))
  /-- waiting for the response -/
  | fetching (requestStates : KeyMap RequestState)
  /-- going through the response; the mutex is held -/
  | applying (requestStates : KeyMap RequestState)
      (rest : List (TopicPartitionKey × FetchResponsePartition)) (phase : ApplyPhase)

def WorkerPhase.locked : WorkerPhase → Bool
  | .building .. => true
  | .applying .. => true
  | _ => false

/-- A worker and the partition objects, by the pointers to them. -/
structure LeaderFetchWorker where
  partitions : KeyMap AssignedPartition
  reconciled : KeyMap Int32
  phase : WorkerPhase
  objects : Nat → Partition

def newLeaderFetchWorker (objects : Nat → Partition) : LeaderFetchWorker := ⟨∅, ∅, .idle, objects⟩

/-- What a step lets an observer see. -/
inductive WorkerNote
  /-- `reconcilePartition` has returned without error -/
  | reconciled (key : TopicPartitionKey) (partition : Nat) (leaderEpoch : Int32)
  /-- the partitions of the request that is sent -/
  | sent (entries : List (TopicPartitionKey × FetchRequestPartition))
  /-- what `AppendFromLeader` has returned -/
  | appended (key : TopicPartitionKey) (partition : Nat) (leaderEpoch : Int32)
      (r : Except PartitionError Unit)
  deriving DecidableEq

inductive WorkerEvent
  | setPartitions (parts : KeyMap AssignedPartition)
  /-- a call of another goroutine on a partition -/
  | call (partition : Nat) (x : Operation × Faults)
  /-- the first section of `fetchOnce` -/
  | fetchOnce
  /-- the loop over `toReconcile` takes a key -/
  | choose (key : TopicPartitionKey)
  /-- a step of `reconcilePartition` -/
  | reconcile (answer : Option EpochResponse) (io : Faults)
  /-- the section after `reconcilePartition` -/
  | record
  /-- the loop over `toReconcile` ends, and the next section begins -/
  | build
  /-- the loop over the assignments takes a key -/
  | visit (key : TopicPartitionKey)
  /-- the loop over the assignments ends, and the request is sent -/
  | send
  /-- the response, if there is one -/
  | respond (resp : Option FetchResponse)
  /-- a step in the loop over the response -/
  | apply (io : Faults)

namespace LeaderFetchWorker

/-- `setPartitions`: an epoch that is still the assigned one stays reconciled. -/
def setPartitions (w : LeaderFetchWorker) (parts : KeyMap AssignedPartition) :
    LeaderFetchWorker :=
  { w with
    partitions := parts
    reconciled := parts.filterMap fun key assignment =>
      w.reconciled[key]?.filter fun epoch => epoch == assignment.leaderEpoch }

def setObject (w : LeaderFetchWorker) (i : Nat) (p : Partition) : LeaderFetchWorker :=
  { w with objects := Function.update w.objects i p }

/-- The section after `reconcilePartition`: its success counts if the assignment is
still the one it was called for. -/
def record (w : LeaderFetchWorker) (key : TopicPartitionKey) (assignment : AssignedPartition) :
    LeaderFetchWorker :=
  if w.partitions[key]? = some assignment then
    { w with reconciled := w.reconciled.insert key assignment.leaderEpoch }
  else w

/-- The entry for a partition in the request. -/
def requestEntry (key : TopicPartitionKey) (assignment : AssignedPartition) (p : Partition) :
    FetchRequestPartition where
  index := key.partition
  currentLeaderEpoch := assignment.leaderEpoch
  fetchOffset := Int64.ofNat p.leo
  logStartOffset := Int64.ofNat p.log.oldestOffset
  maxBytes := 1048576

/-- A step in the loop over the response. The tests of the worker's condition come in
the order of the source, and each reads the partition anew. -/
def applyStep (crc : Checksum) (w : LeaderFetchWorker) (requestStates : KeyMap RequestState)
    (rest : List (TopicPartitionKey × FetchResponsePartition)) (io : Faults) :
    ApplyPhase → Option WorkerNote × LeaderFetchWorker
  | .lookup =>
      match rest with
      | [] => (none, { w with phase := .idle })
      | (key, fp) :: rest =>
        match requestStates[key]?, w.partitions[key]? with
        | some state, some current =>
          if current.partition ≠ state.partition ∨ current.leaderEpoch ≠ state.leaderEpoch then
            (none, { w with phase := .applying requestStates rest .lookup })
          else (none, { w with phase := .applying requestStates rest (.epoch key fp state) })
        | _, _ => (none, { w with phase := .applying requestStates rest .lookup })
  | .epoch key fp state =>
      if (w.objects state.partition).leaderEpoch ≠ state.leaderEpoch then
        (none, { w with phase := .applying requestStates rest .lookup })
      else (none, { w with phase := .applying requestStates rest (.leo key fp state) })
  | .leo key fp state =>
      if (w.objects state.partition).leo ≠ state.fetchOffset ∨ fp.errorCode ≠ 0 ∨
          fp.highWatermark < 0 then
        (none, { w with phase := .applying requestStates rest .lookup })
      else (none, { w with phase := .applying requestStates rest (.append key fp state) })
  | .append key fp state =>
      match (w.objects state.partition).appendFromLeader crc (fp.records.getD [])
          state.leaderEpoch fp.highWatermark.toUInt64.toNat io with
      | (r, p) => (some (.appended key state.partition state.leaderEpoch r),
          { w.setObject state.partition p with phase := .applying requestStates rest .lookup })

/-- The partitions of a response, in order. -/
def responseEntries (resp : FetchResponse) :
    List (TopicPartitionKey × FetchResponsePartition) :=
  resp.topics.flatMap fun t =>
    t.partitions.map fun fp => (⟨topicString t.name, fp.index⟩, fp)

/-- One step. An event that is not possible where the worker is does nothing: in
particular `setPartitions` waits while the worker holds the mutex. -/
def step (crc : Checksum) (w : LeaderFetchWorker) :
    WorkerEvent → Option WorkerNote × LeaderFetchWorker
  | .setPartitions parts => (none, if w.phase.locked then w else w.setPartitions parts)
  | .call i x => (none, w.setObject i ((w.objects i).perform crc x).2)
  | .fetchOnce =>
      match w.phase with
      | .idle =>
        if w.partitions.isEmpty then (none, w)
        else (none, { w with
          phase := .choosing (w.partitions.filter fun key assignment =>
            w.reconciled[key]? != some assignment.leaderEpoch) })
      | _ => (none, w)
  | .choose key =>
      match w.phase with
      | .choosing toReconcile =>
        match toReconcile[key]? with
        | some assignment =>
          (none, { w with
            phase := .reconciling (toReconcile.erase key) key assignment .start })
        | none => (none, w)
      | _ => (none, w)
  | .reconcile answer io =>
      match w.phase with
      | .reconciling toReconcile key assignment phase =>
        match reconcileStep (w.objects assignment.partition) answer io phase with
        | (phase', p) =>
          (if phase' = .returned (.ok ()) then
              some (.reconciled key assignment.partition assignment.leaderEpoch)
            else none,
            { w.setObject assignment.partition p with
              phase := .reconciling toReconcile key assignment phase' })
      | _ => (none, w)
  | .record =>
      match w.phase with
      | .reconciling toReconcile key assignment (.returned (.ok ())) =>
        (none, { w.record key assignment with phase := .choosing toReconcile })
      | .reconciling toReconcile _ _ (.returned (.error _)) =>
        (none, { w with phase := .choosing toReconcile })
      | _ => (none, w)
  | .build =>
      match w.phase with
      | .choosing toReconcile =>
        if toReconcile.isEmpty then (none, { w with phase := .building w.partitions ∅ [] })
        else (none, w)
      | _ => (none, w)
  | .visit key =>
      match w.phase with
      | .building todo requestStates entries =>
        match todo[key]? with
        | none => (none, w)
        | some assignment =>
          if w.reconciled[key]? ≠ some assignment.leaderEpoch then
            (none, { w with phase := .building (todo.erase key) requestStates entries })
          else
            let p := w.objects assignment.partition
            (none, { w with
              phase := .building (todo.erase key)
                (requestStates.insert key ⟨assignment.partition, p.leo, assignment.leaderEpoch⟩)
                (entries ++ [(key, requestEntry key assignment p)]) })
      | _ => (none, w)
  | .send =>
      match w.phase with
      | .building todo requestStates entries =>
        if !todo.isEmpty then (none, w)
        else if requestStates.isEmpty then (none, { w with phase := .idle })
        else (some (.sent entries), { w with phase := .fetching requestStates })
      | _ => (none, w)
  | .respond resp =>
      match w.phase with
      | .fetching requestStates =>
        match resp with
        | none => (none, { w with phase := .idle })
        | some resp =>
          if resp.errorCode ≠ 0 then (none, { w with phase := .idle })
          else (none, { w with
            phase := .applying requestStates (responseEntries resp) .lookup })
      | _ => (none, w)
  | .apply io =>
      match w.phase with
      | .applying requestStates rest phase => w.applyStep crc requestStates rest io phase
      | _ => (none, w)

/-! ## What the worker remembers -/

/-- Every state of a request stands for a reconciliation that has succeeded. -/
def Asked (acc : List (Option WorkerNote)) (requestStates : KeyMap RequestState) : Prop :=
  ∀ (key : TopicPartitionKey) (state : RequestState), requestStates[key]? = some state →
    some (.reconciled key state.partition state.leaderEpoch) ∈ acc

end LeaderFetchWorker

open LeaderFetchWorker

/-- A partition past the lookup was asked for and is still assigned as it was. -/
def ApplyPhase.Current (parts : KeyMap AssignedPartition) (requestStates : KeyMap RequestState) :
    ApplyPhase → Prop
  | .lookup => True
  | .epoch key _ state | .leo key _ state | .append key _ state =>
      requestStates[key]? = some state ∧
        parts[key]? = some ⟨state.partition, state.leaderEpoch⟩

/-- What the worker's place in `fetchOnce` says about the notes so far. -/
def WorkerPhase.Recorded (parts : KeyMap AssignedPartition) (acc : List (Option WorkerNote)) :
    WorkerPhase → Prop
  | .idle => True
  | .choosing _ => True
  | .reconciling _ key assignment phase => phase = .returned (.ok ()) →
      some (.reconciled key assignment.partition assignment.leaderEpoch) ∈ acc
  | .building todo requestStates _ =>
      (∀ (key : TopicPartitionKey) (assignment : AssignedPartition),
          todo[key]? = some assignment → parts[key]? = some assignment) ∧
        Asked acc requestStates
  | .fetching requestStates => Asked acc requestStates
  | .applying requestStates _ phase =>
      Asked acc requestStates ∧ phase.Current parts requestStates

namespace LeaderFetchWorker

/-- An epoch that counts as reconciled is the assigned one, and the partition was
reconciled in it. -/
def Known (w : LeaderFetchWorker) (acc : List (Option WorkerNote)) : Prop :=
  ∀ (key : TopicPartitionKey) (epoch : Int32), w.reconciled[key]? = some epoch →
    ∃ i, w.partitions[key]? = some ⟨i, epoch⟩ ∧ some (.reconciled key i epoch) ∈ acc

structure Recorded (w : LeaderFetchWorker) (acc : List (Option WorkerNote)) : Prop where
  known : w.Known acc
  phase : w.phase.Recorded w.partitions acc

theorem recorded_new (objects : Nat → Partition) : (newLeaderFetchWorker objects).Recorded [] :=
  ⟨fun key epoch h => by simp [newLeaderFetchWorker] at h, trivial⟩

section Mono

variable {acc : List (Option WorkerNote)} (note : Option WorkerNote)

theorem Asked.append {requestStates : KeyMap RequestState} (h : Asked acc requestStates) :
    Asked (acc ++ [note]) requestStates :=
  fun key state hs => List.mem_append_left _ (h key state hs)

theorem Known.append {w : LeaderFetchWorker} (h : w.Known acc) : w.Known (acc ++ [note]) := by
  intro key epoch he
  obtain ⟨i, hi, hmem⟩ := h key epoch he
  exact ⟨i, hi, List.mem_append_left _ hmem⟩

end Mono

end LeaderFetchWorker

theorem WorkerPhase.Recorded.append {parts : KeyMap AssignedPartition}
    {acc : List (Option WorkerNote)} {phase : WorkerPhase} (h : phase.Recorded parts acc)
    (note : Option WorkerNote) : phase.Recorded parts (acc ++ [note]) := by
  cases phase with
  | idle => trivial
  | choosing toReconcile => trivial
  | reconciling toReconcile key assignment phase =>
    exact fun hr => List.mem_append_left _ (h hr)
  | building todo requestStates entries => exact ⟨h.1, Asked.append note h.2⟩
  | fetching requestStates => exact Asked.append note h
  | applying requestStates rest phase => exact ⟨Asked.append note h.1, h.2⟩

namespace LeaderFetchWorker

/-- The worker moves on without a change of what it has recorded. -/
theorem Recorded.goto {w w' : LeaderFetchWorker} {acc : List (Option WorkerNote)}
    (h : w.Recorded acc) (note : Option WorkerNote) (hparts : w'.partitions = w.partitions)
    (hrec : w'.reconciled = w.reconciled)
    (hphase : w'.phase.Recorded w.partitions (acc ++ [note])) : w'.Recorded (acc ++ [note]) := by
  refine ⟨fun key epoch he => ?_, hparts ▸ hphase⟩
  rw [hrec] at he
  rw [hparts]
  exact h.known.append note key epoch he

/-- The condition on an event: a key that stays assigned keeps its object. -/
def KeepsObjects (w : LeaderFetchWorker) : WorkerEvent → Prop
  | .setPartitions parts => ∀ (key : TopicPartitionKey) (a b : AssignedPartition),
      w.partitions[key]? = some a → parts[key]? = some b → b.partition = a.partition
  | _ => True

/-- New assignments keep a reconciled epoch for the same object in the same epoch. -/
theorem Recorded.setPartitions {w : LeaderFetchWorker} {acc : List (Option WorkerNote)}
    (h : w.Recorded acc) {parts : KeyMap AssignedPartition}
    (hkeep : w.KeepsObjects (.setPartitions parts)) (hfree : w.phase.locked = false) :
    (w.setPartitions parts).Recorded (acc ++ [none]) := by
  constructor
  · intro key epoch he
    simp only [LeaderFetchWorker.setPartitions, ExtTreeMap.getElem?_filterMap'] at he
    obtain ⟨⟨i, assigned⟩, hi, he⟩ := Option.bind_eq_some_iff.mp he
    obtain ⟨he, hepoch⟩ := Option.filter_eq_some_iff.mp he
    obtain ⟨j, hj, hmem⟩ := h.known key epoch he
    have hobject : i = j := hkeep key _ _ hj hi
    rw [← hobject] at hmem
    have hepoch : epoch = assigned := eq_of_beq hepoch
    subst hepoch
    exact ⟨i, hi, List.mem_append_left _ hmem⟩
  · -- outside its locked sections the worker remembers no assignment
    have hphase := h.phase.append none
    revert hfree hphase
    show _ → _ → w.phase.Recorded parts _
    cases w.phase with
    | building todo requestStates entries => exact fun hfree => by cases hfree
    | applying requestStates rest phase => exact fun hfree => by cases hfree
    | _ => exact fun _ hphase => hphase

theorem Recorded.record {w : LeaderFetchWorker} {acc : List (Option WorkerNote)}
    (h : w.Recorded acc) {key : TopicPartitionKey} {assignment : AssignedPartition}
    (hmem : some (.reconciled key assignment.partition assignment.leaderEpoch) ∈ acc) :
    (w.record key assignment).Known acc := by
  unfold LeaderFetchWorker.record
  split
  · rename_i hcurrent
    intro key' epoch he
    simp only [Maps.lookup_insert] at he
    split at he
    · rename_i hk
      subst hk
      cases he
      exact ⟨_, hcurrent, hmem⟩
    · exact h.known key' epoch he
  · exact h.known

/-- A step in the loop over the response only moves on, or is the append of the
partition at hand. -/
theorem applyStep_cases (crc : Checksum) (w : LeaderFetchWorker)
    {requestStates : KeyMap RequestState}
    (rest : List (TopicPartitionKey × FetchResponsePartition)) (io : Faults) {phase : ApplyPhase}
    (hcurrent : phase.Current w.partitions requestStates) :
    (∃ next, w.applyStep crc requestStates rest io phase = (none, { w with phase := next }) ∧
      (next = .idle ∨ ∃ rest' phase', next = .applying requestStates rest' phase' ∧
        phase'.Current w.partitions requestStates)) ∨
    ∃ key fp state r p, phase = .append key fp state ∧
      (w.objects state.partition).appendFromLeader crc (fp.records.getD []) state.leaderEpoch
        fp.highWatermark.toUInt64.toNat io = (r, p) ∧
      w.applyStep crc requestStates rest io phase =
        (some (.appended key state.partition state.leaderEpoch r),
          { w.setObject state.partition p with
            phase := .applying requestStates rest .lookup }) := by
  cases phase with
  | lookup =>
    left
    cases rest with
    | nil => exact ⟨_, rfl, .inl rfl⟩
    | cons x rest =>
      obtain ⟨key, fp⟩ := x
      simp only [applyStep]
      split
      · rename_i state current hstate hassigned
        split
        · exact ⟨_, rfl, .inr ⟨_, _, rfl, trivial⟩⟩
        · rename_i hsame
          rw [not_or, not_not, not_not] at hsame
          refine ⟨_, rfl, .inr ⟨_, _, rfl, hstate, ?_⟩⟩
          rw [hassigned, ← hsame.1, ← hsame.2]
      · exact ⟨_, rfl, .inr ⟨_, _, rfl, trivial⟩⟩
  | epoch key fp state =>
    left
    simp only [applyStep]
    split
    · exact ⟨_, rfl, .inr ⟨_, _, rfl, trivial⟩⟩
    · exact ⟨_, rfl, .inr ⟨_, _, rfl, hcurrent⟩⟩
  | leo key fp state =>
    left
    simp only [applyStep]
    split
    · exact ⟨_, rfl, .inr ⟨_, _, rfl, trivial⟩⟩
    · exact ⟨_, rfl, .inr ⟨_, _, rfl, hcurrent⟩⟩
  | append key fp state => exact .inr ⟨key, fp, state, _, _, rfl, rfl, rfl⟩

theorem Recorded.applyStep {crc : Checksum} {w : LeaderFetchWorker}
    {acc : List (Option WorkerNote)} (h : w.Recorded acc) {requestStates : KeyMap RequestState}
    {rest : List (TopicPartitionKey × FetchResponsePartition)} {phase : ApplyPhase}
    (hw : w.phase = .applying requestStates rest phase) (io : Faults) :
    (w.applyStep crc requestStates rest io phase).2.Recorded
      (acc ++ [(w.applyStep crc requestStates rest io phase).1]) := by
  have hphase := h.phase
  rw [hw] at hphase
  obtain ⟨hasked, hcurrent⟩ := hphase
  rcases w.applyStep_cases crc rest io hcurrent with
    ⟨next, hstep, rfl | ⟨rest', phase', rfl, hnext⟩⟩ | ⟨key, fp, state, r, p, -, -, hstep⟩
  · rw [hstep]
    exact h.goto none rfl rfl trivial
  · rw [hstep]
    exact h.goto none rfl rfl ⟨hasked.append none, hnext⟩
  · rw [hstep]
    exact h.goto _ rfl rfl ⟨hasked.append _, trivial⟩

/-- One step keeps what the worker has recorded. -/
theorem Recorded.step {crc : Checksum} {w : LeaderFetchWorker} {acc : List (Option WorkerNote)}
    (h : w.Recorded acc) {e : WorkerEvent} (he : w.KeepsObjects e) :
    (w.step crc e).2.Recorded (acc ++ [(w.step crc e).1]) := by
  have hstay : ∀ note, w.Recorded (acc ++ [note]) := fun note =>
    h.goto note rfl rfl (h.phase.append note)
  have hphase := h.phase
  cases e with
  | setPartitions parts =>
    simp only [LeaderFetchWorker.step]
    split
    · exact hstay none
    · rename_i hfree
      exact h.setPartitions he (by simpa using hfree)
  | call i x => exact h.goto none rfl rfl (h.phase.append none)
  | fetchOnce =>
    simp only [LeaderFetchWorker.step]
    split
    · split
      · exact hstay none
      · exact h.goto none rfl rfl trivial
    · exact hstay none
  | choose key =>
    simp only [LeaderFetchWorker.step]
    split
    · split
      · exact h.goto none rfl rfl (fun hr => by cases hr)
      · exact hstay none
    · exact hstay none
  | reconcile answer io =>
    simp only [LeaderFetchWorker.step]
    split
    · rename_i toReconcile key assignment phase hw
      refine h.goto _ rfl rfl fun hr => ?_
      rw [if_pos hr]
      exact List.mem_append_right _ List.mem_cons_self
    · exact hstay none
  | record =>
    simp only [LeaderFetchWorker.step]
    split
    · rename_i toReconcile key assignment hw
      rw [hw] at hphase
      have hknown := (h.record (hphase rfl)).append none
      exact ⟨hknown, trivial⟩
    · exact h.goto none rfl rfl trivial
    · exact hstay none
  | build =>
    simp only [LeaderFetchWorker.step]
    split
    · split
      · refine h.goto none rfl rfl ⟨fun _ _ hk => hk, fun key state hs => ?_⟩
        simp at hs
      · exact hstay none
    · exact hstay none
  | visit key =>
    simp only [LeaderFetchWorker.step]
    split
    · rename_i todo requestStates entries hw
      rw [hw] at hphase
      obtain ⟨htodo, hasked⟩ := hphase
      have hrest : ∀ (k : TopicPartitionKey) (a : AssignedPartition),
          (todo.erase key)[k]? = some a → w.partitions[k]? = some a := by
        intro k a hk
        rw [ExtTreeMap.getElem?_erase] at hk
        split at hk
        · cases hk
        · exact htodo k a hk
      split
      · exact hstay none
      · rename_i assignment hassignment
        split
        · exact h.goto none rfl rfl ⟨hrest, hasked.append none⟩
        · rename_i hready
          refine h.goto none rfl rfl ⟨hrest, fun k state hs => ?_⟩
          rw [Maps.lookup_insert] at hs
          split at hs
          · -- the key is reconciled in the epoch of its assignment
            rename_i hk
            subst hk
            cases hs
            obtain ⟨i, hi, hmem⟩ := h.known key _ (not_not.mp hready)
            have hsame := Option.some.inj ((htodo key assignment hassignment).symm.trans hi)
            rw [hsame]
            exact List.mem_append_left _ hmem
          · exact hasked.append none k state hs
    · exact hstay none
  | send =>
    simp only [LeaderFetchWorker.step]
    split
    · rename_i todo requestStates entries hw
      rw [hw] at hphase
      split
      · exact hstay none
      · split
        · exact h.goto none rfl rfl trivial
        · exact h.goto _ rfl rfl (hphase.2.append _)
    · exact hstay none
  | respond resp =>
    simp only [LeaderFetchWorker.step]
    split
    · rename_i requestStates hw
      rw [hw] at hphase
      split
      · exact h.goto none rfl rfl trivial
      · split
        · exact h.goto none rfl rfl trivial
        · exact h.goto none rfl rfl ⟨hphase.append none, trivial⟩
    · exact hstay none
  | apply io =>
    simp only [LeaderFetchWorker.step]
    split
    · rename_i requestStates rest phase hw
      exact h.applyStep hw io
    · exact hstay none

/-! ## Storing what was fetched -/

end LeaderFetchWorker

/-- A partition that replicates another broker in the epoch. -/
structure Partition.Follows (p : Partition) (epoch : Int32) : Prop where
  isLeader : p.isLeader = false
  leaderID : 0 ≤ p.leaderID
  remote : p.leaderID ≠ p.localBrokerID
  leaderEpoch : p.leaderEpoch = epoch

/-- `AppendFromLeader` refuses and changes nothing, unless the partition follows in the
epoch of the fetch. -/
theorem Partition.appendFromLeader_follows {crc : Checksum} {p q : Partition} {data : ByteString}
    {fetchEpoch : Int32} {leaderHW : Nat} {io : Faults} {r : Except PartitionError Unit}
    (h : p.appendFromLeader crc data fetchEpoch leaderHW io = (r, q))
    (hstores : r = .ok () ∨ q ≠ p) : p.Follows fetchEpoch := by
  have hrefused : ∀ e, ((.error e, p) : Except PartitionError Unit × Partition) = (r, q) →
      p.Follows fetchEpoch := by
    intro e heq
    cases heq
    rcases hstores with hr | hq
    · cases hr
    · exact absurd rfl hq
  unfold Partition.appendFromLeader at h
  split at h
  · exact hrefused _ h
  split at h
  · exact hrefused _ h
  rename_i hrole
  split at h
  · exact hrefused _ h
  rename_i hfenced
  split at h
  · exact hrefused _ h
  rename_i hunknown
  simp only [not_or] at hrole
  refine ⟨by simpa using hrole.1, Int32.not_lt.mp hrole.2.1, hrole.2.2, ?_⟩
  exact Int32.le_antisymm (Int32.not_lt.mp hfenced) (Int32.not_lt.mp hunknown)

namespace LeaderFetchWorker

/-- The only step that appends is the last one for a partition of the response. -/
theorem appended_inv {crc : Checksum} {w : LeaderFetchWorker} {e : WorkerEvent}
    {key : TopicPartitionKey} {i : Nat} {epoch : Int32} {r : Except PartitionError Unit}
    (h : (w.step crc e).1 = some (.appended key i epoch r)) :
    ∃ io requestStates rest phase, e = .apply io ∧
      w.phase = .applying requestStates rest phase := by
  cases e with
  | apply io =>
    simp only [LeaderFetchWorker.step] at h
    split at h
    · rename_i requestStates rest phase hw
      exact ⟨io, requestStates, rest, phase, rfl, hw⟩
    · cases h
  | reconcile answer io =>
    simp only [LeaderFetchWorker.step] at h
    split at h
    · simp only at h
      split at h <;> cases h
    · cases h
  | send =>
    simp only [LeaderFetchWorker.step] at h
    split at h
    · split at h
      · cases h
      · split at h <;> cases h
    · cases h
  | setPartitions parts => cases h
  | call j x => cases h
  | fetchOnce =>
    simp only [LeaderFetchWorker.step] at h
    split at h
    · split at h <;> cases h
    · cases h
  | choose key =>
    simp only [LeaderFetchWorker.step] at h
    split at h
    · split at h <;> cases h
    · cases h
  | record =>
    simp only [LeaderFetchWorker.step] at h
    split at h <;> cases h
  | build =>
    simp only [LeaderFetchWorker.step] at h
    split at h
    · split at h <;> cases h
    · cases h
  | visit key =>
    simp only [LeaderFetchWorker.step] at h
    split at h
    · split at h
      · cases h
      · split at h <;> cases h
    · cases h
  | respond resp =>
    simp only [LeaderFetchWorker.step] at h
    split at h
    · split at h
      · cases h
      · split at h <;> cases h
    · cases h

/-- In every interleaving in which a key that stays assigned keeps its object: a call of
`AppendFromLeader` that returns no error, or changes anything of the partition, finds it
a follower in the epoch of the assignment, and the worker has reconciled the partition in
this epoch before. -/
theorem append_needs_reconciliation (crc : Checksum) (objects : Nat → Partition)
    (run : List WorkerEvent)
    (hrun : Runs.Guarded (step crc) KeepsObjects (newLeaderFetchWorker objects) run)
    (e : WorkerEvent) (key : TopicPartitionKey) (i : Nat) (epoch : Int32)
    (r : Except PartitionError Unit) :
    let w := Runs.final (step crc) (newLeaderFetchWorker objects) run
    (w.step crc e).1 = some (.appended key i epoch r) →
    r = .ok () ∨ (w.step crc e).2.objects i ≠ w.objects i →
    (w.objects i).Follows epoch ∧ w.partitions[key]? = some ⟨i, epoch⟩ ∧
      some (.reconciled key i epoch) ∈
        Runs.outputs (step crc) (newLeaderFetchWorker objects) run := by
  intro w happended hstores
  have hrec : w.Recorded (Runs.outputs (step crc) (newLeaderFetchWorker objects) run) := by
    have h := Runs.invariant_outputs_guarded (step crc) (P := Recorded)
      (fun w e acc hw he => hw.step he) (recorded_new objects) run hrun
    rwa [List.nil_append] at h
  obtain ⟨io, requestStates, rest, phase, rfl, hw⟩ := appended_inv happended
  have hphase := hrec.phase
  rw [hw] at hphase
  obtain ⟨hasked, hcurrent⟩ := hphase
  have hstep : w.step crc (.apply io) = w.applyStep crc requestStates rest io phase := by
    simp only [step, hw]
  rw [hstep] at happended hstores
  rcases w.applyStep_cases crc rest io hcurrent with
    ⟨next, happly, -⟩ | ⟨key', fp, state, r', p, rfl, happend, happly⟩
  · rw [happly] at happended
    cases happended
  · rw [happly] at happended hstores
    cases happended
    refine ⟨Partition.appendFromLeader_follows happend ?_, hcurrent.2, hasked _ _ hcurrent.1⟩
    simpa [setObject] using hstores

/-- One partition of the topic `t` follows broker 2 in epoch 1, and its first record
arrives. -/
def firstRound : List WorkerEvent :=
  let key : TopicPartitionKey := ⟨"t", 0⟩
  [.call 0 (.makeFollower 1 2, .none), .setPartitions (ExtTreeMap.ofList [(key, ⟨0, 1⟩)] _),
    .fetchOnce, .choose key, .reconcile none .none, .record, .build, .visit key, .send,
    .respond (some ⟨0, 0, 0,
      [⟨[116], [⟨0, 0, 1, 1, 0, -1, some (stamp 1 0 (Log.sampleRequest 1))⟩]⟩]⟩),
    .apply .none, .apply .none, .apply .none]

theorem append_needs_reconciliation_firstRound :
    let start := newLeaderFetchWorker fun _ => newPartition 1 (Log.fresh Log.tightConfig)
    let w := Runs.final (step crc32c) start firstRound
    (w.step crc32c (.apply .none)).1 = some (.appended ⟨"t", 0⟩ 0 1 (.ok ())) ∧
      ((w.step crc32c (.apply .none)).2.objects 0).leo = 1 ∧ (w.objects 0).Follows 1 := by
  intro start w
  have happended : (w.step crc32c (.apply .none)).1 =
      some (.appended ⟨"t", 0⟩ 0 1 (.ok ())) := by decide +kernel
  refine ⟨happended, by decide +kernel, ?_⟩
  exact (append_needs_reconciliation crc32c _ firstRound
    ⟨trivial, fun key a b ha => by simp [newLeaderFetchWorker, step, setObject] at ha,
      trivial, trivial, trivial, trivial, trivial, trivial, trivial, trivial, trivial, trivial,
      trivial, trivial⟩
    (.apply .none) ⟨"t", 0⟩ 0 1 (.ok ()) happended (.inl rfl)).1

end LeaderFetchWorker

end MessageBroker.Broker
