import MessageBroker.Broker.Interleaving
import MessageBroker.Broker.Purgatory

/-!
# A partition and the goroutines that use it

Any number of goroutines are somewhere in the calls of a partition that touch the
producers waiting for the watermark. A step is one section under a mutex or one atomic
access; `appendMu` is held from its `Lock` to its `Unlock` over several of them, and a
goroutine that waits for it takes no step. Undisturbed, the steps of a call add up to the
call, and however they interleave the heap holds what the list of waiting producers says.
-/
namespace MessageBroker.Broker

open Lib.Bytes Lib Storage

/-- The role `MakeFollower` or `MakeUnassigned` leaves. -/
inductive Demotion
  | follower (epoch leaderID : Int32)
  | unassigned
  deriving DecidableEq

inductive ServiceCall
  | appendRaw (data : ByteString) (acks : Acks) (io : Faults)
  /-- what a fetch of a follower does to the leader -/
  | updateFollowerLEO (brokerID : Int32) (leo : Nat)
  | updateLeaderISR (epoch : Int32) (ids : List Int32)
  | demote (role : Demotion)
  | close

/-- Where a goroutine is. -/
inductive Place
  /-- `AppendRaw`, before the checks it makes without a lock -/
  | request (data : ByteString) (acks : Acks) (io : Faults)
  /-- before `appendMu.Lock` -/
  | waiting (data : ByteString) (acks : Acks) (io : Faults)
  | checkClosed (data : ByteString) (acks : Acks) (io : Faults)
  | checkLeader (data : ByteString) (acks : Acks) (io : Faults)
  /-- before the append to the log -/
  | store (data : ByteString) (acks : Acks) (io : Faults)
  /-- the records are in the log and the entry is not in the purgatory yet -/
  | push (requiredHW : Nat)
  /-- before the `appendMu.Unlock` that `maybeAdvanceHW` follows -/
  | pushed
  /-- before an `appendMu.Unlock` that nothing follows -/
  | unlocking
  /-- `updateFollowerLEO`, before it notes the position -/
  | note (brokerID : Int32) (leo : Nat)
  /-- `UpdateLeaderISR`, before `appendMu.Lock` -/
  | isrWaiting (epoch : Int32) (ids : List Int32)
  | isrLocked (epoch : Int32) (ids : List Int32)
  /-- in `maybeAdvanceHW`, with `appendMu` if it is called by `UpdateLeaderISR` -/
  | advancing (held : Bool) (phase : AdvancePhase)
  /-- `MakeFollower` or `MakeUnassigned`, before `appendMu.Lock` -/
  | roleWaiting (role : Demotion)
  | roleLocked (role : Demotion)
  /-- not leader any more, before it takes the in-sync set away -/
  | roleStored (role : Demotion)
  | roleAssigned
  /-- before its `failPurgatory` -/
  | roleFailing
  /-- `Close`, before `closeOnce` -/
  | closeOnce
  | closeWaiting
  | closeLocked
  | closeUnlocking
  /-- before a last `notifyWaiters` -/
  | notify
  | done

def Acks.valid : Acks → Bool
  | .invalid _ => false
  | _ => true

namespace Partition

/-- The checks `AppendRaw` makes before it locks. -/
def admits (p : Partition) (data : ByteString) (acks : Acks) : Bool :=
  p.isLeader && !p.closed && decide (recordBatchOverhead ≤ data.length) && acks.valid

theorem storeRaw_of_admits (crc : Checksum) {p : Partition} {data : ByteString} {acks : Acks}
    (h : p.admits data acks = true) (io : Faults) :
    p.storeRaw crc data acks io = p.storeLocked crc data acks io := by
  simp only [admits, Bool.and_eq_true, Bool.not_eq_true', decide_eq_true_eq] at h
  obtain ⟨⟨⟨hl, hc⟩, hlen⟩, hacks⟩ := h
  unfold storeRaw
  rw [hl, hc, if_neg (by decide), if_neg (by decide), if_neg (Nat.not_lt.mpr hlen)]
  cases acks with
  | invalid value => cases hacks
  | all => rfl
  | none => rfl
  | leader => rfl

theorem storeRaw_of_not_admits (crc : Checksum) {p : Partition} {data : ByteString}
    {acks : Acks} (h : p.admits data acks = false) (io : Faults) :
    ∃ e, p.storeRaw crc data acks io = (.error e, p) := by
  unfold storeRaw
  split
  · exact ⟨_, rfl⟩
  split
  · exact ⟨_, rfl⟩
  split
  · exact ⟨_, rfl⟩
  rename_i hl hc hlen
  simp only [admits, Bool.not_eq_true', Bool.not_eq_false, Bool.not_eq_true] at hl hc h
  rw [hl, hc, decide_eq_true (Nat.not_lt.mp hlen)] at h
  cases acks with
  | invalid value => exact ⟨_, rfl⟩
  | all => cases h
  | none => cases h
  | leader => cases h

/-- The section of `MakeFollower` or `MakeUnassigned` under `isrMu`. -/
def assign (p : Partition) : Demotion → Partition
  | .follower epoch leaderID => { p with leaderEpoch := epoch, leaderID := leaderID, isr := [] }
  | .unassigned => { p with leaderID := -1, isr := [] }

end Partition

/-- What a step of `maybeAdvanceHW` does to the heap. -/
def Purgatory.advance (q : Purgatory) : AdvancePhase → Purgatory
  | .drain hw _ => q.drain hw
  | _ => q

namespace Place

def entry : ServiceCall → Place
  | .appendRaw data acks io => .request data acks io
  | .updateFollowerLEO brokerID leo => .note brokerID leo
  | .updateLeaderISR epoch ids => .isrWaiting epoch ids
  | .demote role => .roleWaiting role
  | .close => .closeOnce

/-- The place a `Lock` of `appendMu` leads to. -/
def locks : Place → Option Place
  | .waiting data acks io => some (.checkClosed data acks io)
  | .isrWaiting epoch ids => some (.isrLocked epoch ids)
  | .roleWaiting role => some (.roleLocked role)
  | .closeWaiting => some .closeLocked
  | _ => none

/-- The place an `Unlock` of `appendMu` leads to. -/
def unlocks : Place → Option Place
  | .pushed => some (.advancing false .start)
  | .unlocking => some .done
  | .advancing true .done => some .done
  | .roleAssigned => some .roleFailing
  | .closeUnlocking => some .notify
  | _ => none

/-- A step that neither takes `appendMu` nor gives it back. -/
def work (crc : Checksum) (p : Partition) (q : Purgatory) :
    Place → Partition × Purgatory × Place
  | .request data acks io => (p, q, if p.admits data acks then .waiting data acks io else .done)
  | .checkClosed data acks io =>
      (p, q, if p.closed then .unlocking else .checkLeader data acks io)
  | .checkLeader data acks io => (p, q, if p.isLeader then .store data acks io else .unlocking)
  | .store data acks io =>
      match p.log.appendRaw crc data p.leaderEpoch io with
      | (.error _, l) => ({ p with log := l }, q, .unlocking)
      | (.ok (firstOffset, lod), l) =>
          ({ p with log := l }.notifyWaiters, q,
            if acks = .all then .push ((firstOffset + lod + 1) % 2 ^ 64) else .pushed)
  | .push requiredHW => (p.pushPurgatory requiredHW, q.wait requiredHW, .pushed)
  | .note brokerID leo =>
      ({ p with isr := Partition.setLEO brokerID leo p.isr }, q, .advancing false .start)
  | .isrLocked epoch ids =>
      match p.setISR epoch ids with
      | (.error _, p) => (p, q, .unlocking)
      | (.ok (), p) => (p, q, .advancing true .start)
  | .advancing held phase =>
      ((p.advance phase).1, q.advance phase, .advancing held (p.advance phase).2)
  | .roleLocked role => ({ p with isLeader := false }, q, .roleStored role)
  | .roleStored role => (p.assign role, q, .roleAssigned)
  | .roleFailing => (p.failPurgatory .notLeaderOrFollower, q.fail .notLeaderOrFollower, .notify)
  | .closeOnce => if p.closed then (p, q, .done) else ({ p with closed := true }, q, .closeWaiting)
  | .closeLocked => (p.failPurgatory .storageError, q.fail .storageError, .closeUnlocking)
  | .notify => (p.notifyWaiters, q, .done)
  | place => (p, q, place)

end Place

/-- A partition with its heap of waiting producers, the goroutines that are in one of
its calls, and the one that holds `appendMu`. -/
structure Service where
  p : Partition
  q : Purgatory
  routines : List Place
  holder : Option Nat

inductive ServiceEvent
  | call (c : ServiceCall)
  /-- a goroutine takes its next step, if it does not wait for `appendMu` -/
  | go (i : Nat)
  /-- the context of a request is done -/
  | expire (id : Nat)

namespace Service

def go (crc : Checksum) (s : Service) (i : Nat) (place : Place) : Service :=
  match place.locks with
  | some next =>
      if s.holder = none then { s with routines := s.routines.set i next, holder := some i } else s
  | none =>
    match place.unlocks with
    | some next => { s with routines := s.routines.set i next, holder := none }
    | none =>
        ⟨(place.work crc s.p s.q).1, (place.work crc s.p s.q).2.1,
          s.routines.set i (place.work crc s.p s.q).2.2, s.holder⟩

def step (crc : Checksum) (s : Service) : ServiceEvent → Unit × Service
  | .call c => ((), { s with routines := s.routines ++ [Place.entry c] })
  | .go i =>
      match s.routines[i]? with
      | none => ((), s)
      | some place => ((), s.go crc i place)
  | .expire id => ((), { s with p := s.p.expire id, q := s.q.expire id })

def start (p : Partition) : Service := ⟨p, ⟨[], []⟩, [], none⟩

/-! ## A goroutine alone -/

/-- `n` steps of the only goroutine. -/
def goes (crc : Checksum) (s : Service) (n : Nat) : Service :=
  Runs.final (step crc) s (List.replicate n (.go 0))

theorem goes_add (crc : Checksum) (s : Service) (m n : Nat) :
    s.goes crc (m + n) = (s.goes crc m).goes crc n := by
  unfold goes
  rw [List.replicate_add, Runs.final_append]

theorem goes_done (crc : Checksum) (p : Partition) (q : Purgatory) (holder : Option Nat) :
    ∀ n, (goes crc ⟨p, q, [.done], holder⟩ n).p = p
  | 0 => rfl
  | n + 1 => goes_done crc p q holder n

theorem goes_advancing (crc : Checksum) (held : Bool) (holder : Option Nat) :
    ∀ (n : Nat) (p : Partition) (q : Purgatory) (phase : AdvancePhase),
      (goes crc ⟨p, q, [.advancing held phase], holder⟩ n).p = (p.advanceAlone phase n).1 := by
  intro n
  induction n with
  | zero => intro p q phase; rfl
  | succ n ih =>
    intro p q phase
    by_cases hdone : held = true ∧ phase = .done
    · obtain ⟨rfl, rfl⟩ := hdone
      rw [Partition.advanceAlone_done]
      exact goes_done crc p q none n
    · have hnext : (step crc ⟨p, q, [.advancing held phase], holder⟩ (.go 0)).2 =
          ⟨(p.advance phase).1, q.advance phase, [.advancing held (p.advance phase).2],
            holder⟩ := by
        cases held with
        | false => cases phase <;> rfl
        | true =>
          cases phase with
          | done => exact absurd ⟨rfl, rfl⟩ hdone
          | _ => rfl
      exact (congrArg (fun s => (goes crc s n).p) hnext).trans (ih _ _ _)

/-- The steps of `maybeAdvanceHW` add up to it. -/
theorem goes_maybeAdvanceHW (crc : Checksum) (p : Partition) (q : Purgatory) (held : Bool)
    (holder : Option Nat) (n : Nat) :
    (goes crc ⟨p, q, [.advancing held .start], holder⟩ (5 + n)).p = p.maybeAdvanceHW := by
  rw [goes_advancing, Partition.advanceAlone_add, Partition.advanceAlone_start,
    Partition.advanceAlone_done]

theorem goes_demote (crc : Checksum) (p : Partition) (q : Purgatory) (role : Demotion) (n : Nat) :
    (goes crc ⟨p, q, [Place.entry (.demote role)], none⟩ (6 + n)).p =
      match role with
      | .follower epoch leaderID => p.makeFollower epoch leaderID
      | .unassigned => p.makeUnassigned := by
  rw [goes_add]
  cases role <;> exact goes_done crc _ _ none n

theorem goes_close (crc : Checksum) (p : Partition) (q : Purgatory) (n : Nat) :
    (goes crc ⟨p, q, [Place.entry .close], none⟩ (5 + n)).p = p.close := by
  have hfirst : goes crc ⟨p, q, [Place.entry .close], none⟩ 1 =
      if p.closed then ⟨p, q, [.done], none⟩
      else ⟨{ p with closed := true }, q, [.closeWaiting], none⟩ := by
    cases hc : p.closed <;>
      simp [goes, Runs.final, step, go, Place.entry, Place.locks, Place.unlocks, Place.work, hc]
  rw [Nat.add_assoc 1 4 n, goes_add, hfirst]
  unfold Partition.close
  split
  · exact goes_done crc p q none (4 + n)
  · rw [goes_add]
    exact goes_done crc _ _ none n

theorem goes_updateFollowerLEO (crc : Checksum) (p : Partition) (q : Purgatory)
    (brokerID : Int32) (leo n : Nat) :
    (goes crc ⟨p, q, [Place.entry (.updateFollowerLEO brokerID leo)], none⟩ (6 + n)).p =
      p.updateFollowerLEO brokerID leo := by
  rw [Nat.add_assoc 1 5 n, goes_add]
  exact goes_maybeAdvanceHW crc _ q false none n

theorem goes_updateLeaderISR (crc : Checksum) (p : Partition) (q : Purgatory) (epoch : Int32)
    (ids : List Int32) (n : Nat) :
    (goes crc ⟨p, q, [Place.entry (.updateLeaderISR epoch ids)], none⟩ (7 + n)).p =
      (p.updateLeaderISR epoch ids).2 := by
  rw [Nat.add_assoc 2 5 n, goes_add, Partition.updateLeaderISR]
  rcases p.setISR_cases epoch ids with ⟨e, hset⟩ | hset
  · have hsecond : goes crc ⟨p, q, [Place.entry (.updateLeaderISR epoch ids)], none⟩ 2 =
        ⟨p, q, [.unlocking], some 0⟩ := by
      simp [goes, Runs.final, List.replicate, step, go, Place.entry, Place.locks, Place.unlocks,
        Place.work, hset]
    rw [hsecond, hset, Nat.add_assoc 1 4 n, goes_add]
    exact goes_done crc p q none (4 + n)
  · have hsecond : goes crc ⟨p, q, [Place.entry (.updateLeaderISR epoch ids)], none⟩ 2 =
        ⟨(p.setISR epoch ids).2, q, [.advancing true .start], some 0⟩ := by
      simp [goes, Runs.final, List.replicate, step, go, Place.entry, Place.locks, Place.unlocks,
        Place.work, hset]
    rw [hsecond, hset]
    exact goes_maybeAdvanceHW crc _ q true (some 0) n

theorem goes_push (crc : Checksum) (p : Partition) (q : Purgatory) (r n : Nat) :
    (goes crc ⟨p, q, [.push r], some 0⟩ (7 + n)).p = (p.pushPurgatory r).maybeAdvanceHW := by
  have hsecond : goes crc ⟨p, q, [.push r], some 0⟩ 2 =
      ⟨p.pushPurgatory r, q.wait r, [.advancing false .start], none⟩ := rfl
  rw [Nat.add_assoc 2 5 n, goes_add, hsecond]
  exact goes_maybeAdvanceHW crc _ _ false none n

theorem goes_pushed (crc : Checksum) (p : Partition) (q : Purgatory) (n : Nat) :
    (goes crc ⟨p, q, [.pushed], some 0⟩ (7 + n)).p = p.maybeAdvanceHW := by
  have hfirst : goes crc ⟨p, q, [.pushed], some 0⟩ 1 =
      ⟨p, q, [.advancing false .start], none⟩ := rfl
  rw [Nat.add_assoc 1 6 n, goes_add, hfirst, Nat.add_assoc 5 1 n]
  exact goes_maybeAdvanceHW crc _ _ false none (1 + n)

theorem goes_store (crc : Checksum) (p : Partition) (q : Purgatory) (data : ByteString)
    {acks : Acks} (hadm : p.admits data acks = true) (io : Faults) (n : Nat) :
    (goes crc ⟨p, q, [.store data acks io], some 0⟩ (8 + n)).p =
      (p.appendRaw crc data acks io).2 := by
  rw [Nat.add_assoc 1 7 n, goes_add, Partition.appendRaw, Partition.storeRaw_of_admits crc hadm,
    Partition.storeLocked]
  cases hlog : p.log.appendRaw crc data p.leaderEpoch io with
  | mk r l =>
    cases r with
    | error e =>
      have hfirst : goes crc ⟨p, q, [.store data acks io], some 0⟩ 1 =
          ⟨{ p with log := l }, q, [.unlocking], some 0⟩ := by
        simp [goes, Runs.final, step, go, Place.locks, Place.unlocks, Place.work, hlog]
      rw [hfirst, Nat.add_assoc 1 6 n, goes_add]
      exact goes_done crc _ q none (6 + n)
    | ok x =>
      have hfirst : goes crc ⟨p, q, [.store data acks io], some 0⟩ 1 =
          ⟨{ p with log := l }.notifyWaiters, q,
            [if acks = .all then .push ((x.1 + x.2 + 1) % 2 ^ 64) else .pushed], some 0⟩ := by
        simp [goes, Runs.final, step, go, Place.locks, Place.unlocks, Place.work, hlog]
      rw [hfirst]
      by_cases hall : acks = .all
      · simp only [if_pos hall]
        exact goes_push crc _ q _ n
      · simp only [if_neg hall]
        exact goes_pushed crc _ q n

theorem goes_appendRaw (crc : Checksum) (p : Partition) (q : Purgatory) (data : ByteString)
    (acks : Acks) (io : Faults) (n : Nat) :
    (goes crc ⟨p, q, [Place.entry (.appendRaw data acks io)], none⟩ (12 + n)).p =
      (p.appendRaw crc data acks io).2 := by
  have hfirst : goes crc ⟨p, q, [Place.entry (.appendRaw data acks io)], none⟩ 1 =
      ⟨p, q, [if p.admits data acks then .waiting data acks io else .done], none⟩ := rfl
  rw [Nat.add_assoc 1 11 n, goes_add, hfirst]
  cases hadm : p.admits data acks with
  | false =>
    obtain ⟨e, hstore⟩ := Partition.storeRaw_of_not_admits crc hadm io
    rw [Partition.appendRaw, hstore]
    exact goes_done crc p q none (11 + n)
  | true =>
    have hchecks := hadm
    simp only [Partition.admits, Bool.and_eq_true, Bool.not_eq_true'] at hchecks
    have hthird : goes crc ⟨p, q, [.waiting data acks io], none⟩ 3 =
        ⟨p, q, [.store data acks io], some 0⟩ := by
      simp [goes, Runs.final, List.replicate, step, go, Place.locks, Place.unlocks, Place.work,
        hchecks]
    rw [if_pos rfl, Nat.add_assoc 3 8 n, goes_add, hthird]
    exact goes_store crc p q data hadm io n

end Service

/-- What a call does as one operation on the partition. -/
def ServiceCall.effect (crc : Checksum) (p : Partition) : ServiceCall → Partition
  | .appendRaw data acks io => (p.appendRaw crc data acks io).2
  | .updateFollowerLEO brokerID leo => p.updateFollowerLEO brokerID leo
  | .updateLeaderISR epoch ids => (p.updateLeaderISR epoch ids).2
  | .demote (.follower epoch leaderID) => p.makeFollower epoch leaderID
  | .demote .unassigned => p.makeUnassigned
  | .close => p.close

namespace Service

/-- The steps of a call that nobody interrupts add up to the operation: after twelve of
them the partition is as the operation leaves it, and stays so. -/
theorem call_alone (crc : Checksum) (p : Partition) (q : Purgatory) (c : ServiceCall) (n : Nat) :
    (goes crc ⟨p, q, [Place.entry c], none⟩ (12 + n)).p = c.effect crc p := by
  cases c with
  | appendRaw data acks io => exact goes_appendRaw crc p q data acks io n
  | updateFollowerLEO brokerID leo =>
    rw [Nat.add_assoc 6 6 n]
    exact goes_updateFollowerLEO crc p q brokerID leo (6 + n)
  | updateLeaderISR epoch ids =>
    rw [Nat.add_assoc 7 5 n]
    exact goes_updateLeaderISR crc p q epoch ids (5 + n)
  | demote role =>
    rw [Nat.add_assoc 6 6 n, goes_demote]
    cases role <;> rfl
  | close =>
    rw [Nat.add_assoc 5 7 n]
    exact goes_close crc p q (7 + n)

/-! ## The heap and the list -/

/-- The heap is in order and holds what the partition's list says. -/
structure Tracked (p : Partition) (q : Purgatory) : Prop where
  wf : q.Wf
  represents : Purgatory.Represents p q

/-- Nothing else of a partition matters. -/
theorem Tracked.congr {p p' : Partition} {q : Purgatory} (h : Tracked p q)
    (hpurgatory : p'.purgatory = p.purgatory) (hpushed : p'.pushed = p.pushed)
    (hdone : p'.done = p.done) : Tracked p' q := by
  refine ⟨h.wf, hpushed.trans h.represents.pushed, ?_, fun id err => ?_⟩
  · rw [hpurgatory]
    exact h.represents.waiting
  · rw [hdone]
    exact h.represents.done id err

theorem Tracked.drain {p : Partition} {q : Purgatory} (h : Tracked p q) (hw : Nat) :
    Tracked (p.drainPurgatory hw) (q.drain hw) :=
  ⟨(h.wf.drain hw).wf, h.represents.drain h.wf hw⟩

theorem Tracked.fail {p : Partition} {q : Purgatory} (h : Tracked p q) (err : ErrorCode) :
    Tracked (p.failPurgatory err) (q.fail err) :=
  ⟨(h.wf.fail err).wf, h.represents.fail h.wf err⟩

theorem Tracked.advance {p : Partition} {q : Purgatory} (h : Tracked p q) (phase : AdvancePhase) :
    Tracked (p.advance phase).1 (q.advance phase) := by
  cases phase with
  | start => simp only [Partition.advance]; split <;> exact h
  | checked => simp only [Partition.advance]; split <;> exact h
  | read newHW => simp only [Partition.advance]; split <;> exact h
  | loaded newHW current =>
    simp only [Partition.advance]
    split
    · exact h.congr rfl rfl rfl
    · exact h
  | drain hw moved =>
    simp only [Partition.advance]
    split
    · exact (h.drain hw).congr rfl rfl rfl
    · exact h.drain hw
  | done => exact h

theorem Tracked.work {p : Partition} {q : Purgatory} (h : Tracked p q) (crc : Checksum)
    (place : Place) : Tracked (place.work crc p q).1 (place.work crc p q).2.1 := by
  cases place with
  | store data acks io =>
    simp only [Place.work]
    split <;> exact h.congr rfl rfl rfl
  | push r => exact ⟨(h.wf.wait r).wf, h.represents.wait h.wf r⟩
  | note brokerID leo => exact h.congr rfl rfl rfl
  | isrLocked epoch ids =>
    simp only [Place.work]
    rcases p.setISR_cases epoch ids with ⟨e, hset⟩ | hset
    · rw [hset]
      exact h
    · rw [hset]
      exact h.congr rfl rfl rfl
  | advancing held phase => exact h.advance phase
  | roleLocked role => exact h.congr rfl rfl rfl
  | roleStored role => cases role <;> exact h.congr rfl rfl rfl
  | roleFailing => exact h.fail _
  | closeOnce =>
    simp only [Place.work]
    split
    · exact h
    · exact h.congr rfl rfl rfl
  | closeLocked => exact h.fail _
  | notify => exact h.congr rfl rfl rfl
  | _ => exact h

theorem Tracked.go {s : Service} (h : Tracked s.p s.q) (crc : Checksum) (i : Nat)
    (place : Place) : Tracked (s.go crc i place).p (s.go crc i place).q := by
  unfold Service.go
  split
  · split <;> exact h
  split
  · exact h
  · exact h.work crc place

theorem Tracked.step {s : Service} (h : Tracked s.p s.q) (crc : Checksum) (e : ServiceEvent) :
    Tracked (s.step crc e).2.p (s.step crc e).2.q := by
  cases e with
  | call c => exact h
  | go i =>
    cases hi : s.routines[i]? with
    | none => simpa only [Service.step, hi] using h
    | some place => simpa only [Service.step, hi] using h.go crc i place
  | expire id => exact ⟨(h.wf.expire id).wf, h.represents.expire h.wf id⟩

/-- In every run the list of waiting producers stands for the heap. -/
theorem tracked_run (crc : Checksum) {p : Partition} (hpurgatory : p.purgatory = [])
    (hpushed : p.pushed = 0) (hdone : p.done = []) (run : List ServiceEvent) :
    Tracked (Runs.final (step crc) (start p) run).p (Runs.final (step crc) (start p) run).q := by
  refine Runs.invariant (step crc) (P := fun s => Tracked s.p s.q) (fun s e h => h.step crc e)
    ⟨Purgatory.wf_nil, hpushed, ?_, fun id err => ?_⟩ run
  · show p.purgatory.Perm []
    rw [hpurgatory]
  · show (id, err) ∈ p.done ↔ ∃ r, Purgatory.seen ⟨[], []⟩ id = some (r, err, 1)
    rw [hdone]
    simp [Purgatory.seen]

/-- The leader of an in-sync set with one follower. -/
def pairLeader : Partition :=
  ((newPartition 1 (Log.fresh Log.tightConfig)).makeLeader 1 [1, 2] 0 .none).2

/-- Two producers wait; the request of the first one expires. -/
def waitingPair : List ServiceEvent :=
  List.flatten [
    [.call (.appendRaw (Log.sampleRequest 1) .all .none)], List.replicate 11 (.go 0),
    [.call (.appendRaw (Log.sampleRequest 1) .all .none)], List.replicate 11 (.go 1),
    [.expire 0]]

theorem tracked_run_waitingPair :
    let s := Runs.final (step crc32c) (start pairLeader) waitingPair
    s.p.purgatory = [⟨1, 2⟩] ∧ s.p.done = [(0, some .requestTimedOut)] ∧ Tracked s.p s.q :=
  ⟨by decide +kernel, by decide +kernel,
    tracked_run crc32c (by decide +kernel) (by decide +kernel) (by decide +kernel) waitingPair⟩

end Service

end MessageBroker.Broker
