import MessageBroker.Lib.Runs
import MessageBroker.Broker.PartitionRaw
import MessageBroker.Storage.EndOffset

/-!
# The operations of a partition

One call of an exported method is one operation. The lemmas say once what each
method can do to a partition: which calls leave it alone, and what the others
change of the log, the role, the high watermark and the wake-ups.
-/
namespace MessageBroker.Broker

open Lib.Bytes Lib Storage

inductive Operation
  | makeLeader (epoch : Int32) (initialISR : List Int32) (initialHW : Nat)
  | makeFollower (epoch leaderID : Int32)
  | makeUnassigned
  | updateLeaderISR (epoch : Int32) (ids : List Int32)
  | append (batch : Batch) (acks : Acks)
  | appendRaw (data : ByteString) (acks : Acks)
  | appendFromLeader (data : ByteString) (fetchEpoch : Int32) (leaderHW : Nat)
  | truncateTo (offset : Nat)
  | fetchRaw (fetchOffset : Nat) (replicaID maxBytes : Int32)
  | fetchRawRanges (fetchOffset : Nat) (replicaID maxBytes : Int32)
      (allowOversizedFirstBatch : Bool)
  | close

namespace Partition

/-- The error a call returns, if any, and the partition it leaves. -/
def answer {α : Type} (r : Except PartitionError α × Partition) :
    Option PartitionError × Partition :=
  match r.1 with
  | .error e => (some e, r.2)
  | .ok _ => (none, r.2)

@[simp] theorem answer_snd {α : Type} (r : Except PartitionError α × Partition) :
    (answer r).2 = r.2 := by
  unfold answer
  split <;> rfl

/-- One operation with the file operations that fail in it. -/
def perform (crc : Checksum) (p : Partition) (x : Operation × Faults) :
    Option PartitionError × Partition :=
  match x.1 with
  | .makeLeader epoch initialISR initialHW => answer (p.makeLeader epoch initialISR initialHW x.2)
  | .makeFollower epoch leaderID => (none, p.makeFollower epoch leaderID)
  | .makeUnassigned => (none, p.makeUnassigned)
  | .updateLeaderISR epoch ids => answer (p.updateLeaderISR epoch ids)
  | .append batch acks => answer (p.append crc batch acks x.2)
  | .appendRaw data acks => answer (p.appendRaw crc data acks x.2)
  | .appendFromLeader data fetchEpoch leaderHW =>
      answer (p.appendFromLeader crc data fetchEpoch leaderHW x.2)
  | .truncateTo offset => answer (p.truncateTo offset x.2)
  | .fetchRaw fetchOffset replicaID maxBytes => answer (p.fetchRaw fetchOffset replicaID maxBytes)
  | .fetchRawRanges fetchOffset replicaID maxBytes allowOversizedFirstBatch =>
      answer (p.fetchRawRanges fetchOffset replicaID maxBytes allowOversizedFirstBatch)
  | .close => (none, p.close)

/-! ## The high watermark -/

/-- What the in-sync replicas have in common, as far as the leader knows. -/
def commonLEO (p : Partition) : Nat := minLEO p.localBrokerID p.leo p.isr

theorem le_minLEO_iff {id : Int32} {n : Nat} {isr : List ISREntry} : ∀ {hw : Nat},
    n ≤ minLEO id hw isr ↔ n ≤ hw ∧ ∀ e ∈ isr, e.brokerID ≠ id → n ≤ e.leo := by
  induction isr with
  | nil => intro hw; simp [minLEO]
  | cons e es ih =>
    intro hw
    rw [minLEO, ih]
    by_cases hid : e.brokerID = id
    · simp [hid]
    · rw [if_neg hid]
      have hmin : (n ≤ if e.leo < hw then e.leo else hw) ↔ n ≤ hw ∧ n ≤ e.leo := by
        split <;> omega
      rw [hmin]
      simp [hid, and_assoc]

theorem minLEO_le (id : Int32) (hw : Nat) (isr : List ISREntry) : minLEO id hw isr ≤ hw :=
  (le_minLEO_iff.mp (Nat.le_refl _)).1

/-- `maybeAdvanceHW` does nothing on a partition that is not leader or has no
in-sync set, and otherwise raises the watermark to what the replicas have in
common, waking the fetches if that moves it. -/
theorem maybeAdvanceHW_cases (p : Partition) :
    ((p.isLeader = false ∨ p.isr = []) ∧ p.maybeAdvanceHW = p) ∨
    (p.isLeader = true ∧ p.isr ≠ [] ∧ p.commonLEO ≤ p.highWatermark ∧
      p.maybeAdvanceHW = p.drainPurgatory p.highWatermark) ∨
    (p.isLeader = true ∧ p.isr ≠ [] ∧ p.highWatermark < p.commonLEO ∧
      p.maybeAdvanceHW =
        ({ p with highWatermark := p.commonLEO }.drainPurgatory p.commonLEO).notifyWaiters) := by
  unfold maybeAdvanceHW
  cases hl : p.isLeader with
  | false => exact .inl ⟨.inl rfl, rfl⟩
  | true =>
    by_cases hisr : p.isr = []
    · exact .inl ⟨.inr hisr, by simp [hisr]⟩
    · simp only [Bool.not_true, Bool.false_eq_true, if_false, hisr]
      by_cases hle : minLEO p.localBrokerID p.leo p.isr ≤ p.highWatermark
      · exact .inr (.inl ⟨trivial, hisr, hle, if_pos hle⟩)
      · exact .inr (.inr ⟨trivial, hisr, not_le.mp hle, if_neg hle⟩)

/-- The watermark rises or stays, and a rise wakes the fetches. -/
theorem maybeAdvanceHW_rises (p : Partition) :
    p.maybeAdvanceHW.highWatermark = p.highWatermark ∧ p.maybeAdvanceHW.notified = p.notified ∨
    p.isr ≠ [] ∧ p.highWatermark < p.commonLEO ∧ p.maybeAdvanceHW.highWatermark = p.commonLEO ∧
      p.maybeAdvanceHW.notified = p.notified + 1 := by
  rcases p.maybeAdvanceHW_cases with ⟨-, h⟩ | ⟨-, -, -, h⟩ | ⟨-, hisr, hlt, h⟩
  · exact .inl ⟨by rw [h], by rw [h]⟩
  · exact .inl ⟨by rw [h]; rfl, by rw [h]; rfl⟩
  · exact .inr ⟨hisr, hlt, by rw [h]; rfl, by rw [h]; rfl⟩

@[simp] theorem maybeAdvanceHW_isr (p : Partition) : p.maybeAdvanceHW.isr = p.isr := by
  obtain ⟨_, _, _, _, h⟩ := p.maybeAdvanceHW_frame
  rw [h]

@[simp] theorem maybeAdvanceHW_closed (p : Partition) : p.maybeAdvanceHW.closed = p.closed := by
  obtain ⟨_, _, _, _, h⟩ := p.maybeAdvanceHW_frame
  rw [h]

@[simp] theorem maybeAdvanceHW_localBrokerID (p : Partition) :
    p.maybeAdvanceHW.localBrokerID = p.localBrokerID := by
  obtain ⟨_, _, _, _, h⟩ := p.maybeAdvanceHW_frame
  rw [h]

@[simp] theorem maybeAdvanceHW_leo (p : Partition) : p.maybeAdvanceHW.leo = p.leo := by
  rw [leo, maybeAdvanceHW_log, leo]

/-! ## What each method can do -/

section Methods

variable (crc : Checksum) (p : Partition) (io : Faults)

/-- What no operation but a truncation or an append moves. -/
structure SameLog (p p' : Partition) : Prop where
  oldest : p'.log.oldestOffset = p.log.oldestOffset
  leo : p'.leo = p.leo

/-- A leadership that ended or could not start. -/
structure StepsDown (p p' : Partition) : Prop extends SameLog p p' where
  highWatermark : p'.highWatermark = p.highWatermark
  isLeader : p'.isLeader = false
  notified : p'.notified = p.notified + 1

theorem makeFollower_stepsDown (epoch leaderID : Int32) :
    StepsDown p (p.makeFollower epoch leaderID) :=
  ⟨⟨rfl, rfl⟩, rfl, rfl, rfl⟩

theorem makeUnassigned_stepsDown : StepsDown p p.makeUnassigned := ⟨⟨rfl, rfl⟩, rfl, rfl, rfl⟩

/-- `MakeLeader` goes through: the epoch is not older than the latest one, and the
log takes and persists it at its end. -/
def takesEpoch (epoch : Int32) : Bool :=
  (match p.log.latestLeaderEpoch with
    | some latest => decide (latest ≤ epoch)
    | none => true) &&
  match (p.log.assignLeaderEpoch epoch p.leo io).1 with
  | .ok () => true
  | .error _ => false

/-- A leadership that starts with every replica's end offset unknown. -/
structure StepsUp (p p' : Partition) (initialISR : List Int32) (initialHW : Nat) : Prop extends
    SameLog p p' where
  highWatermark : p'.highWatermark = initialHW
  isLeader : p'.isLeader = true
  isr : p'.isr = initialISR.map fun id => ⟨id, 0⟩
  localBrokerID : p'.localBrokerID = p.localBrokerID
  notified : p'.notified = p.notified + 1

theorem becomeLeader_cases (epoch : Int32) (initialISR : List Int32) (initialHW : Nat) :
    (∃ e p', p.becomeLeader epoch initialISR initialHW io = (.error e, p') ∧ StepsDown p p' ∧
      ∃ e, (p.log.assignLeaderEpoch epoch p.leo io).1 = .error e) ∨
    ∃ p', p.becomeLeader epoch initialISR initialHW io = (.ok (), p') ∧
      StepsUp p p' initialISR initialHW ∧
      (p.log.assignLeaderEpoch epoch p.leo io).1 = .ok () := by
  unfold becomeLeader
  obtain ⟨r, cache, file, dirty, ha⟩ := p.log.assignLeaderEpochs_frame [⟨epoch, p.leo⟩] io
  rw [Log.assignLeaderEpoch, ha]
  cases r with
  | error e => exact .inl ⟨_, _, rfl, ⟨⟨rfl, rfl⟩, rfl, rfl, rfl⟩, e, rfl⟩
  | ok _ => exact .inr ⟨_, rfl, ⟨⟨rfl, rfl⟩, rfl, rfl, rfl, rfl, rfl⟩, rfl⟩

theorem makeLeader_cases (epoch : Int32) (initialISR : List Int32) (initialHW : Nat) :
    p.takesEpoch io epoch = false ∧ (∃ e p', p.makeLeader epoch initialISR initialHW io =
      (.error e, p') ∧ (p' = p ∨ StepsDown p p')) ∨
    p.takesEpoch io epoch = true ∧ ∃ p', p.makeLeader epoch initialISR initialHW io =
      (.ok (), p') ∧ StepsUp p p' initialISR initialHW := by
  unfold makeLeader takesEpoch
  have hgo : ∀ ok : Bool, ok = true →
      (ok && match (p.log.assignLeaderEpoch epoch p.leo io).1 with
        | .ok () => true
        | .error _ => false) = false ∧
        (∃ e p', p.becomeLeader epoch initialISR initialHW io = (.error e, p') ∧
          (p' = p ∨ StepsDown p p')) ∨
      (ok && match (p.log.assignLeaderEpoch epoch p.leo io).1 with
        | .ok () => true
        | .error _ => false) = true ∧
        ∃ p', p.becomeLeader epoch initialISR initialHW io = (.ok (), p') ∧
          StepsUp p p' initialISR initialHW := by
    rintro _ rfl
    rcases p.becomeLeader_cases io epoch initialISR initialHW with
      ⟨e, p', hb, hdown, e', he⟩ | ⟨p', hb, hup, he⟩
    · exact .inl ⟨by rw [he]; rfl, e, p', hb, .inr hdown⟩
    · exact .inr ⟨by rw [he]; rfl, p', hb, hup⟩
  cases p.log.latestLeaderEpoch with
  | none => exact hgo _ rfl
  | some latest =>
    by_cases hstale : epoch < latest
    · simp only [if_pos hstale]
      refine .inl ⟨?_, _, p, rfl, .inl rfl⟩
      rw [decide_eq_false (not_le.mpr hstale)]
      rfl
    · simp only [if_neg hstale]
      exact hgo _ (decide_eq_true (not_lt.mp hstale))

theorem updateLeaderISR_cases (epoch : Int32) (ids : List Int32) :
    (∃ e, p.updateLeaderISR epoch ids = (.error e, p)) ∨
    ∃ isr, p.updateLeaderISR epoch ids = (.ok (), { p with isr := isr }.maybeAdvanceHW) := by
  unfold updateLeaderISR
  rcases p.setISR_cases epoch ids with ⟨e, hs⟩ | hs
  · exact .inl ⟨e, by rw [hs]⟩
  · exact .inr ⟨_, by rw [hs]⟩

theorem noted_cases (fetchOffset : Nat) (replicaID : Int32) :
    ∃ q, (if decide (0 ≤ replicaID) then p.updateFollowerLEO replicaID fetchOffset else p) = q ∧
      (q = p ∨ q = p.updateFollowerLEO replicaID fetchOffset) :=
  ⟨_, rfl, (ite_eq_or_eq _ _ _).symm⟩

/-- A fetch is refused or reads only, or it notes a follower's position. -/
theorem fetchRaw_cases (fetchOffset : Nat) (replicaID maxBytes : Int32) :
    ∃ r p', p.fetchRaw fetchOffset replicaID maxBytes = (r, p') ∧
      (p' = p ∨ p' = p.updateFollowerLEO replicaID fetchOffset) := by
  unfold fetchRaw
  simp only
  split
  · exact ⟨_, p, rfl, .inl rfl⟩
  split
  · exact ⟨_, p, rfl, .inl rfl⟩
  split
  · exact ⟨_, p, rfl, .inl rfl⟩
  split
  · exact ⟨_, p, rfl, .inl rfl⟩
  split
  · exact ⟨_, _, rfl, .inr rfl⟩
  split
  · exact ⟨_, p, rfl, .inl rfl⟩
  obtain ⟨q, hq, hnoted⟩ := p.noted_cases fetchOffset replicaID
  rw [hq]
  split
  · split
    · exact ⟨_, _, rfl, hnoted⟩
    · exact ⟨_, _, rfl, hnoted⟩
  · exact ⟨_, _, rfl, hnoted⟩

theorem fetchRawRanges_cases (fetchOffset : Nat) (replicaID maxBytes : Int32)
    (allowOversizedFirstBatch : Bool) :
    ∃ r p', p.fetchRawRanges fetchOffset replicaID maxBytes allowOversizedFirstBatch = (r, p') ∧
      (p' = p ∨ p' = p.updateFollowerLEO replicaID fetchOffset) := by
  unfold fetchRawRanges
  simp only
  split
  · exact ⟨_, p, rfl, .inl rfl⟩
  split
  · exact ⟨_, p, rfl, .inl rfl⟩
  split
  · exact ⟨_, p, rfl, .inl rfl⟩
  split
  · exact ⟨_, p, rfl, .inl rfl⟩
  split
  · exact ⟨_, _, rfl, .inr rfl⟩
  split
  · exact ⟨_, p, rfl, .inl rfl⟩
  obtain ⟨q, hq, hnoted⟩ := p.noted_cases fetchOffset replicaID
  rw [hq]
  split
  · exact ⟨_, _, rfl, hnoted⟩
  split
  · split
    · exact ⟨_, _, rfl, hnoted⟩
    · exact ⟨_, _, rfl, hnoted⟩
  · exact ⟨_, _, rfl, hnoted⟩

/-- `AppendRaw` is refused before the log sees the request; or the log's error is
passed on; or the fetches are woken and the watermark is reconsidered. -/
theorem appendRaw_cases (data : ByteString) (acks : Acks) :
    (∃ e, p.appendRaw crc data acks io = (.error e, p)) ∨
    p.isLeader = true ∧ p.closed = false ∧
    ∃ r l, p.log.appendRaw crc data p.leaderEpoch io = (r, l) ∧
      ((∃ e e', r = .error e ∧ p.appendRaw crc data acks io = (.error e', { p with log := l })) ∨
        ∃ x y purgatory pushed, r = .ok x ∧ p.appendRaw crc data acks io = (.ok y,
          { p with
            log := l
            notified := p.notified + 1
            purgatory := purgatory
            pushed := pushed }.maybeAdvanceHW)) := by
  unfold appendRaw
  rcases p.storeRaw_cases crc data acks io with ⟨e, hs⟩ | ⟨hl, hc, r, l, hlog, hs⟩
  · exact .inl ⟨e, by rw [hs]⟩
  refine .inr ⟨hl, hc, r, l, hlog, ?_⟩
  rcases hs with ⟨e, e', he, hs⟩ | ⟨x, y, purgatory, pushed, hx, hs⟩
  · exact .inl ⟨e, e', he, by rw [hs]⟩
  · exact .inr ⟨x, y, purgatory, pushed, hx, by rw [hs]⟩

/-- `Append` alike, but for the wake-up and for unknown `acks`. -/
theorem append_cases (batch : Batch) (acks : Acks) :
    (∃ e, p.append crc batch acks io = (.error e, p)) ∧ (p.isLeader = false ∨ p.closed = true) ∨
    p.isLeader = true ∧ p.closed = false ∧
    ∃ r l, p.log.append crc batch io = (r, l) ∧
      ((∃ e e', r = .error e ∧ p.append crc batch acks io = (.error e', { p with log := l })) ∨
        ∃ x, r = .ok x ∧
          ((∃ value e, acks = .invalid value ∧
              p.append crc batch acks io = (.error e, { p with log := l })) ∨
            (∀ value, acks ≠ .invalid value) ∧ ∃ y purgatory pushed,
              p.append crc batch acks io = (.ok y,
                { p with
                  log := l
                  purgatory := purgatory
                  pushed := pushed }.maybeAdvanceHW))) := by
  unfold append
  cases hl : p.isLeader with
  | false => exact .inl ⟨⟨_, rfl⟩, .inl rfl⟩
  | true =>
    cases hc : p.closed with
    | true => exact .inl ⟨⟨_, rfl⟩, .inr rfl⟩
    | false =>
      rw [if_neg (by decide), if_neg (by decide)]
      refine .inr ⟨rfl, rfl, ?_⟩
      cases p.log.append crc batch io with
      | mk r l =>
        cases r with
        | error e => exact ⟨_, l, rfl, .inl ⟨_, _, rfl, rfl⟩⟩
        | ok x =>
          refine ⟨_, l, rfl, .inr ⟨x, rfl, ?_⟩⟩
          cases acks with
          | invalid value => exact .inl ⟨value, _, rfl, rfl⟩
          | all => exact .inr ⟨fun _ h => (by cases h), _, _, _, rfl⟩
          | none => exact .inr ⟨fun _ h => (by cases h), _, p.purgatory, p.pushed, rfl⟩
          | leader => exact .inr ⟨fun _ h => (by cases h), _, p.purgatory, p.pushed, rfl⟩

/-- `AppendFromLeader` is refused; or the log's error is passed on; or the
watermark follows. -/
theorem appendFromLeader_cases (data : ByteString) (fetchEpoch : Int32) (leaderHW : Nat) :
    (∃ e, p.appendFromLeader crc data fetchEpoch leaderHW io = (.error e, p)) ∨
    p.isLeader = false ∧
      (p.appendFromLeader crc data fetchEpoch leaderHW io = (.ok (), p.followHW p.leo leaderHW) ∨
        ∃ r l, p.log.appendReplicaRaw crc data fetchEpoch io = (r, l) ∧
          ((∃ e e', r = .error e ∧ p.appendFromLeader crc data fetchEpoch leaderHW io =
              (.error e', { p with log := l })) ∨
            ∃ n, r = .ok n ∧ p.appendFromLeader crc data fetchEpoch leaderHW io =
              (.ok (), { p with log := l }.followHW p.leo leaderHW))) := by
  unfold appendFromLeader
  split
  · exact .inl ⟨_, rfl⟩
  split
  · exact .inl ⟨_, rfl⟩
  rename_i hrole
  split
  · exact .inl ⟨_, rfl⟩
  split
  · exact .inl ⟨_, rfl⟩
  have hl : p.isLeader = false := by
    cases hl : p.isLeader
    · rfl
    · exact absurd (.inl hl) hrole
  split
  · exact .inr ⟨hl, .inl rfl⟩
  · refine .inr ⟨hl, .inr ?_⟩
    cases p.log.appendReplicaRaw crc data fetchEpoch io with
    | mk r l =>
      cases r with
      | error e => exact ⟨_, l, rfl, .inl ⟨_, _, rfl, rfl⟩⟩
      | ok n => exact ⟨_, l, rfl, .inr ⟨n, rfl, rfl⟩⟩

/-- `TruncateTo` wakes the fetches if the end or the watermark moved. -/
theorem truncateTo_cases (offset : Nat) :
    (p.isLeader = true ∧ ∃ e, p.truncateTo offset io = (.error e, p)) ∨
    p.isLeader = false ∧ ∃ r l, p.log.truncateTo offset io = (r, l) ∧
      ∃ r' notified, p.truncateTo offset io = (r', { p with
          log := l
          highWatermark := min p.highWatermark l.nextOffset
          notified := notified }) ∧
        (notified = p.notified + 1 ∨ notified = p.notified ∧ l.nextOffset = p.leo ∧
          p.highWatermark ≤ l.nextOffset) := by
  rcases Bool.eq_false_or_eq_true p.isLeader with hl | hl
  · exact .inl ⟨hl, _, if_pos hl⟩
  · cases ht : p.log.truncateTo offset io with
    | mk r l =>
      obtain ⟨r', notified, hf, -, hnotified⟩ := truncateTo_frame hl ht
      exact .inr ⟨hl, r, l, rfl, r', notified, hf, hnotified⟩

end Methods

end Partition

end MessageBroker.Broker
