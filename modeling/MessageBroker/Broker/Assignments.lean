import MessageBroker.Controller.Metadata
import MessageBroker.Broker.Operations
import MessageBroker.Broker.TopicRecovery

/-!
# Adopting the controller's assignments

`Reconcile` brings the roles of the local partitions in line with what the
controller lists for the broker: it takes the role from every partition that is
not listed, opens what is missing, and makes each listed partition leader or
follower. The file shows that a call that returns without error reaches exactly
the listed roles, and that a second one finds nothing to do.
-/
namespace MessageBroker.Broker

open Std Lib Lib.Bytes Storage
open Controller (PartitionMetadata TopicPartitionKey Listing partitionsForBroker)

inductive AssignError
  /-- `make` with a negative length, or an index below 0: the call panics -/
  | panics (topic : String) (partition : Int32)
  | openLog (topic : String) (partition : Int32) (e : OpenError)
  | updateISR (topic : String) (partition : Int32) (e : PartitionError)
  | makeLeader (topic : String) (partition : Int32) (e : PartitionError)
  deriving DecidableEq

namespace TopicManager

/-- The partition under a topic and a number, if it is open. -/
def slot (tm : TopicManager) (topic : String) (i : Nat) : Option LocalPartition :=
  (tm.topics[topic]?.bind fun t => t[i]?).join

/-- Whether a local partition is among the assignments. -/
def listed (pms : List PartitionMetadata) (topic : String) (partition : Nat) : Bool :=
  pms.any fun pm => pm.key = ⟨topic, Int32.ofNat partition⟩

/-- Take the role from a partition that has one. -/
def unassign (p : LocalPartition) : LocalPartition :=
  if p.partition.isLeader || decide (0 ≤ p.partition.leaderID) then
    ⟨p.dir, p.partition.makeUnassigned⟩
  else p

/-- The first loop of `Reconcile`. -/
def unassignOthers (tm : TopicManager) (pms : List PartitionMetadata) : TopicManager :=
  { tm with
    topics := tm.topics.map fun topic t => t.mapIdx fun i s =>
      s.map fun p => if listed pms topic i then p else unassign p }

/-- The table of a topic, long enough for the partition. -/
def growTable (t : Topic) (partition : Int32) : Option Topic :=
  if partition.toInt < t.length then some t
  else if partition + 1 < 0 then none
  else some (t ++ List.replicate ((partition + 1).toInt.toNat - t.length) none)

section Reconcile

variable (crc : Checksum) (brokerID : Int32)

/-- The role of one partition that is open. -/
def assign (tm : TopicManager) (pm : PartitionMetadata) (i : Nat) (p : LocalPartition)
    (io : Faults) : Except AssignError Unit × TopicManager :=
  if pm.leaderBrokerId = brokerID then
    if p.partition.isLeader ∧ p.partition.leaderID = brokerID ∧
        p.partition.leaderEpoch = pm.leaderEpoch then
      if p.partition.isrSnapshot = pm.isr then (.ok (), tm)
      else
        match p.partition.updateLeaderISR pm.leaderEpoch pm.isr with
        | (.error e, q) =>
            (.error (.updateISR pm.topic pm.partition e), tm.store pm.topic i ⟨p.dir, q⟩)
        | (.ok (), q) => (.ok (), tm.store pm.topic i ⟨p.dir, q⟩)
    else
      match p.partition.makeLeader pm.leaderEpoch pm.isr p.partition.highWatermark io with
      | (.error e, q) =>
          (.error (.makeLeader pm.topic pm.partition e), tm.store pm.topic i ⟨p.dir, q⟩)
      | (.ok (), q) => (.ok (), tm.store pm.topic i ⟨p.dir, q⟩)
  else if p.partition.isLeader ∨ p.partition.leaderID ≠ pm.leaderBrokerId ∨
      p.partition.leaderEpoch ≠ pm.leaderEpoch then
    (.ok (), tm.store pm.topic i
      ⟨p.dir, p.partition.makeFollower pm.leaderEpoch pm.leaderBrokerId⟩)
  else (.ok (), tm)

/-- The part of the second loop of `Reconcile` that finds the table long enough. -/
def reconcileSlot (tm : TopicManager) (pm : PartitionMetadata) (i : Nat) (x : OpenFaults) :
    Except AssignError Unit × TopicManager :=
  match tm.slot pm.topic i with
  | some p => tm.assign brokerID pm i p x.io
  | none =>
    match openLog crc tm.logConfig tm.dataDir (partitionDir pm.topic i) x with
    | (.error e, d) => (.error (.openLog pm.topic pm.partition e), { tm with dataDir := d })
    | (.ok l, d) =>
      let p : LocalPartition := ⟨partitionDir pm.topic i, newPartition brokerID l⟩
      ({ tm with dataDir := d }.store pm.topic i p).assign brokerID pm i p x.io

/-- The body of the second loop of `Reconcile`. -/
def reconcileOne (x : String → OpenFaults) (tm : TopicManager) (pm : PartitionMetadata) :
    Except AssignError Unit × TopicManager :=
  match growTable (tm.topics[pm.topic]?.getD []) pm.partition with
  | none => (.error (.panics pm.topic pm.partition), tm)
  | some t =>
    let tm := { tm with topics := tm.topics.insert pm.topic t }
    if pm.partition < 0 then (.error (.panics pm.topic pm.partition), tm)
    else
      let i := pm.partition.toInt.toNat
      reconcileSlot crc brokerID tm pm i (x (partitionDir pm.topic i))

def reconcileAll (x : String → OpenFaults) :
    TopicManager → List PartitionMetadata → Except AssignError Unit × TopicManager
  | tm, [] => (.ok (), tm)
  | tm, pm :: pms =>
      match reconcileOne crc brokerID x tm pm with
      | (.error e, tm) => (.error e, tm)
      | (.ok (), tm) => reconcileAll x tm pms

/-- `Reconcile` with the assignments the controller lists. -/
def reconcile (tm : TopicManager) (pms : List PartitionMetadata) (x : String → OpenFaults) :
    Except AssignError Unit × TopicManager :=
  reconcileAll crc brokerID x (tm.unassignOthers pms) pms

end Reconcile

/-! ## Slots -/

theorem slot_eq_some {tm : TopicManager} {topic : String} {i : Nat} {p : LocalPartition} :
    tm.slot topic i = some p ↔ ∃ t, tm.topics[topic]? = some t ∧ t[i]? = some (some p) := by
  unfold slot
  cases tm.topics[topic]? with
  | none => simp
  | some t => simp [Option.join_eq_some_iff]

theorem slot_insert (tm : TopicManager) (topic name : String) (t : Topic) (d : DataDir) (i : Nat) :
    slot { tm with topics := tm.topics.insert topic t, dataDir := d } name i =
      if topic = name then t[i]?.join else tm.slot name i := by
  unfold slot
  simp only [Maps.lookup_insert]
  split <;> rfl

theorem slot_store {tm : TopicManager} {topic : String} {i : Nat} {t : Topic}
    (ht : tm.topics[topic]? = some t) (hi : i < t.length) (q : LocalPartition) (name : String)
    (j : Nat) : (tm.store topic i q).slot name j =
      if topic = name ∧ i = j then some q else tm.slot name j := by
  unfold store
  rw [slot_insert, ht, Option.getD_some, List.getElem?_set]
  by_cases hname : topic = name
  · subst hname
    by_cases hij : i = j
    · subst hij
      simp [hi]
    · simp [hij, slot, ht]
  · simp [hname]

/-- What stands in a slot after a call on one partition was stored by it or was
there before. -/
theorem slot_store_cases {tm : TopicManager} {topic name : String} {i j : Nat}
    {p q : LocalPartition} (h : (tm.store topic i q).slot name j = some p) :
    p = q ∨ tm.slot name j = some p := by
  unfold store at h
  rw [slot_insert] at h
  split at h
  · rename_i hname
    subst hname
    rw [List.getElem?_set] at h
    split at h
    · split at h
      · exact .inl (Option.some.inj h).symm
      · cases h
    · right
      cases ht : tm.topics[topic]? with
      | none =>
        rw [ht] at h
        simp at h
      | some t =>
        rw [ht] at h
        simpa [slot, ht] using h
  · exact .inr h

theorem getPartition_eq_slot {tm : TopicManager} {topic : String} {index : Int32}
    {p : LocalPartition} :
    tm.getPartition topic index = .ok p ↔ 0 ≤ index ∧ tm.slot topic index.toInt.toNat = some p := by
  rw [getPartition_ok, slot_eq_some]

end TopicManager

/-! ## Roles -/

namespace Partition

/-- What every partition of a broker satisfies: it knows the broker, and without
leadership it follows a broker of the controller or nobody. -/
structure RoleOf (brokerID : Int32) (p : Partition) : Prop where
  localBrokerID : p.localBrokerID = brokerID
  leaderID : p.isLeader = true ∨ p.leaderID = -1 ∨ 0 ≤ p.leaderID

/-- The role the controller has assigned. -/
structure Matches (brokerID : Int32) (pm : PartitionMetadata) (p : Partition) : Prop where
  leaderID : p.leaderID = pm.leaderBrokerId
  leaderEpoch : p.leaderEpoch = pm.leaderEpoch
  isLeader : p.isLeader = true ↔ pm.leaderBrokerId = brokerID
  isr : p.isLeader = true → p.isrSnapshot = pm.isr

structure SameRole (p p' : Partition) : Prop where
  localBrokerID : p'.localBrokerID = p.localBrokerID
  isLeader : p'.isLeader = p.isLeader
  leaderID : p'.leaderID = p.leaderID

theorem RoleOf.same {brokerID : Int32} {p p' : Partition} (h : p.RoleOf brokerID)
    (hs : SameRole p p') : p'.RoleOf brokerID := by
  refine ⟨hs.localBrokerID.trans h.localBrokerID, ?_⟩
  rw [hs.isLeader, hs.leaderID]
  exact h.leaderID

theorem roleOf_new (brokerID : Int32) (l : Log) : (newPartition brokerID l).RoleOf brokerID :=
  ⟨rfl, .inr (.inl rfl)⟩

theorem makeLeader_role (p : Partition) (epoch : Int32) (initialISR : List Int32) (initialHW : Nat)
    (io : Faults) :
    ∃ r q, p.makeLeader epoch initialISR initialHW io = (r, q) ∧
      q.localBrokerID = p.localBrokerID ∧
      (r = .ok () ∧ q.isLeader = true ∧ q.leaderID = p.localBrokerID ∧ q.leaderEpoch = epoch ∧
          q.isrSnapshot = initialISR ∨
        (∃ e, r = .error e) ∧ (q = p ∨ q.isLeader = false ∧ q.leaderID = -1)) := by
  have hgo : ∃ r q, p.becomeLeader epoch initialISR initialHW io = (r, q) ∧
      q.localBrokerID = p.localBrokerID ∧
      (r = .ok () ∧ q.isLeader = true ∧ q.leaderID = p.localBrokerID ∧ q.leaderEpoch = epoch ∧
          q.isrSnapshot = initialISR ∨
        (∃ e, r = .error e) ∧ (q = p ∨ q.isLeader = false ∧ q.leaderID = -1)) := by
    unfold becomeLeader
    rcases p.log.assignLeaderEpoch epoch p.leo io with ⟨e | ⟨⟩, l⟩
    · exact ⟨_, _, rfl, rfl, .inr ⟨⟨_, rfl⟩, .inr ⟨rfl, rfl⟩⟩⟩
    · refine ⟨_, _, rfl, rfl, .inl ⟨rfl, rfl, rfl, rfl, ?_⟩⟩
      simp [isrSnapshot, notifyWaiters, Function.comp_def]
  unfold makeLeader
  split
  · split
    · exact ⟨_, p, rfl, rfl, .inr ⟨⟨_, rfl⟩, .inl rfl⟩⟩
    · exact hgo
  · exact hgo

theorem maybeAdvanceHW_sameRole (p : Partition) : SameRole p p.maybeAdvanceHW := by
  obtain ⟨_, _, _, _, h⟩ := p.maybeAdvanceHW_frame
  rw [h]
  exact ⟨rfl, rfl, rfl⟩

/-- A same-epoch change of the in-sync set goes through on a leader. -/
theorem updateLeaderISR_role {p : Partition} (hl : p.isLeader = true)
    (hid : p.leaderID = p.localBrokerID) {epoch : Int32} (he : p.leaderEpoch = epoch)
    (ids : List Int32) :
    ∃ q, p.updateLeaderISR epoch ids = (.ok (), q) ∧ SameRole p q ∧ q.leaderEpoch = epoch ∧
      q.isrSnapshot = ids := by
  have hset : p.setISR epoch ids = (.ok (), { p with
      isr := ids.map fun id => ⟨id, previousLEO p.isr id⟩ }) := if_neg (by simp [hl, hid, he])
  refine ⟨_, by rw [updateLeaderISR, hset], ?_, ?_, ?_⟩
  · have hs := maybeAdvanceHW_sameRole
      { p with isr := ids.map fun id => ⟨id, previousLEO p.isr id⟩ }
    exact ⟨hs.localBrokerID, hs.isLeader, hs.leaderID⟩
  · rw [maybeAdvanceHW_leaderEpoch]
    exact he
  · rw [isrSnapshot, maybeAdvanceHW_isr]
    simp [Function.comp_def]

end Partition

namespace TopicManager

/-- What holds of every manager a broker can have. -/
structure Sound (tm : TopicManager) : Prop where
  length : ∀ (topic : String) (n : Nat), tm.partitionCount topic = some n → n < 2 ^ 31
  role : ∀ (topic : String) (i : Nat) (p : LocalPartition), tm.slot topic i = some p →
    p.partition.RoleOf tm.localBrokerID

theorem partitionCount_insert (tm : TopicManager) (topic name : String) (t : Topic) (d : DataDir) :
    partitionCount { tm with topics := tm.topics.insert topic t, dataDir := d } name =
      if topic = name then some t.length else tm.partitionCount name := by
  unfold partitionCount
  simp only [Maps.lookup_insert]
  split <;> rfl

theorem Sound.store {tm : TopicManager} (h : tm.Sound) (topic : String) (i : Nat)
    {q : LocalPartition} (hq : q.partition.RoleOf tm.localBrokerID) :
      (tm.store topic i q).Sound := by
  refine ⟨fun name n hn => ?_, fun name j p hp => ?_⟩
  · unfold TopicManager.store at hn
    rw [partitionCount_insert, List.length_set] at hn
    split at hn
    · cases ht : tm.topics[topic]? with
      | none =>
        rw [ht] at hn
        cases hn
        decide
      | some t =>
        rw [ht] at hn
        exact h.length topic n (by rw [partitionCount, ht]; exact hn)
    · exact h.length name n hn
  · rcases slot_store_cases hp with rfl | hp
    · exact hq
    · exact h.role name j p hp

/-! ## Taking the role from what is not listed -/

theorem slot_unassignOthers (tm : TopicManager) (pms : List PartitionMetadata) (topic : String)
    (i : Nat) : (tm.unassignOthers pms).slot topic i =
      (tm.slot topic i).map fun p => if listed pms topic i then p else unassign p := by
  unfold slot unassignOthers
  simp only [ExtTreeMap.getElem?_map]
  cases tm.topics[topic]? with
  | none => rfl
  | some t =>
    simp only [Option.map_some, Option.bind_some, List.getElem?_mapIdx]
    rcases t[i]? with _ | _ | p <;> rfl

theorem partitionCount_unassignOthers (tm : TopicManager) (pms : List PartitionMetadata)
    (topic : String) : (tm.unassignOthers pms).partitionCount topic = tm.partitionCount topic := by
  unfold partitionCount unassignOthers
  simp only [ExtTreeMap.getElem?_map]
  cases tm.topics[topic]? with
  | none => rfl
  | some t => simp

theorem unassign_roleOf {brokerID : Int32} {p : LocalPartition} (h : p.partition.RoleOf brokerID) :
    (unassign p).partition.RoleOf brokerID ∧ (unassign p).partition.isLeader = false ∧
      (unassign p).partition.leaderID = -1 := by
  unfold unassign
  split
  · exact ⟨⟨h.localBrokerID, .inr (.inl rfl)⟩, rfl, rfl⟩
  · rename_i hnone
    simp only [Bool.or_eq_true, decide_eq_true_eq, not_or, Bool.not_eq_true] at hnone
    refine ⟨h, hnone.1, ?_⟩
    rcases h.leaderID with hl | hl | hl
    · rw [hnone.1] at hl
      cases hl
    · exact hl
    · exact absurd hl hnone.2

theorem Sound.unassignOthers {tm : TopicManager} (h : tm.Sound) (pms : List PartitionMetadata) :
    (tm.unassignOthers pms).Sound := by
  refine ⟨fun topic n hn => ?_, fun topic i p hp => ?_⟩
  · rw [partitionCount_unassignOthers] at hn
    exact h.length topic n hn
  · rw [slot_unassignOthers] at hp
    obtain ⟨q, hq, rfl⟩ := Option.map_eq_some_iff.mp hp
    split
    · exact h.role topic i q hq
    · exact (unassign_roleOf (h.role topic i q hq)).1

/-! ## Assigning the role of one partition -/

section One

variable {crc : Checksum} {brokerID : Int32} {tm : TopicManager}

/-- The partition has the assigned role, and no other slot has changed. -/
structure Adopted (brokerID : Int32) (pm : PartitionMetadata) (i : Nat) (before tm : TopicManager) :
    Prop where
  role : ∃ p, tm.slot pm.topic i = some p ∧ p.partition.Matches brokerID pm
  others : ∀ (topic : String) (j : Nat), (topic = pm.topic → j ≠ i) →
    tm.slot topic j = before.slot topic j

/-- Whatever comes of it, the role stays one the broker can have; without error it
is the assigned one. A partition that has it already is left alone. -/
theorem assign_cases (tm : TopicManager) {pm : PartitionMetadata} (hleader : 0 ≤ pm.leaderBrokerId)
    (i : Nat) {p : LocalPartition} (hp : p.partition.RoleOf brokerID) (io : Faults) :
    ∃ r tm', tm.assign brokerID pm i p io = (r, tm') ∧
      ((tm' = tm ∧ p.partition.Matches brokerID pm ∧ r = .ok ()) ∨
        ∃ q : Partition, tm' = tm.store pm.topic i ⟨p.dir, q⟩ ∧ q.RoleOf brokerID ∧
          ¬ p.partition.Matches brokerID pm ∧ (r = .ok () → q.Matches brokerID pm)) := by
  unfold assign
  by_cases hl : pm.leaderBrokerId = brokerID
  · rw [if_pos hl]
    by_cases hsame : p.partition.isLeader = true ∧ p.partition.leaderID = brokerID ∧
        p.partition.leaderEpoch = pm.leaderEpoch
    · rw [if_pos hsame]
      obtain ⟨hlead, hid, hepoch⟩ := hsame
      by_cases hisr : p.partition.isrSnapshot = pm.isr
      · rw [if_pos hisr]
        exact ⟨_, tm, rfl, .inl ⟨rfl, ⟨hid.trans hl.symm, hepoch, by simp [hlead, hl],
          fun _ => hisr⟩, rfl⟩⟩
      · rw [if_neg hisr]
        obtain ⟨q, hu, hs, he, hi⟩ := Partition.updateLeaderISR_role hlead
          (hid.trans hp.localBrokerID.symm) hepoch pm.isr
        rw [hu]
        refine ⟨_, _, rfl, .inr ⟨q, rfl, hp.same hs, fun hm => hisr (hm.isr hlead), fun _ => ?_⟩⟩
        exact ⟨hs.leaderID.trans (hid.trans hl.symm), he, by simp [hs.isLeader, hlead, hl],
          fun _ => hi⟩
    · rw [if_neg hsame]
      have hno : ¬ p.partition.Matches brokerID pm := fun hm =>
        hsame ⟨hm.isLeader.mpr hl, hm.leaderID.trans hl, hm.leaderEpoch⟩
      obtain ⟨r, q, hm, hlocal, hcase⟩ := p.partition.makeLeader_role pm.leaderEpoch pm.isr
        p.partition.highWatermark io
      rw [hm]
      rcases hcase with ⟨rfl, hlead, hid, he, hi⟩ | ⟨⟨e, rfl⟩, hq⟩
      · refine ⟨_, _, rfl, .inr ⟨q, rfl, ⟨hlocal.trans hp.localBrokerID, .inl hlead⟩, hno,
          fun _ => ?_⟩⟩
        exact ⟨hid.trans (hp.localBrokerID.trans hl.symm), he, by simp [hlead, hl], fun _ => hi⟩
      · refine ⟨_, _, rfl, .inr ⟨q, rfl, ?_, hno, fun h => (by cases h)⟩⟩
        rcases hq with rfl | ⟨hnot, hid⟩
        · exact hp
        · exact ⟨hlocal.trans hp.localBrokerID, .inr (.inl hid)⟩
  · rw [if_neg hl]
    split
    · rename_i hdiff
      refine ⟨_, _, rfl, .inr ⟨_, rfl, ⟨hp.localBrokerID, .inr (.inr hleader)⟩, fun hm => ?_,
        fun _ => ⟨rfl, rfl, ?_, fun h => (by cases h)⟩⟩⟩
      · rcases hdiff with h | h | h
        · exact hl (hm.isLeader.mp h)
        · exact h hm.leaderID
        · exact h hm.leaderEpoch
      · exact iff_of_false (by simp [Partition.makeFollower]) hl
    · rename_i hsame
      simp only [not_or, Bool.not_eq_true, ne_eq, not_not] at hsame
      refine ⟨_, tm, rfl, .inl ⟨rfl, ⟨hsame.2.1, hsame.2.2, ?_, fun h => ?_⟩, rfl⟩⟩
      · exact iff_of_false (by simp [hsame.1]) hl
      · rw [hsame.1] at h
        cases h

theorem growTable_some {t t' : Topic} {partition : Int32} (h : growTable t partition = some t') :
    partition.toInt < t'.length ∧ (∀ i : Nat, t'[i]?.join = t[i]?.join) ∧
      (t.length < 2 ^ 31 → t'.length < 2 ^ 31) := by
  unfold growTable at h
  split at h
  · rename_i hlt
    cases h
    exact ⟨hlt, fun _ => rfl, id⟩
  · split at h
    · cases h
    · rename_i hge hpos
      cases h
      -- a successor that is not negative has not wrapped
      have hsucc : (partition + 1).toInt = partition.toInt + 1 := by
        have hadd : (partition + 1).toInt = (partition.toInt + 1).bmod (2 ^ 32) :=
          Int32.toInt_add partition 1
        have hnonneg : 0 ≤ (partition + 1).toInt := by
          have := Int32.lt_iff_toInt_lt.not.mp hpos
          simpa using this
        have := partition.toInt_lt
        rw [Int.bmod_def] at hadd
        split at hadd <;> omega
      have hlt := (partition + 1).toInt_lt
      refine ⟨?_, fun i => ?_, fun _ => ?_⟩
      · rw [List.length_append, List.length_replicate]
        omega
      · rcases Nat.lt_or_ge i t.length with hi | hi
        · rw [List.getElem?_append_left hi]
        · rw [List.getElem?_append_right hi, List.getElem?_eq_none hi, List.getElem?_replicate]
          split <;> rfl
      · rw [List.length_append, List.length_replicate]
        omega

/-- Growing a table changes no slot. -/
theorem slot_grow {topic : String} {partition : Int32} {t : Topic}
    (hg : growTable (tm.topics[topic]?.getD []) partition = some t) (name : String) (i : Nat) :
    slot { tm with topics := tm.topics.insert topic t } name i = tm.slot name i := by
  refine (slot_insert tm topic name t tm.dataDir i).trans ?_
  split
  · rename_i htopic
    subst htopic
    rw [(growTable_some hg).2.1, slot]
    cases tm.topics[topic]? <;> rfl
  · rfl

theorem Sound.grow (hs : tm.Sound) {topic : String} {partition : Int32} {t : Topic}
    (hg : growTable (tm.topics[topic]?.getD []) partition = some t) :
    Sound { tm with topics := tm.topics.insert topic t } := by
  refine ⟨fun name n hn => ?_, fun name i p hp => hs.role name i p ((slot_grow hg name i) ▸ hp)⟩
  rw [partitionCount_insert tm topic name t tm.dataDir] at hn
  split at hn
  · cases hn
    refine (growTable_some hg).2.2 ?_
    cases ht : tm.topics[topic]? with
    | none => decide
    | some t₀ => exact hs.length topic _ (by rw [partitionCount, ht]; rfl)
  · exact hs.length name n hn

theorem assign_spec (hs : tm.Sound) (hid : tm.localBrokerID = brokerID) {pm : PartitionMetadata}
    (hleader : 0 ≤ pm.leaderBrokerId) {t : Topic} (ht : tm.topics[pm.topic]? = some t) {i : Nat}
    (hi : i < t.length) {p : LocalPartition} (hp : tm.slot pm.topic i = some p) (io : Faults) :
    ∃ r tm', tm.assign brokerID pm i p io = (r, tm') ∧ tm'.Sound ∧ tm'.localBrokerID = brokerID ∧
      (r = .ok () → tm.Adopted brokerID pm i tm') := by
  obtain ⟨r, tm', ha, ⟨rfl, hm, rfl⟩ | ⟨q, rfl, hq, -, hm⟩⟩ := assign_cases tm hleader i
    (hid ▸ hs.role pm.topic i p hp) io
  · exact ⟨_, _, ha, hs, hid, fun _ => ⟨⟨p, hp, hm⟩, fun _ _ _ => rfl⟩⟩
  · refine ⟨r, _, ha, hs.store pm.topic i (hid ▸ hq), hid, fun hr => ⟨⟨⟨p.dir, q⟩, ?_, hm hr⟩,
      fun topic j hne => ?_⟩⟩
    · rw [slot_store ht hi, if_pos ⟨rfl, rfl⟩]
    · rw [slot_store ht hi, if_neg]
      rintro ⟨rfl, rfl⟩
      exact hne rfl rfl

theorem reconcileSlot_spec (crc : Checksum) (hs : tm.Sound) (hid : tm.localBrokerID = brokerID)
    {pm : PartitionMetadata} (hleader : 0 ≤ pm.leaderBrokerId) {t : Topic}
    (ht : tm.topics[pm.topic]? = some t) {i : Nat} (hi : i < t.length) (x : OpenFaults) :
    ∃ r tm', reconcileSlot crc brokerID tm pm i x = (r, tm') ∧ tm'.Sound ∧
      tm'.localBrokerID = brokerID ∧ (r = .ok () → tm.Adopted brokerID pm i tm') := by
  unfold reconcileSlot
  cases hp : tm.slot pm.topic i with
  | some p => exact assign_spec hs hid hleader ht hi hp x.io
  | none =>
    simp only
    split
    · exact ⟨_, _, rfl, ⟨hs.length, hs.role⟩, hid, fun h => (by cases h)⟩
    rename_i l d hopen
    have hs₁ : Sound { tm with dataDir := d } := ⟨hs.length, hs.role⟩
    have hs₂ := hs₁.store pm.topic i (q := ⟨partitionDir pm.topic i, newPartition brokerID l⟩)
      (hid ▸ Partition.roleOf_new brokerID l)
    have hstore : ∀ name j, (TopicManager.store { tm with dataDir := d } pm.topic i
        ⟨partitionDir pm.topic i, newPartition brokerID l⟩).slot name j =
          if pm.topic = name ∧ i = j then
            some ⟨partitionDir pm.topic i, newPartition brokerID l⟩ else tm.slot name j :=
      slot_store ht hi _
    obtain ⟨r, tm', ha, hs', hid', hok⟩ := assign_spec hs₂ hid hleader
      (ExtTreeMap.getElem?_insert_self) (by rw [ht]; simpa using hi)
      ((hstore _ _).trans (if_pos ⟨rfl, rfl⟩)) x.io
    refine ⟨r, tm', ha, hs', hid', fun hr => ⟨(hok hr).role, fun topic j hne => ?_⟩⟩
    rw [(hok hr).others topic j hne, hstore, if_neg]
    rintro ⟨rfl, rfl⟩
    exact hne rfl rfl

/-- One assignment: the slot of the partition changes and no other, the manager
stays sound, and without error the slot has the assigned role. -/
theorem reconcileOne_spec (crc : Checksum) (hs : tm.Sound) (hid : tm.localBrokerID = brokerID)
    {pm : PartitionMetadata} (hleader : 0 ≤ pm.leaderBrokerId) (x : String → OpenFaults) :
    ∃ r tm', reconcileOne crc brokerID x tm pm = (r, tm') ∧ tm'.Sound ∧
      tm'.localBrokerID = brokerID ∧
      (r = .ok () → tm.Adopted brokerID pm pm.partition.toInt.toNat tm') := by
  unfold reconcileOne
  cases hg : growTable (tm.topics[pm.topic]?.getD []) pm.partition with
  | none => exact ⟨_, tm, rfl, hs, hid, fun h => (by cases h)⟩
  | some t =>
    have hlen := (growTable_some hg).1
    simp only
    generalize htm : ({ tm with topics := tm.topics.insert pm.topic t } : TopicManager) = tm₁
    have hlook : tm₁.topics[pm.topic]? = some t := by rw [← htm, ExtTreeMap.getElem?_insert_self]
    have hslot : ∀ topic i, tm₁.slot topic i = tm.slot topic i := htm ▸ slot_grow hg
    have hs₁ : tm₁.Sound := htm ▸ hs.grow hg
    have hid₁ : tm₁.localBrokerID = brokerID := by rw [← htm]; exact hid
    split
    · exact ⟨_, tm₁, rfl, hs₁, hid₁, fun h => (by cases h)⟩
    rename_i hneg
    have hi : pm.partition.toInt.toNat < t.length := by
      have := Int32.le_iff_toInt_le.mp (Int32.not_lt.mp hneg)
      have hzero : (0 : Int32).toInt = 0 := rfl
      omega
    obtain ⟨r, tm', ha, hs', hid', hok⟩ := reconcileSlot_spec crc hs₁ hid₁ hleader hlook hi
      (x (partitionDir pm.topic pm.partition.toInt.toNat))
    refine ⟨r, tm', ha, hs', hid', fun hr => ⟨(hok hr).role, fun topic i hne => ?_⟩⟩
    rw [(hok hr).others topic i hne, hslot]

/-- All of them, for partitions that are listed once each. -/
theorem reconcileAll_spec (crc : Checksum) (x : String → OpenFaults)
    {pms : List PartitionMetadata} :
    ∀ {tm : TopicManager}, tm.Sound → tm.localBrokerID = brokerID → Listing pms →
    ∃ r tm', reconcileAll crc brokerID x tm pms = (r, tm') ∧ tm'.Sound ∧
      tm'.localBrokerID = brokerID ∧
      (r = .ok () →
        (∀ pm ∈ pms, ∃ p, tm'.slot pm.topic pm.partition.toInt.toNat = some p ∧
          p.partition.Matches brokerID pm) ∧
        ∀ (topic : String) (i : Nat),
          (∀ pm ∈ pms, topic = pm.topic → i ≠ pm.partition.toInt.toNat) →
          tm'.slot topic i = tm.slot topic i) := by
  induction pms with
  | nil =>
    intro tm hs hid _
    exact ⟨_, tm, rfl, hs, hid, fun _ => ⟨fun pm hpm => absurd hpm List.not_mem_nil,
      fun _ _ _ => rfl⟩⟩
  | cons pm pms ih =>
    intro tm hs hid hlist
    obtain ⟨r, tm₁, ho, hs₁, hid₁, hok⟩ := reconcileOne_spec crc hs hid
      (hlist.leader_nonneg pm List.mem_cons_self) x
    rw [reconcileAll, ho]
    rcases r with e | ⟨⟩
    · exact ⟨_, _, rfl, hs₁, hid₁, fun h => (by cases h)⟩
    obtain ⟨r, tm', ha, hs', hid', hok'⟩ := ih hs₁ hid₁ hlist.tail
    refine ⟨r, tm', ha, hs', hid', fun hr => ⟨fun pm' hpm' => ?_, fun topic i hne => ?_⟩⟩
    · rcases List.mem_cons.mp hpm' with rfl | hpm'
      · -- later assignments are for other partitions
        obtain ⟨p, hp, hm⟩ := (hok rfl).role
        refine ⟨p, ?_, hm⟩
        rw [(hok' hr).2 _ _ fun pm'' hpm'' htopic hi => ?_, hp]
        exact hlist.head_ne hpm'' htopic hi
      · exact (hok' hr).1 pm' hpm'
    · rw [(hok' hr).2 topic i fun pm' hpm' => hne pm' (List.mem_cons_of_mem pm hpm'),
        (hok rfl).others topic i (hne pm List.mem_cons_self)]

end One

/-! ## The whole call -/

section Whole

variable {brokerID : Int32} {tm : TopicManager} {pms : List PartitionMetadata}

theorem Sound.slot_lt (hs : tm.Sound) {topic : String} {i : Nat} {p : LocalPartition}
    (hp : tm.slot topic i = some p) : i < 2 ^ 31 := by
  obtain ⟨t, ht, hget⟩ := slot_eq_some.mp hp
  have hi : i < t.length := (List.getElem?_eq_some_iff.mp hget).1
  have := hs.length topic t.length (by rw [partitionCount, ht]; rfl)
  omega

/-- Below the wrap of its key a local partition is listed exactly if an assignment
has its topic and number. -/
theorem listed_iff (hlist : Listing pms) (topic : String) {i : Nat} (hi : i < 2 ^ 31) :
    listed pms topic i = true ↔
      ∃ pm ∈ pms, topic = pm.topic ∧ i = pm.partition.toInt.toNat := by
  have hint : (Int32.ofNat i).toInt = i := Int32.toInt_ofNat_of_lt hi
  simp only [listed, List.any_eq_true, decide_eq_true_eq]
  refine exists_congr fun pm => and_congr_right fun hpm => ?_
  have hpos := Controller.nonneg_toInt (hlist.partition_nonneg pm hpm)
  rw [PartitionMetadata.key, TopicPartitionKey.mk.injEq, eq_comm, and_congr_right_iff]
  intro _
  rw [← Int32.toInt_inj, hint]
  omega

/-- Every listed partition has its role, and no other has one. -/
structure Settled (brokerID : Int32) (tm : TopicManager) (pms : List PartitionMetadata) :
    Prop where
  listed : ∀ pm ∈ pms, ∃ p, tm.slot pm.topic pm.partition.toInt.toNat = some p ∧
    p.partition.Matches brokerID pm
  others : ∀ (topic : String) (i : Nat) (p : LocalPartition), tm.slot topic i = some p →
    (∀ pm ∈ pms, topic = pm.topic → i ≠ pm.partition.toInt.toNat) →
    p.partition.isLeader = false ∧ p.partition.leaderID = -1

theorem reconcile_spec (crc : Checksum) (hs : tm.Sound) (hid : tm.localBrokerID = brokerID)
    (hlist : Listing pms) (x : String → OpenFaults) :
    ∃ r tm', tm.reconcile crc brokerID pms x = (r, tm') ∧ tm'.Sound ∧
      tm'.localBrokerID = brokerID ∧ (r = .ok () → tm'.Settled brokerID pms) := by
  obtain ⟨r, tm', ha, hs', hid', hok⟩ := reconcileAll_spec crc x (hs.unassignOthers pms) hid hlist
  refine ⟨r, tm', ha, hs', hid', fun hr => ⟨(hok hr).1, fun topic i p hp hne => ?_⟩⟩
  have hlt := hs'.slot_lt hp
  rw [(hok hr).2 topic i hne, slot_unassignOthers] at hp
  obtain ⟨q, hq, rfl⟩ := Option.map_eq_some_iff.mp hp
  have hnot : ¬ TopicManager.listed pms topic i = true := by
    rw [listed_iff hlist topic hlt]
    rintro ⟨pm, hpm, htopic, hi⟩
    exact hne pm hpm htopic hi
  rw [if_neg hnot]
  exact (unassign_roleOf (hs.role topic i q hq)).2

/-- The first loop finds no role to take away. -/
theorem Settled.unassignOthers (h : tm.Settled brokerID pms) (hs : tm.Sound)
    (hlist : Listing pms) : tm.unassignOthers pms = tm := by
  have htopics : (tm.unassignOthers pms).topics = tm.topics := by
    refine ExtTreeMap.ext_getElem? fun topic => ?_
    unfold TopicManager.unassignOthers
    rw [ExtTreeMap.getElem?_map]
    cases ht : tm.topics[topic]? with
    | none => rfl
    | some t =>
      rw [Option.map_some, Option.some.injEq]
      refine List.ext_getElem? fun i => ?_
      rw [List.getElem?_mapIdx]
      rcases hget : t[i]? with _ | _ | p
      · rfl
      · rfl
      · have hp : tm.slot topic i = some p := slot_eq_some.mpr ⟨t, ht, hget⟩
        rw [Option.map_some, Option.map_some]
        split
        · rfl
        · rename_i hnot
          obtain ⟨hl, hid⟩ := h.others topic i p hp fun pm hpm htopic hi =>
            hnot ((listed_iff hlist topic (hs.slot_lt hp)).mpr ⟨pm, hpm, htopic, hi⟩)
          rw [unassign, if_neg]
          rw [hl, hid]
          decide
  calc tm.unassignOthers pms = { tm with topics := (tm.unassignOthers pms).topics } := rfl
    _ = tm := by rw [htopics]

/-- An assignment that is adopted already is left alone. -/
theorem reconcileOne_settled (crc : Checksum) (x : String → OpenFaults) {pm : PartitionMetadata}
    (hpart : 0 ≤ pm.partition) (hleader : 0 ≤ pm.leaderBrokerId) {p : LocalPartition}
    (hp : tm.slot pm.topic pm.partition.toInt.toNat = some p) (hrole : p.partition.RoleOf brokerID)
    (hm : p.partition.Matches brokerID pm) :
    reconcileOne crc brokerID x tm pm = (.ok (), tm) := by
  obtain ⟨t, ht, hget⟩ := slot_eq_some.mp hp
  have hi : pm.partition.toInt.toNat < t.length := (List.getElem?_eq_some_iff.mp hget).1
  have hpos := Controller.nonneg_toInt hpart
  have hgrow : growTable (tm.topics[pm.topic]?.getD []) pm.partition = some t := by
    rw [ht, Option.getD_some, growTable, if_pos (by omega)]
  have hself : ({ tm with topics := tm.topics.insert pm.topic t } : TopicManager) = tm := by
    rw [Maps.insert_eq_self ht]
  unfold reconcileOne
  simp only [hgrow, hself, if_neg (Int32.not_lt.mpr hpart)]
  rw [reconcileSlot, hp]
  obtain ⟨r, tm', ha, ⟨rfl, -, rfl⟩ | ⟨q, -, -, hno, -⟩⟩ := assign_cases tm hleader
    pm.partition.toInt.toNat hrole (x (partitionDir pm.topic pm.partition.toInt.toNat)).io
  · exact ha
  · exact absurd hm hno

/-- A second call with the same assignments changes nothing. -/
theorem Settled.reconcile (h : tm.Settled brokerID pms) (hs : tm.Sound)
    (hid : tm.localBrokerID = brokerID) (hlist : Listing pms) (crc : Checksum)
    (x : String → OpenFaults) : tm.reconcile crc brokerID pms x = (.ok (), tm) := by
  have hall : ∀ rest, (∀ pm ∈ rest, pm ∈ pms) →
      reconcileAll crc brokerID x tm rest = (.ok (), tm) := by
    intro rest
    induction rest with
    | nil => exact fun _ => rfl
    | cons pm rest ih =>
      intro hsub
      have hpm := hsub pm List.mem_cons_self
      obtain ⟨p, hp, hm⟩ := h.listed pm hpm
      rw [reconcileAll, reconcileOne_settled crc x (hlist.partition_nonneg pm hpm)
        (hlist.leader_nonneg pm hpm) hp (hid ▸ hs.role _ _ p hp) hm]
      exact ih fun q hq => hsub q (List.mem_cons_of_mem pm hq)
  rw [TopicManager.reconcile, h.unassignOthers hs hlist]
  exact hall pms fun _ hpm => hpm

end Whole

end TopicManager

end MessageBroker.Broker
