import MessageBroker.Controller.Fencing
import MessageBroker.Broker.Assignments

/-!
# Roles over the life of a broker

A broker creates and deletes topics, serves its partitions, restarts on whatever
its data directory holds, and reconciles with the controller again and again.
None of this takes its manager out of the states from which `Reconcile` reaches
the listed roles.
-/
namespace MessageBroker.Broker

open Std Lib Storage
open Controller (PartitionMetadata Listing partitionsForBroker)

/-- The calls that assign a role; only `Reconcile` and `CreateTopic` make them. -/
def Operation.assignsRole : Operation → Bool
  | .makeLeader .. => true
  | .makeFollower .. => true
  | .makeUnassigned => true
  | .updateLeaderISR .. => true
  | _ => false

namespace Partition

theorem SameRole.refl (p : Partition) : SameRole p p := ⟨rfl, rfl, rfl⟩

theorem followHW_sameRole (p : Partition) (oldLEO leaderHW : Nat) :
    SameRole p (p.followHW oldLEO leaderHW) := by
  obtain ⟨_, h, -⟩ := p.followHW_cases oldLEO leaderHW
  rw [h]
  exact ⟨rfl, rfl, rfl⟩

theorem updateFollowerLEO_sameRole (p : Partition) (brokerID : Int32) (leo : Nat) :
    SameRole p (p.updateFollowerLEO brokerID leo) := by
  have h := maybeAdvanceHW_sameRole { p with isr := setLEO brokerID leo p.isr }
  exact ⟨h.localBrokerID, h.isLeader, h.leaderID⟩

theorem perform_sameRole (crc : Checksum) (p : Partition) {op : Operation}
    (hop : op.assignsRole = false) (io : Faults) : SameRole p (p.perform crc (op, io)).2 := by
  cases op with
  | makeLeader epoch initialISR initialHW => cases hop
  | makeFollower epoch leaderID => cases hop
  | makeUnassigned => cases hop
  | updateLeaderISR epoch ids => cases hop
  | append batch acks =>
    simp only [perform, answer_snd]
    rcases p.append_cases crc io batch acks with ⟨⟨e, he⟩, -⟩ | ⟨-, -, r, l, -, hcase⟩
    · exact he ▸ SameRole.refl p
    · rcases hcase with ⟨e, e', rfl, he⟩ | ⟨_, rfl, ⟨_, e, -, he⟩ | ⟨-, y, q, n, he⟩⟩
      · exact he ▸ ⟨rfl, rfl, rfl⟩
      · exact he ▸ ⟨rfl, rfl, rfl⟩
      · have hs := maybeAdvanceHW_sameRole { p with log := l, purgatory := q, pushed := n }
        exact he ▸ ⟨hs.localBrokerID, hs.isLeader, hs.leaderID⟩
  | appendRaw data acks =>
    simp only [perform, answer_snd]
    rcases p.appendRaw_cases crc io data acks with ⟨e, he⟩ | ⟨-, -, r, l, -, hcase⟩
    · exact he ▸ SameRole.refl p
    · rcases hcase with ⟨e, e', rfl, he⟩ | ⟨_, y, q, n, rfl, he⟩
      · exact he ▸ ⟨rfl, rfl, rfl⟩
      · have hs := maybeAdvanceHW_sameRole
          { p with log := l, notified := p.notified + 1, purgatory := q, pushed := n }
        exact he ▸ ⟨hs.localBrokerID, hs.isLeader, hs.leaderID⟩
  | appendFromLeader data fetchEpoch leaderHW =>
    simp only [perform, answer_snd]
    rcases p.appendFromLeader_cases crc io data fetchEpoch leaderHW with
      ⟨e, he⟩ | ⟨-, he | ⟨r, l, -, ⟨e, e', rfl, he⟩ | ⟨n, rfl, he⟩⟩⟩
    · exact he ▸ SameRole.refl p
    · exact he ▸ p.followHW_sameRole p.leo leaderHW
    · exact he ▸ ⟨rfl, rfl, rfl⟩
    · have hs := followHW_sameRole { p with log := l } p.leo leaderHW
      exact he ▸ ⟨hs.localBrokerID, hs.isLeader, hs.leaderID⟩
  | truncateTo offset =>
    simp only [perform, answer_snd]
    rcases p.truncateTo_cases io offset with ⟨-, e, he⟩ | ⟨-, r, l, -, r', n, he, -⟩
    · exact he ▸ SameRole.refl p
    · exact he ▸ ⟨rfl, rfl, rfl⟩
  | fetchRaw fetchOffset replicaID maxBytes =>
    simp only [perform, answer_snd]
    obtain ⟨r, p', he, rfl | rfl⟩ := p.fetchRaw_cases fetchOffset replicaID maxBytes
    · exact he ▸ SameRole.refl p'
    · exact he ▸ p.updateFollowerLEO_sameRole replicaID fetchOffset
  | fetchRawRanges fetchOffset replicaID maxBytes allowOversizedFirstBatch =>
    simp only [perform, answer_snd]
    obtain ⟨r, p', he, rfl | rfl⟩ :=
      p.fetchRawRanges_cases fetchOffset replicaID maxBytes allowOversizedFirstBatch
    · exact he ▸ SameRole.refl p'
    · exact he ▸ p.updateFollowerLEO_sameRole replicaID fetchOffset
  | close =>
    simp only [perform, close]
    split
    · exact SameRole.refl p
    · exact ⟨rfl, rfl, rfl⟩

end Partition

/-- What a broker does with its topic manager. -/
inductive ManagerEvent
  /-- `CreateTopic` as the metadata handler calls it -/
  | autoCreate (name : String) (x : Nat → OpenFaults)
  | deleteTopic (name : String)
  /-- a request or a fetch on an open partition -/
  | operate (topic : String) (index : Int32) (op : { op : Operation // op.assignsRole = false })
      (io : Faults)
  /-- `Reconcile` with a state machine that went through these calls -/
  | reconcile (fsm : List Controller.Event) (x : String → OpenFaults)
  | restart (config : LogConfig) (x : String → OpenFaults)

namespace TopicManager

def handle (crc : Checksum) (lib : Controller.Stdlib) (tm : TopicManager) :
    ManagerEvent → Unit × TopicManager
  | .autoCreate name x => ((), (tm.createTopic crc name 1 true x).2)
  | .deleteTopic name => ((), tm.deleteTopic name)
  | .operate topic index op io =>
      match tm.getPartition topic index with
      | .error _ => ((), tm)
      | .ok p => ((), tm.store topic index.toInt.toNat
          ⟨p.dir, (p.partition.perform crc (op.1, io)).2⟩)
  | .reconcile fsm x => ((), (tm.reconcile crc tm.localBrokerID (partitionsForBroker
      (Runs.final (Controller.fsmStep lib) Controller.newControllerState fsm) tm.localBrokerID)
        x).2)
  | .restart config x => ((), newTopicManager crc tm.dataDir tm.localBrokerID config x)

section Sound

variable {crc : Checksum} {tm : TopicManager}

theorem startPartition_roleOf (tm : TopicManager) (initialLeader : Bool) (l : Log) (io : Faults) :
    (tm.startPartition initialLeader l io).2.RoleOf tm.localBrokerID := by
  unfold startPartition
  simp only
  split
  · obtain ⟨r, q, he, hlocal, hcase⟩ := (newPartition tm.localBrokerID l).makeLeader_role 1
      [tm.localBrokerID] l.nextOffset io
    rw [he]
    rcases hcase with ⟨-, hl, -⟩ | ⟨-, rfl | ⟨-, hid⟩⟩
    · exact ⟨hlocal, .inl hl⟩
    · exact Partition.roleOf_new _ _
    · exact ⟨hlocal, .inr (.inl hid)⟩
  · exact Partition.roleOf_new _ _

theorem createPartitions_roleOf {name : String} {initialLeader : Bool} {x : Nat → OpenFaults}
    {n : Nat} :
    ∀ {i : Nat} {d d' : DataDir} {t : Topic},
    createPartitions crc tm name initialLeader x n i d = (.ok t, d') →
    t.length = n ∧ ∀ p, some p ∈ t → p.partition.RoleOf tm.localBrokerID := by
  induction n with
  | zero =>
    intro i d d' t h
    cases h
    exact ⟨rfl, fun p hp => absurd hp List.not_mem_nil⟩
  | succ n ih =>
    intro i d d' t h
    rw [createPartitions] at h
    split at h
    · cases h
    rename_i l d₁ ho
    split at h
    · cases h
    rename_i p hs
    split at h
    · cases h
    rename_i ps d₂ hc
    cases h
    obtain ⟨hlen, hroles⟩ := ih hc
    refine ⟨by rw [List.length_cons, hlen], fun q hq => ?_⟩
    rcases List.mem_cons.mp hq with hq | hq
    · cases hq
      have := tm.startPartition_roleOf initialLeader l (x i).io
      rw [hs] at this
      exact this
    · exact hroles q hq

theorem Sound.createTopic (h : tm.Sound) (name : String) (x : Nat → OpenFaults) :
    (tm.createTopic crc name 1 true x).2.Sound := by
  rcases createTopic_cases crc tm name 1 true x with
    ⟨e, he⟩ | ⟨-, -, -, r, d, hc, ⟨e, rfl, he⟩ | ⟨t, rfl, he⟩⟩
  · rw [he]
    exact h
  · rw [he]
    exact ⟨h.length, h.role⟩
  · rw [he]
    obtain ⟨hlen, hroles⟩ := createPartitions_roleOf hc
    refine ⟨fun topic n hn => ?_, fun topic i p hp => ?_⟩
    · rw [partitionCount_insert] at hn
      split at hn
      · cases hn
        rw [hlen]
        decide
      · exact h.length topic n hn
    · rw [slot_insert] at hp
      split at hp
      · exact hroles p (List.mem_of_getElem? (Option.join_eq_some_iff.mp hp))
      · exact h.role topic i p hp

theorem Sound.deleteTopic (h : tm.Sound) (name : String) : (tm.deleteTopic name).Sound := by
  unfold TopicManager.deleteTopic
  split
  · exact h
  · refine ⟨fun topic n hn => ?_, fun topic i p hp => ?_⟩
    · simp only [partitionCount, ExtTreeMap.getElem?_erase] at hn
      split at hn
      · cases hn
      · exact h.length topic n hn
    · simp only [slot, ExtTreeMap.getElem?_erase] at hp
      split at hp
      · cases hp
      · exact h.role topic i p hp

theorem sound_new (crc : Checksum) (dataDir : DataDir) (localBrokerID : Int32) (config : LogConfig)
    (x : String → OpenFaults) : (newTopicManager crc dataDir localBrokerID config x).Sound := by
  have hlook : ∀ (topic : String) (t : Topic),
      (newTopicManager crc dataDir localBrokerID config x).topics[topic]? = some t →
      t.length ≤ 10000 ∧ ∀ (i : Nat) (p : LocalPartition), t[i]? = some (some p) →
        p.partition.RoleOf localBrokerID := by
    intro topic t ht
    unfold newTopicManager at ht
    rw [lookup_recoverFromDisk] at ht
    split at ht
    · cases ht
    unfold recoverTopic at ht
    split at ht
    · cases ht
    rename_i hsmall
    cases ht
    refine ⟨by rw [length_fillTable, List.length_replicate]; omega, fun i p hp => ?_⟩
    rcases fillTable_origin hp with hp | ⟨d, -, -, hp⟩
    · simp [List.getElem?_replicate] at hp
    · unfold recoverPartition at hp
      split at hp
      · cases hp
      · cases hp
        exact Partition.roleOf_new _ _
  refine ⟨fun topic n hn => ?_, fun topic i p hp => ?_⟩
  · obtain ⟨t, ht, rfl⟩ := partitionCount_eq_some.mp hn
    have := (hlook topic t ht).1
    omega
  · obtain ⟨t, ht, hget⟩ := slot_eq_some.mp hp
    exact (hlook topic t ht).2 i p hget

theorem Sound.handle (h : tm.Sound) (lib : Controller.Stdlib) (e : ManagerEvent) :
    (tm.handle crc lib e).2.Sound ∧ (tm.handle crc lib e).2.localBrokerID = tm.localBrokerID := by
  cases e with
  | autoCreate name x =>
    refine ⟨h.createTopic name x, ?_⟩
    rcases createTopic_cases crc tm name 1 true x with
      ⟨e, he⟩ | ⟨-, -, -, r, d, -, ⟨e, -, he⟩ | ⟨t, -, he⟩⟩ <;> simp [TopicManager.handle, he]
  | deleteTopic name =>
    refine ⟨h.deleteTopic name, ?_⟩
    simp only [TopicManager.handle, TopicManager.deleteTopic]
    split <;> rfl
  | operate topic index op io =>
    simp only [TopicManager.handle]
    cases hget : tm.getPartition topic index with
    | error e => exact ⟨h, rfl⟩
    | ok p =>
      have hp := (getPartition_eq_slot.mp hget).2
      exact ⟨h.store topic _ ((h.role topic _ p hp).same
        (p.partition.perform_sameRole crc op.2 io)), rfl⟩
  | reconcile fsm x =>
    have hlist := (Controller.controller_state_invariant lib fsm).listing tm.localBrokerID
    obtain ⟨r, tm', he, hs, hid, -⟩ := reconcile_spec crc h rfl hlist x
    simp only [TopicManager.handle, he]
    exact ⟨hs, hid⟩
  | restart config x => exact ⟨sound_new crc tm.dataDir tm.localBrokerID config x, rfl⟩

end Sound

end TopicManager

open TopicManager in
/-- Whatever a broker has been through: a `Reconcile` that returns no error leaves
every partition that the controller lists with exactly its assigned role, takes
the role from all others, and the same call again changes nothing. -/
theorem reconcile_settles (crc : Checksum) (lib : Controller.Stdlib) (dataDir : DataDir)
    (brokerID : Int32) (config : LogConfig) (x₀ : String → OpenFaults) (events : List ManagerEvent)
    (fsm : List Controller.Event) (x : String → OpenFaults) (tm : TopicManager)
    (h : (Runs.final (handle crc lib) (newTopicManager crc dataDir brokerID config x₀)
        events).reconcile crc brokerID (partitionsForBroker
          (Runs.final (Controller.fsmStep lib) Controller.newControllerState fsm) brokerID) x =
      (.ok (), tm)) :
    (∀ pm ∈ partitionsForBroker
        (Runs.final (Controller.fsmStep lib) Controller.newControllerState fsm) brokerID,
      ∃ p, tm.getPartition pm.topic pm.partition = .ok p ∧
        p.partition.leaderID = pm.leaderBrokerId ∧ p.partition.leaderEpoch = pm.leaderEpoch ∧
        (p.partition.isLeader = true ↔ pm.leaderBrokerId = brokerID) ∧
        (p.partition.isLeader = true → p.partition.isrSnapshot = pm.isr)) ∧
    (∀ topic index p, tm.getPartition topic index = .ok p →
      (∀ pm ∈ partitionsForBroker
        (Runs.final (Controller.fsmStep lib) Controller.newControllerState fsm) brokerID,
        pm.key ≠ ⟨topic, index⟩) →
      p.partition.isLeader = false ∧ p.partition.leaderID = -1) ∧
    ∀ x' : String → OpenFaults, tm.reconcile crc brokerID (partitionsForBroker
        (Runs.final (Controller.fsmStep lib) Controller.newControllerState fsm) brokerID) x' =
      (.ok (), tm) := by
  generalize hpms : partitionsForBroker
    (Runs.final (Controller.fsmStep lib) Controller.newControllerState fsm) brokerID = pms at h ⊢
  have hlist : Listing pms :=
    hpms ▸ (Controller.controller_state_invariant lib fsm).listing brokerID
  obtain ⟨hs, hid⟩ := Runs.invariant (handle crc lib)
    (P := fun tm => tm.Sound ∧ tm.localBrokerID = brokerID)
    (fun tm e h => ⟨(h.1.handle lib e).1, (h.1.handle lib e).2.trans h.2⟩)
    ⟨sound_new crc dataDir brokerID config x₀, rfl⟩ events
  obtain ⟨r, tm', he, hs', hid', hok⟩ := reconcile_spec crc hs hid hlist x
  obtain ⟨rfl, rfl⟩ := Prod.mk.inj (he.symm.trans h)
  have hset := hok rfl
  refine ⟨fun pm hpm => ?_, fun topic index p hp hne => ?_, fun x' =>
    hset.reconcile hs' hid' hlist crc x'⟩
  · obtain ⟨p, hp, hm⟩ := hset.listed pm hpm
    exact ⟨p, getPartition_eq_slot.mpr ⟨hlist.partition_nonneg pm hpm, hp⟩, hm.leaderID,
      hm.leaderEpoch, hm.isLeader, hm.isr⟩
  · obtain ⟨hpos, hslot⟩ := getPartition_eq_slot.mp hp
    refine hset.others topic _ p hslot fun pm hpm htopic hi => hne pm hpm ?_
    have h1 := Controller.nonneg_toInt hpos
    have h2 := Controller.nonneg_toInt (hlist.partition_nonneg pm hpm)
    have heq : index = pm.partition := Int32.toInt_inj.mp (by omega)
    rw [PartitionMetadata.key, htopic, heq]

namespace TopicManager

/-- The state machine assigns `t/0` to broker 1, which has created `s` by itself. -/
def sampleAssignments : List PartitionMetadata :=
  partitionsForBroker (Runs.final (Controller.fsmStep Controller.sampleLib)
    Controller.newControllerState ((Controller.sampleLogs.take 3).map .apply)) 1

def sampleReconcile : Except AssignError Unit × TopicManager :=
  (Runs.final (handle crc32c Controller.sampleLib) sampleManager
    [.autoCreate "s" fun _ => .none]).reconcile crc32c 1 sampleAssignments fun _ => .none

end TopicManager

open TopicManager in
theorem reconcile_settles_sample :
    sampleAssignments = [⟨"t", 0, 1, 0, 0, [1], [1]⟩] ∧ sampleReconcile.1 = .ok () ∧
    (∃ p, sampleReconcile.2.getPartition "t" 0 = .ok p ∧ p.partition.isLeader = true ∧
      p.partition.isrSnapshot = [1]) ∧
    sampleReconcile.2.reconcile crc32c 1 sampleAssignments (fun _ => .none) =
      (.ok (), sampleReconcile.2) := by
  have hpms : sampleAssignments = [⟨"t", 0, 1, 0, 0, [1], [1]⟩] := by decide +kernel
  have hok : sampleReconcile.1 = .ok () := by decide +kernel
  have hrun : sampleReconcile = (.ok (), sampleReconcile.2) := by
    rw [← hok, Prod.mk.eta]
  obtain ⟨hlisted, -, hagain⟩ := reconcile_settles crc32c Controller.sampleLib ∅ 1 Log.tightConfig
    (fun _ => .none) [.autoCreate "s" fun _ => .none] ((Controller.sampleLogs.take 3).map .apply)
    (fun _ => .none) sampleReconcile.2 hrun
  obtain ⟨p, hp, -, -, hl, hisr⟩ := hlisted ⟨"t", 0, 1, 0, 0, [1], [1]⟩ (by
    change _ ∈ sampleAssignments
    rw [hpms]
    exact List.mem_singleton_self _)
  exact ⟨hpms, hok, ⟨p, hp, hl.mpr rfl, hisr (hl.mpr rfl)⟩, hagain _⟩

end MessageBroker.Broker
