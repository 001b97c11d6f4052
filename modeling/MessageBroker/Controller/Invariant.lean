import MessageBroker.Controller.Validation

/-!
# The controller state invariant

Brokers and partitions live in different maps, but what a partition may name
depends on who is registered and unfenced. The invariant links them, and both
ways into the state keep it: the four commands of `Apply` and the loader of
`Restore`. Nothing is assumed of the decoders, so every byte string is covered.
-/
namespace MessageBroker.Controller

open Std Lib Lib.Maps

/-- What every stored broker satisfies under its key. -/
structure ValidBroker (id : Int32) (b : BrokerInfo) : Prop where
  id_eq : b.id = id
  id_nonneg : 0 ≤ id
  incarnation : b.incarnationId ≠ ""
  epoch : b.brokerEpoch ≠ 0

/-- The invariant of every reachable controller state. -/
structure Inv (s : ControllerState) : Prop where
  topic_ids : ∀ topic ∈ s.topics, ∃ n : Nat, 0 < n ∧
    ∀ p : Int32, (⟨topic, p⟩ : TopicPartitionKey) ∈ s.partitions ↔ 0 ≤ p.toInt ∧ p.toInt < n
  partition_topic : ∀ key ∈ s.partitions, key.topic ∈ s.topics
  partition_spec : ∀ (key : TopicPartitionKey) (p : PartitionState), s.partitions[key]? = some p →
    ValidSpec s.brokers p.leaderBrokerId p.replicas p.isr
  broker : ∀ (id : Int32) (b : BrokerInfo), s.brokers[id]? = some b → ValidBroker id b

theorem inv_new : Inv newControllerState where
  topic_ids topic h := by simp [newControllerState] at h
  partition_topic key h := by simp [newControllerState] at h
  partition_spec key p h := by simp [newControllerState] at h
  broker id b h := by simp [newControllerState] at h

/-! ## What each command can do -/

/-- A registration leaves the state alone, or writes a fenced broker under an id
that was free or held by a fenced broker outside every ISR. -/
theorem registerBroker_cases (lib : Stdlib) (s : ControllerState) (cmd : RegisterBrokerCommand)
    (logIndex : UInt64) :
    (registerBroker lib s cmd logIndex).2 = s ∨
    ∃ endpoints, normalizeEndpoints lib cmd.endpoints = .ok endpoints ∧
      0 ≤ cmd.id ∧ cmd.incarnationId ≠ "" ∧ logIndex ≠ 0 ∧
      (s.brokers[cmd.id]? = none ∨ ∃ b, s.brokers[cmd.id]? = some b ∧ b.fenced = true ∧
        b.incarnationId ≠ cmd.incarnationId ∧ brokerInActivePartition s.partitions cmd.id = false) ∧
      registerBroker lib s cmd logIndex = (.ok (), { s with
        brokers := s.brokers.insert cmd.id
          ⟨cmd.id, cmd.incarnationId, logIndex, endpoints, true⟩ }) := by
  unfold registerBroker
  by_cases hid : cmd.id < 0
  · left; simp [hid]
  by_cases hinc : cmd.incarnationId = ""
  · left; simp [hid, hinc]
  by_cases hidx : logIndex = 0
  · left; simp [hid, hinc, hidx]
  rw [if_neg hid, if_neg hinc, if_neg hidx]
  cases hn : normalizeEndpoints lib cmd.endpoints with
  | error e => left; rfl
  | ok endpoints =>
    cases hb : s.brokers[cmd.id]? with
    | none => exact .inr ⟨endpoints, rfl, by grind, hinc, hidx, .inl rfl, rfl⟩
    | some b =>
      simp only
      split
      · left; split <;> rfl
      · rename_i hne
        split
        · left; rfl
        · rename_i hguard
          simp only [Bool.or_eq_true, Bool.not_eq_eq_eq_not, Bool.not_true, not_or,
            Bool.not_eq_false, Bool.not_eq_true] at hguard
          exact .inr ⟨endpoints, rfl, by grind, hinc, hidx,
            .inr ⟨b, rfl, hguard.1, hne, hguard.2⟩, rfl⟩

/-- Unfencing leaves the state alone or clears one broker's fence. -/
theorem unfenceBroker_cases (s : ControllerState) (cmd : UnfenceBrokerCommand) :
    (unfenceBroker s cmd).2 = s ∨
    ∃ b, s.brokers[cmd.brokerId]? = some b ∧
      unfenceBroker s cmd = (.ok (), { s with
        brokers := s.brokers.insert cmd.brokerId { b with fenced := false } }) := by
  unfold unfenceBroker
  cases hb : s.brokers[cmd.brokerId]? with
  | none => left; rfl
  | some b =>
    simp only
    split
    · left; rfl
    · exact .inr ⟨b, rfl, rfl⟩

/-- A topic is created only when it is new and all its partitions are valid and
contiguous; nothing is written before that is known. -/
theorem createTopic_cases (s : ControllerState) (cmd : CreateTopicCommand) :
    ((∃ e, (createTopic s cmd).1 = .error e) ∧ (createTopic s cmd).2 = s) ∨
    (cmd.topic ≠ "" ∧ cmd.topic ∉ s.topics ∧ cmd.partitions ≠ [] ∧
      (cmd.partitions.map (·.partition)).Nodup ∧
      (∀ spec ∈ cmd.partitions, 0 ≤ spec.partition ∧
        ValidSpec s.brokers spec.leaderBrokerId spec.replicas spec.isr) ∧
      (∀ p ∈ int32Range (Int32.ofNat cmd.partitions.length),
        p ∈ cmd.partitions.map (·.partition)) ∧
      createTopic s cmd = (.ok (), { s with
        topics := s.topics.insert cmd.topic ⟨cmd.topic⟩
        partitions := insertSpecs cmd.topic s.partitions cmd.partitions })) := by
  unfold createTopic
  by_cases hname : cmd.topic = ""
  · exact .inl ⟨⟨_, by rw [if_pos hname]⟩, by rw [if_pos hname]⟩
  by_cases hempty : cmd.partitions = []
  · rw [if_neg hname, if_pos hempty]
    exact .inl ⟨⟨_, rfl⟩, rfl⟩
  by_cases hex : s.topics[cmd.topic]?.isSome
  · rw [if_neg hname, if_neg hempty, if_pos hex]
    exact .inl ⟨⟨_, rfl⟩, rfl⟩
  rw [if_neg hname, if_neg hempty, if_neg hex]
  cases hs : scanSpecs s.brokers [] cmd.partitions with
  | error e => exact .inl ⟨⟨_, rfl⟩, rfl⟩
  | ok seen =>
    obtain ⟨⟨hn, hall⟩, -⟩ := scanSpecs_ok hs
    simp only
    split
    · rename_i hc
      refine .inr ⟨hname, by simpa using hex, hempty, hn, fun spec hm => ⟨(hall spec hm).1,
        (hall spec hm).2.2⟩, fun p hp => ?_, rfl⟩
      have := List.all_eq_true.mp hc p hp
      exact (mem_scanSpecs hs p).mp (by simpa using this)
    · exact .inl ⟨⟨_, rfl⟩, rfl⟩

/-- An accepted update names an existing partition at its current epoch, passes
validation, and keeps to the old ISR unless an unclean election was asked for. -/
theorem updatePartition_cases (s : ControllerState) (cmd : UpdatePartitionCommand) :
    ((∃ e, (updatePartition s cmd).1 = .error e) ∧ (updatePartition s cmd).2 = s) ∨
    ∃ current, s.partitions[(⟨cmd.topic, cmd.partition⟩ : TopicPartitionKey)]? = some current ∧
      cmd.expectedPartitionEpoch = current.partitionEpoch ∧
      ValidSpec s.brokers cmd.leaderBrokerId cmd.replicas cmd.isr ∧
      (cmd.leaderBrokerId = current.leaderBrokerId ∨ cmd.leaderBrokerId ∈ current.isr ∨
        cmd.allowUncleanElection = true) ∧
      updatePartition s cmd = (.ok (), { s with
        partitions := s.partitions.insert ⟨cmd.topic, cmd.partition⟩ (current.updated cmd) }) := by
  unfold updatePartition
  simp only
  cases hp : s.partitions[(⟨cmd.topic, cmd.partition⟩ : TopicPartitionKey)]? with
  | none => exact .inl ⟨⟨_, rfl⟩, rfl⟩
  | some current =>
    simp only
    split
    · exact .inl ⟨⟨_, rfl⟩, rfl⟩
    · rename_i hepoch
      cases hv : validatePartitionSpec s.brokers cmd.leaderBrokerId cmd.replicas cmd.isr with
      | error e => exact .inl ⟨⟨_, rfl⟩, rfl⟩
      | ok u =>
        simp only
        split
        · exact .inl ⟨⟨_, rfl⟩, rfl⟩
        · rename_i hclean
          refine .inr ⟨current, rfl, not_not.mp hepoch, validatePartitionSpec_ok.mp hv, ?_, rfl⟩
          by_contra hcon
          push Not at hcon
          exact hclean ⟨hcon.1, hcon.2.1, by simpa using hcon.2.2⟩

/-! ## Preservation -/

/-- Replacing one broker by another keeps the partitions valid when no ISR
relied on the old one, or the new one is active. -/
theorem inv_insert_broker {s : ControllerState} (h : Inv s) {id : Int32} {b : BrokerInfo}
    (hb : ValidBroker id b)
    (hact : Active s.brokers id → b.fenced = false) :
    Inv { s with brokers := s.brokers.insert id b } where
  topic_ids := h.topic_ids
  partition_topic := h.partition_topic
  partition_spec key p hp := by
    refine (h.partition_spec key p hp).mono (fun r _ hr => by simp [hr]) fun m _ hm => ?_
    by_cases he : id = m
    · subst he
      exact ⟨b, ExtTreeMap.getElem?_insert_self, hact hm⟩
    · obtain ⟨x, hx, hf⟩ := hm
      exact ⟨x, by rw [lookup_insert_ne _ he]; exact hx, hf⟩
  broker i x hx := by
    simp only [lookup_insert] at hx
    split at hx
    · rename_i he
      cases hx
      exact he ▸ hb
    · exact h.broker i x hx

theorem registerBroker_inv {lib : Stdlib} {s : ControllerState} (h : Inv s)
    (cmd : RegisterBrokerCommand) (logIndex : UInt64) :
    Inv (registerBroker lib s cmd logIndex).2 := by
  rcases registerBroker_cases lib s cmd logIndex with hs | ⟨es, -, hid, hinc, hidx, hold, hr⟩
  · rw [hs]; exact h
  · rw [hr]
    refine inv_insert_broker h ⟨rfl, hid, hinc, hidx⟩ fun ⟨b, hb, hf⟩ => ?_
    -- the id was free or its holder was fenced, so it was not active
    rcases hold with hnone | ⟨x, hx, hxf, -⟩
    · rw [hnone] at hb; cases hb
    · rw [hx] at hb
      cases hb
      rw [hxf] at hf
      cases hf

theorem unfenceBroker_inv {s : ControllerState} (h : Inv s) (cmd : UnfenceBrokerCommand) :
    Inv (unfenceBroker s cmd).2 := by
  rcases unfenceBroker_cases s cmd with hs | ⟨b, hb, hr⟩
  · rw [hs]; exact h
  · rw [hr]
    obtain ⟨hid, h0, hinc, hep⟩ := h.broker _ b hb
    exact inv_insert_broker h ⟨hid, h0, hinc, hep⟩ fun _ => rfl

/-- Looking up a key after a topic's partitions were inserted. -/
theorem lookup_insertSpecs {topic : String} {specs : List CreateTopicPartitionSpec}
    (hn : (specs.map (·.partition)).Nodup) (m : PartitionMap) (key : TopicPartitionKey) :
    (∃ spec ∈ specs, key = ⟨topic, spec.partition⟩ ∧
      (insertSpecs topic m specs)[key]? = some spec.initial) ∨
    ((∀ spec ∈ specs, key ≠ ⟨topic, spec.partition⟩) ∧
      (insertSpecs topic m specs)[key]? = m[key]?) := by
  let entry (spec : CreateTopicPartitionSpec) : TopicPartitionKey × PartitionState :=
    (⟨topic, spec.partition⟩, spec.initial)
  have hall : insertSpecs topic m specs = insertAll m (specs.map entry) := by
    rw [insertAll, List.foldl_map]
    rfl
  have hkeys : (specs.map entry).map Prod.fst =
      (specs.map (·.partition)).map (TopicPartitionKey.mk topic) := by
    rw [List.map_map, List.map_map]
    rfl
  rw [hall]
  by_cases hk : ∃ spec ∈ specs, key = ⟨topic, spec.partition⟩
  · obtain ⟨spec, hs, rfl⟩ := hk
    refine .inl ⟨spec, hs, rfl, lookup_insertAll_of_mem ?_ (List.mem_map_of_mem (f := entry) hs) m⟩
    rw [hkeys]
    exact hn.map fun a b he => (TopicPartitionKey.mk.inj he).2
  · push Not at hk
    refine .inr ⟨hk, lookup_insertAll_of_notMem (fun hm => ?_) m⟩
    obtain ⟨e, he, rfl⟩ := List.mem_map.mp hm
    obtain ⟨spec, hs, rfl⟩ := List.mem_map.mp he
    exact hk spec hs rfl

theorem mem_insertSpecs {topic : String} {specs : List CreateTopicPartitionSpec}
    (hn : (specs.map (·.partition)).Nodup) (m : PartitionMap) (key : TopicPartitionKey) :
    key ∈ insertSpecs topic m specs ↔
      (key.topic = topic ∧ key.partition ∈ specs.map (·.partition)) ∨ key ∈ m := by
  rw [ExtTreeMap.mem_iff_isSome_getElem?, ExtTreeMap.mem_iff_isSome_getElem?]
  rcases lookup_insertSpecs hn m key with ⟨spec, hs, hk, hv⟩ | ⟨hk, hv⟩
  · rw [hv, hk]
    simpa using Or.inl ⟨spec, hs, rfl⟩
  · rw [hv]
    refine ⟨.inr, ?_⟩
    rintro (⟨ht, hp⟩ | hm)
    · obtain ⟨spec, hs, he⟩ := List.mem_map.mp hp
      exact absurd (by cases key; simp_all) (hk spec hs)
    · exact hm

theorem createTopic_inv {s : ControllerState} (h : Inv s) (cmd : CreateTopicCommand) :
    Inv (createTopic s cmd).2 := by
  rcases createTopic_cases s cmd with ⟨-, hs⟩ | ⟨-, hnew, hne, hn, hall, hcont, hr⟩
  · rw [hs]; exact h
  · rw [hr]
    have hfresh : ∀ p : Int32, (⟨cmd.topic, p⟩ : TopicPartitionKey) ∉ s.partitions :=
      fun p hp => hnew (h.partition_topic _ hp)
    have h0 : ∀ p ∈ cmd.partitions.map (·.partition), 0 ≤ p.toInt := by
      intro p hp
      obtain ⟨spec, hs, rfl⟩ := List.mem_map.mp hp
      exact Int32.le_iff_toInt_le.mp (hall spec hs).1
    refine ⟨fun topic ht => ?_, fun key hk => ?_, fun key p hp => ?_, h.broker⟩
    · by_cases he : cmd.topic = topic
      · subst he
        refine ⟨(cmd.partitions.map (·.partition)).length, ?_, fun p => ?_⟩
        · simpa [List.length_pos_iff] using hne
        · rw [mem_insertSpecs hn, ← contiguous_ids hn h0 (by simpa using hcont)]
          simp [hfresh p]
      · obtain ⟨n, hpos, hids⟩ := h.topic_ids topic (by simpa [he] using ht)
        refine ⟨n, hpos, fun p => ?_⟩
        rw [mem_insertSpecs hn, ← hids p]
        simp [Ne.symm he]
    · rcases (mem_insertSpecs hn _ key).mp hk with ⟨he, -⟩ | hk
      · simp [he]
      · simp [h.partition_topic key hk]
    · rcases lookup_insertSpecs hn s.partitions key with ⟨spec, hs, -, hv⟩ | ⟨-, hv⟩
      · rw [hv] at hp
        cases hp
        exact (hall spec hs).2
      · rw [hv] at hp
        exact h.partition_spec key p hp

theorem updatePartition_inv {s : ControllerState} (h : Inv s) (cmd : UpdatePartitionCommand) :
    Inv (updatePartition s cmd).2 := by
  rcases updatePartition_cases s cmd with ⟨-, hs⟩ | ⟨current, hc, -, hv, -, hr⟩
  · rw [hs]; exact h
  · rw [hr]
    have hmem : (⟨cmd.topic, cmd.partition⟩ : TopicPartitionKey) ∈ s.partitions := by
      rw [ExtTreeMap.mem_iff_isSome_getElem?, hc]; rfl
    -- the key was there before, so the key set does not change
    have hkeys : ∀ key, key ∈ s.partitions.insert ⟨cmd.topic, cmd.partition⟩ (current.updated cmd) ↔
        key ∈ s.partitions := by
      intro key
      rw [ExtTreeMap.mem_insert]
      refine ⟨?_, .inr⟩
      rintro (he | hk)
      · rw [← LawfulEqCmp.compare_eq_iff_eq.mp he]; exact hmem
      · exact hk
    refine ⟨fun topic ht => ?_, fun key hk => h.partition_topic key ((hkeys key).mp hk),
      fun key p hp => ?_, h.broker⟩
    · obtain ⟨n, hpos, hids⟩ := h.topic_ids topic ht
      exact ⟨n, hpos, fun p => (hkeys _).trans (hids p)⟩
    · simp only [lookup_insert] at hp
      split at hp
      · cases hp; exact hv
      · exact h.partition_spec key p hp

theorem wrap_snd {ε : Type} (f : ε → ApplyError) (r : Except ε Unit × ControllerState) :
    (wrap f r).2 = r.2 := by
  unfold wrap
  split <;> rfl

theorem wrap_ok {ε : Type} {f : ε → ApplyError} {r : Except ε Unit × ControllerState} :
    (wrap f r).1 = .ok () ↔ r.1 = .ok () := by
  unfold wrap
  cases h : r.1 with
  | error e => simp
  | ok u => simp

theorem applyCommand_inv {lib : Stdlib} {s : ControllerState} (h : Inv s) (cmd : Command)
    (index : UInt64) : Inv (applyCommand lib s cmd index).2 := by
  cases cmd with
  | registerBroker cmd =>
    simp only [applyCommand, wrap_snd]
    exact registerBroker_inv h cmd index
  | unfenceBroker cmd =>
    simp only [applyCommand, wrap_snd]
    exact unfenceBroker_inv h cmd
  | createTopic cmd =>
    simp only [applyCommand, wrap_snd]
    exact createTopic_inv h cmd
  | updatePartition cmd =>
    simp only [applyCommand, wrap_snd]
    exact updatePartition_inv h cmd

theorem apply_inv {lib : Stdlib} {s : ControllerState} (h : Inv s) (log : Option RaftLog) :
    Inv (apply lib s log).2 := by
  unfold apply
  cases hd : decodeCommand lib log with
  | error e => exact h
  | ok c => exact applyCommand_inv h c.1 c.2

/-! ## The snapshot loader -/

theorem loadBrokers_ok {lib : Stdlib} {bs : List SnapshotBroker} :
    ∀ {out res : BrokerMap}, loadBrokers lib out bs = .ok res →
      (∀ (id : Int32) (b : BrokerInfo), out[id]? = some b → ValidBroker id b) →
      ∀ (id : Int32) (b : BrokerInfo), res[id]? = some b → ValidBroker id b := by
  induction bs with
  | nil =>
    intro out res h hout
    cases h
    exact hout
  | cons x bs ih =>
    intro out res h hout
    unfold loadBrokers at h
    split at h
    · cases h
    rename_i hid
    split at h
    · cases h
    rename_i hinc
    split at h
    · cases h
    rename_i hep
    split at h
    · cases h
    split at h
    · cases h
    refine ih h fun id b hb => ?_
    simp only [lookup_insert] at hb
    split at hb
    · rename_i he
      cases hb
      exact ⟨he, he ▸ (by grind), hinc, hep⟩
    · exact hout id b hb

/-- Every entry of the loaded map passed the checks of its own loop step. -/
theorem loadPartitions_ok {brokers : BrokerMap} {topics : TopicMap} {ps : List SnapshotPartition} :
    ∀ {out res : PartitionMap}, loadPartitions brokers topics out ps = .ok res →
      (∀ (key : TopicPartitionKey) (p : PartitionState), out[key]? = some p →
        0 ≤ key.partition ∧ key.topic ∈ topics ∧
          ValidSpec brokers p.leaderBrokerId p.replicas p.isr) →
      ∀ (key : TopicPartitionKey) (p : PartitionState), res[key]? = some p →
        0 ≤ key.partition ∧ key.topic ∈ topics ∧
          ValidSpec brokers p.leaderBrokerId p.replicas p.isr := by
  induction ps with
  | nil =>
    intro out res h hout
    cases h
    exact hout
  | cons x ps ih =>
    intro out res h hout
    unfold loadPartitions at h
    split at h
    · cases h
    rename_i hneg
    split at h
    · cases h
    split at h
    · cases h
    rename_i htopic
    split at h
    · cases h
    split at h
    · cases h
    split at h
    · cases h
    rename_i hv
    refine ih h fun key p hp => ?_
    simp only [lookup_insert] at hp
    split at hp
    · rename_i he
      cases hp
      subst he
      exact ⟨by simp only [SnapshotPartition.key]; grind,
        by simpa [SnapshotPartition.key] using htopic,
        validatePartitionSpec_ok.mp hv⟩
    · exact hout key p hp

/-- The partition ids stored under a topic, in key order. -/
def topicPartitionIds (partitions : PartitionMap) (topic : String) : List Int32 :=
  (partitions.toList.filter fun e => e.1.topic == topic).map fun e => e.1.partition

theorem partitionCount_eq (partitions : PartitionMap) (topic : String) :
    partitionCount partitions topic = Int32.ofNat (topicPartitionIds partitions topic).length := by
  simp [partitionCount, topicPartitionIds, List.countP_eq_length_filter]

theorem mem_topicPartitionIds {partitions : PartitionMap} {topic : String} {p : Int32} :
    p ∈ topicPartitionIds partitions topic ↔
      (⟨topic, p⟩ : TopicPartitionKey) ∈ partitions := by
  rw [ExtTreeMap.mem_iff_isSome_getElem?, Option.isSome_iff_exists]
  simp only [topicPartitionIds, List.mem_map, List.mem_filter, beq_iff_eq, Prod.exists,
    ExtTreeMap.mem_toList_iff_getElem?_eq_some]
  constructor
  · rintro ⟨⟨t, q⟩, v, ⟨hv, rfl⟩, rfl⟩
    exact ⟨v, hv⟩
  · rintro ⟨v, hv⟩
    exact ⟨⟨topic, p⟩, v, ⟨hv, rfl⟩, rfl⟩

theorem topicPartitionIds_nodup (partitions : PartitionMap) (topic : String) :
    (topicPartitionIds partitions topic).Nodup := by
  have hfilter : ((partitions.toList.filter fun e => e.1.topic == topic).map (·.1)).Nodup :=
    (nodup_fst_toList partitions).sublist (List.filter_sublist.map _)
  unfold topicPartitionIds
  have hcomp : (fun e : TopicPartitionKey × PartitionState => e.1.partition) =
      TopicPartitionKey.partition ∘ Prod.fst := rfl
  rw [hcomp, ← List.map_map]
  -- within one topic the key is its partition id
  refine hfilter.map_on fun a ha b hb he => ?_
  obtain ⟨x, hx, rfl⟩ := List.mem_map.mp ha
  obtain ⟨y, hy, rfl⟩ := List.mem_map.mp hb
  have h1 := (List.mem_filter.mp hx).2
  have h2 := (List.mem_filter.mp hy).2
  simp only [beq_iff_eq] at h1 h2
  have htopic : x.1.topic = y.1.topic := h1.trans h2.symm
  cases hx1 : x.1
  cases hy1 : y.1
  simp_all

theorem checkTopics_ok {partitions : PartitionMap} {ts : List String} :
    checkTopics partitions ts = .ok () ↔ ∀ topic ∈ ts, partitionCount partitions topic ≠ 0 ∧
      ∀ p ∈ int32Range (partitionCount partitions topic),
        (⟨topic, p⟩ : TopicPartitionKey) ∈ partitions := by
  induction ts with
  | nil => simp [checkTopics]
  | cons t ts ih =>
    unfold checkTopics
    simp only [List.forall_mem_cons]
    by_cases hc : partitionCount partitions t = 0
    · simp [hc]
    · rw [if_neg hc]
      split
      · rename_i hall
        simp only [List.all_eq_true] at hall
        rw [ih]
        refine ⟨fun h => ⟨⟨hc, fun p hp => by simpa using hall p hp⟩, h⟩, fun h => h.2⟩
      · rename_i hall
        refine ⟨fun h => (by cases h), fun h => absurd ?_ hall⟩
        rw [List.all_eq_true]
        exact fun p hp => by simpa using h.1.2 p hp

theorem fromSnapshotData_inv {lib : Stdlib} {data : SnapshotData} {s : ControllerState}
    (h : fromSnapshotData lib data = .ok s) : Inv s := by
  unfold fromSnapshotData at h
  split at h
  · cases h
  split at h
  · cases h
  rename_i brokers hb
  split at h
  · cases h
  rename_i topics ht
  split at h
  · cases h
  rename_i partitions hp
  split at h
  · cases h
  rename_i hc
  cases h
  have hpart := loadPartitions_ok hp (by simp)
  have hget : ∀ key ∈ partitions, ∃ p, partitions[key]? = some p := fun key hk =>
    Option.isSome_iff_exists.mp (ExtTreeMap.mem_iff_isSome_getElem?.mp hk)
  refine ⟨fun topic hm => ?_, fun key hk => ?_, fun key p hk => (hpart key p hk).2.2,
    loadBrokers_ok hb (by simp)⟩
  · obtain ⟨h0, hcont⟩ := checkTopics_ok.mp hc topic (by
      rw [ExtTreeMap.map_fst_toList_eq_keys]
      exact ExtTreeMap.mem_keys.mpr hm)
    rw [partitionCount_eq] at h0 hcont
    refine ⟨(topicPartitionIds partitions topic).length, ?_, fun p => ?_⟩
    · rw [List.length_pos_iff]
      intro he
      rw [he] at h0
      exact h0 rfl
    · rw [← mem_topicPartitionIds]
      refine contiguous_ids (topicPartitionIds_nodup _ _) (fun q hq => ?_)
        (fun q hq => mem_topicPartitionIds.mpr (hcont q hq)) p
      obtain ⟨v, hv⟩ := hget _ (mem_topicPartitionIds.mp hq)
      exact Int32.le_iff_toInt_le.mp (hpart _ v hv).1
  · obtain ⟨v, hv⟩ := hget key hk
    exact (hpart key v hv).2.1

theorem restore_inv {lib : Stdlib} {s : ControllerState} (h : Inv s) (src : SnapshotSource) :
    Inv (restore lib s src).2 := by
  unfold restore
  split
  · exact h
  split
  · exact h
  split
  · exact h
  · rename_i hd
    exact fromSnapshotData_inv hd

/-! ## Every reachable state -/

/-- What raft calls on the state machine. -/
inductive Event
  | apply (log : Option RaftLog)
  | restore (src : SnapshotSource)

/-- What the call returned. -/
inductive Verdict
  | applied (r : Except ApplyError Unit)
  | restored (r : Except RestoreError Unit)

/-- One call on the state machine. -/
def fsmStep (lib : Stdlib) (s : ControllerState) : Event → Verdict × ControllerState
  | .apply log => (.applied (apply lib s log).1, (apply lib s log).2)
  | .restore src => (.restored (restore lib s src).1, (restore lib s src).2)

theorem fsmStep_inv (lib : Stdlib) (s : ControllerState) (e : Event) (h : Inv s) :
    Inv (fsmStep lib s e).2 := by
  cases e with
  | apply log => exact apply_inv h log
  | restore src => exact restore_inv h src

/-- Whatever is applied and restored, accepted or rejected, the invariant holds. -/
theorem controller_state_invariant (lib : Stdlib) (events : List Event) :
    Inv (Runs.final (fsmStep lib) newControllerState events) :=
  Runs.invariant (fsmStep lib) (fun s e h => fsmStep_inv lib s e h) inv_new events

end MessageBroker.Controller
