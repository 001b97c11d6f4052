import MessageBroker.Controller.Fencing

/-!
# A snapshot stands for the log it replaces

`Restore` validates everything again, so each of its checks has to accept every
state that commands can reach, and normalising stored endpoints has to give
them back. Then the loaded state is the saved one, and a suffix of the log
cannot tell them apart.
-/
namespace MessageBroker.Controller

open Std Lib Lib.Maps

/-- What is assumed of the two string functions. -/
structure StringLaws (lib : Stdlib) : Prop where
  toUpper_idem : ∀ s, lib.toUpper (lib.toUpper s) = lib.toUpper s
  trimSpace_idem : ∀ s, lib.trimSpace (lib.trimSpace s) = lib.trimSpace s
  toUpper_trimmed : ∀ s, lib.trimSpace s = s → lib.trimSpace (lib.toUpper s) = lib.toUpper s

/-- `encoding/json` encodes the snapshot and decodes it to the same value. -/
def RoundTrips (lib : Stdlib) (data : SnapshotData) : Prop :=
  ∃ raw, lib.marshalSnapshot data = some raw ∧ lib.unmarshalSnapshot raw = some data

/-! ## Normalising endpoints twice -/

/-- An endpoint that normalisation leaves alone. -/
structure NormalEndpoint (lib : Stdlib) (e : BrokerEndpoint) : Prop where
  name_eq : lib.toUpper (lib.trimSpace e.name) = e.name
  host_eq : lib.trimSpace e.host = e.host
  name_ne : e.name ≠ ""
  host_ne : e.host ≠ ""
  port_ne : e.port ≠ 0
  plaintext : e.securityProtocol = securityProtocolPlaintext

theorem normalizeLoop_normal {lib : Stdlib} (hl : StringLaws lib) {es : List BrokerEndpoint} :
    ∀ {seen : List String} {out : List BrokerEndpoint}, normalizeLoop lib seen es = .ok out →
      (∀ e ∈ out, NormalEndpoint lib e ∧ e.name ∉ seen) ∧ (out.map (·.name)).Nodup ∧
        out.length = es.length := by
  induction es with
  | nil =>
    intro seen out h
    cases h
    simp
  | cons e es ih =>
    intro seen out h
    unfold normalizeLoop at h
    simp only at h
    split at h
    · cases h
    rename_i hname
    split at h
    · cases h
    rename_i hhost
    split at h
    · cases h
    rename_i hport
    split at h
    · cases h
    rename_i hproto
    split at h
    · cases h
    rename_i hseen
    split at h
    · cases h
    rename_i rest hrest
    cases h
    obtain ⟨hall, hn, hlen⟩ := ih hrest
    refine ⟨fun x hx => ?_, ?_, by simp [hlen]⟩
    · rcases List.mem_cons.mp hx with rfl | hx
      · refine ⟨⟨?_, hl.trimSpace_idem _, hname, hhost, hport, not_not.mp hproto⟩, hseen⟩
        rw [hl.toUpper_trimmed _ (hl.trimSpace_idem _), hl.toUpper_idem]
      · exact ⟨(hall x hx).1, fun hm => (hall x hx).2 (List.mem_cons_of_mem _ hm)⟩
    · rw [List.map_cons, List.nodup_cons]
      refine ⟨fun hm => ?_, hn⟩
      obtain ⟨x, hx, he⟩ := List.mem_map.mp hm
      exact (hall x hx).2 (by rw [he]; exact List.mem_cons_self)

/-- The loop returns normal endpoints with distinct names as they are. -/
theorem normalizeLoop_self {lib : Stdlib} {es : List BrokerEndpoint} :
    ∀ {seen : List String}, (∀ e ∈ es, NormalEndpoint lib e ∧ e.name ∉ seen) →
      (es.map (·.name)).Nodup → normalizeLoop lib seen es = .ok es := by
  induction es with
  | nil => intros; rfl
  | cons e es ih =>
    intro seen hall hn
    rw [List.map_cons, List.nodup_cons] at hn
    obtain ⟨he, hseen⟩ := hall e List.mem_cons_self
    have hrest : normalizeLoop lib (e.name :: seen) es = .ok es := by
      refine ih (fun x hx => ⟨(hall x (List.mem_cons_of_mem _ hx)).1, ?_⟩) hn.2
      rw [List.mem_cons, not_or]
      exact ⟨fun heq => hn.1 (heq ▸ List.mem_map_of_mem hx), (hall x (List.mem_cons_of_mem _ hx)).2⟩
    unfold normalizeLoop
    have hproto : ¬ e.securityProtocol ≠ securityProtocolPlaintext := not_not_intro he.plaintext
    simp only [he.name_eq, he.host_eq, hrest, if_neg he.name_ne, if_neg he.host_ne,
      if_neg he.port_ne, if_neg hproto, if_neg hseen]

theorem sortEndpoints_sorted (es : List BrokerEndpoint) :
    (sortEndpoints es).Pairwise fun a b => a.name ≤ b.name := by
  have : Std.Total fun a b : BrokerEndpoint => a.name ≤ b.name := ⟨fun a b => Std.le_total⟩
  have : IsTrans BrokerEndpoint fun a b => a.name ≤ b.name := ⟨fun a b c => Std.le_trans⟩
  exact List.pairwise_insertionSort _ es

/-- Normalised endpoints are a fixed point of normalisation. -/
theorem normalizeEndpoints_idem {lib : Stdlib} (hl : StringLaws lib) {es out : List BrokerEndpoint}
    (h : normalizeEndpoints lib es = .ok out) : normalizeEndpoints lib out = .ok out := by
  unfold normalizeEndpoints at h
  split at h
  · cases h
  rename_i hne
  split at h
  · cases h
  rename_i loop hloop
  cases h
  obtain ⟨hall, hn, hlen⟩ := normalizeLoop_normal hl hloop
  have hperm : (sortEndpoints loop).Perm loop := List.perm_insertionSort _ loop
  have hself : normalizeLoop lib [] (sortEndpoints loop) = .ok (sortEndpoints loop) :=
    normalizeLoop_self (fun e he => hall e (hperm.mem_iff.mp he))
      ((hperm.map (·.name)).nodup_iff.mpr hn)
  have hne' : sortEndpoints loop ≠ [] := by
    intro he
    have := hperm.length_eq
    rw [he, hlen] at this
    exact hne (List.length_eq_zero_iff.mp this.symm)
  have hsort : sortEndpoints (sortEndpoints loop) = sortEndpoints loop :=
    (sortEndpoints_sorted loop).insertionSort_eq
  unfold normalizeEndpoints
  rw [if_neg hne', hself]
  simp only [hsort]

/-! ## The loader accepts what the lister wrote -/

/-- Entries are stored as the loader would store them. -/
structure Normalised (lib : Stdlib) (s : ControllerState) : Prop where
  endpoints : ∀ (id : Int32) (b : BrokerInfo), s.brokers[id]? = some b →
    normalizeEndpoints lib b.endpoints = .ok b.endpoints
  topic : ∀ (name : String) (t : TopicState), s.topics[name]? = some t → t = ⟨name⟩ ∧ name ≠ ""

/-- All that `Restore` checks. -/
structure Restorable (lib : Stdlib) (s : ControllerState) : Prop extends Normalised lib s where
  inv : Inv s
  epochs : ∀ (key : TopicPartitionKey) (p : PartitionState), s.partitions[key]? = some p →
    0 ≤ p.leaderEpoch ∧ 0 ≤ p.partitionEpoch

def SnapshotBroker.info (b : SnapshotBroker) : BrokerInfo :=
  ⟨b.id, b.incarnationId, b.brokerEpoch, b.endpoints, b.fenced⟩

theorem loadBrokers_complete {lib : Stdlib} {bs : List SnapshotBroker} :
    ∀ {out : BrokerMap}, (∀ b ∈ bs, ValidBroker b.id b.info ∧
        normalizeEndpoints lib b.endpoints = .ok b.endpoints ∧ b.id ∉ out) →
      (bs.map (·.id)).Nodup →
      loadBrokers lib out bs = .ok (insertAll out (bs.map fun b => (b.id, b.info))) := by
  induction bs with
  | nil => intros; rfl
  | cons b bs ih =>
    intro out hall hn
    rw [List.map_cons, List.nodup_cons] at hn
    obtain ⟨⟨-, h0, hinc, hep⟩, hnorm, hout⟩ := hall b List.mem_cons_self
    unfold loadBrokers
    rw [if_neg (by grind), if_neg (show b.incarnationId ≠ "" from hinc),
      if_neg (show b.brokerEpoch ≠ 0 from hep), hnorm]
    simp only
    rw [if_neg (by simpa using hout)]
    refine ih (fun x hx => ?_) hn.2
    obtain ⟨hv, hx, hxout⟩ := hall x (List.mem_cons_of_mem _ hx)
    exact ⟨hv, hx, notMem_insert (fun he => hn.1 (he ▸ List.mem_map_of_mem ‹_›)) hxout⟩

theorem loadTopics_complete {ts : List SnapshotTopic} :
    ∀ {out : TopicMap}, (∀ t ∈ ts, t.name ≠ "" ∧ t.name ∉ out) → (ts.map (·.name)).Nodup →
      loadTopics out ts = .ok (insertAll out (ts.map fun t => (t.name, ⟨t.name⟩))) := by
  induction ts with
  | nil => intros; rfl
  | cons t ts ih =>
    intro out hall hn
    rw [List.map_cons, List.nodup_cons] at hn
    obtain ⟨hname, hout⟩ := hall t List.mem_cons_self
    unfold loadTopics
    rw [if_neg hname, if_neg (by simpa using hout)]
    refine ih (fun x hx => ?_) hn.2
    obtain ⟨hxname, hxout⟩ := hall x (List.mem_cons_of_mem _ hx)
    exact ⟨hxname, notMem_insert (fun he => hn.1 (he ▸ List.mem_map_of_mem hx)) hxout⟩

theorem loadPartitions_complete {brokers : BrokerMap} {topics : TopicMap}
    {ps : List SnapshotPartition} :
    ∀ {out : PartitionMap}, (∀ p ∈ ps, (0 ≤ p.partition ∧ p.topic ≠ "" ∧ p.topic ∈ topics) ∧
        (0 ≤ p.leaderEpoch ∧ 0 ≤ p.partitionEpoch) ∧
        ValidSpec brokers p.leaderBrokerId p.replicas p.isr ∧ p.key ∉ out) →
      (ps.map (·.key)).Nodup →
      loadPartitions brokers topics out ps =
        .ok (insertAll out (ps.map fun p => (p.key, p.state))) := by
  induction ps with
  | nil => intros; rfl
  | cons p ps ih =>
    intro out hall hn
    rw [List.map_cons, List.nodup_cons] at hn
    obtain ⟨⟨hp, hname, htopic⟩, ⟨hle, hpe⟩, hv, hout⟩ := hall p List.mem_cons_self
    unfold loadPartitions
    rw [if_neg (by grind), if_neg hname, if_neg (by simpa using htopic), if_neg (by grind),
      if_neg (by simpa using hout), validatePartitionSpec_ok.mpr hv]
    refine ih (fun x hx => ?_) hn.2
    obtain ⟨hx1, hx2, hx3, hxout⟩ := hall x (List.mem_cons_of_mem _ hx)
    exact ⟨hx1, hx2, hx3, notMem_insert (fun he => hn.1 (he ▸ List.mem_map_of_mem hx)) hxout⟩

/-- The counting check accepts ids that are exactly `0..n-1`, also when the
32-bit counter wraps. -/
theorem checkTopics_complete {s : ControllerState} (h : Inv s) :
    checkTopics s.partitions (s.topics.toList.map (·.1)) = .ok () := by
  refine checkTopics_ok.mpr fun topic hm => ?_
  rw [ExtTreeMap.map_fst_toList_eq_keys, ExtTreeMap.mem_keys] at hm
  obtain ⟨n, hpos, hids⟩ := h.topic_ids topic hm
  have hmem : ∀ p, p ∈ topicPartitionIds s.partitions topic ↔ 0 ≤ p.toInt ∧ p.toInt < n :=
    fun p => mem_topicPartitionIds.trans (hids p)
  have hn := topicPartitionIds_nodup s.partitions topic
  have hmax : (topicPartitionIds s.partitions topic).length ≤ 2 ^ 31 := by
    simpa using (subperm_range hn fun p hp => ((hmem p).mp hp).1).length_le
  have hzero : 0 < (topicPartitionIds s.partitions topic).length :=
    List.length_pos_of_mem ((hmem 0).mpr ⟨by simp, by simpa using hpos⟩)
  have hlen : (topicPartitionIds s.partitions topic).length ≤ n := by
    have hsub : topicPartitionIds s.partitions topic ⊆ (List.range n).map Int32.ofNat := by
      intro p hp
      obtain ⟨h0, hlt⟩ := (hmem p).mp hp
      have hp31 := Int32.toInt_lt p
      refine List.mem_map.mpr ⟨p.toInt.toNat, List.mem_range.mpr (by omega), ?_⟩
      apply Int32.toInt_inj.mp
      rw [Int32.toInt_ofNat_of_lt (by omega)]
      omega
    simpa using (List.subperm_of_subset hn hsub).length_le
  rw [partitionCount_eq]
  have hcount : (Int32.ofNat (topicPartitionIds s.partitions topic).length).toInt =
      (topicPartitionIds s.partitions topic).length ∨
      (Int32.ofNat (topicPartitionIds s.partitions topic).length).toInt = -2 ^ 31 := by
    rcases Nat.lt_or_ge (topicPartitionIds s.partitions topic).length (2 ^ 31) with hlt | hge
    · exact .inl (Int32.toInt_ofNat_of_lt hlt)
    · right
      rw [Nat.le_antisymm hmax hge]
      decide
  refine ⟨fun he => ?_, fun p hp => ?_⟩
  · rw [he, Int32.toInt_zero] at hcount
    omega
  · rw [mem_int32Range] at hp
    exact (hids p).mpr ⟨hp.1, by omega⟩

theorem loadBrokers_toSnapshotData {lib : Stdlib} {s : ControllerState} (h : Restorable lib s) :
    loadBrokers lib ∅ (toSnapshotData s).brokers = .ok s.brokers := by
  have hlist : (toSnapshotData s).brokers.Perm (s.brokers.toList.map fun e => e.2.toSnapshot) :=
    List.perm_insertionSort _ _
  have hget : ∀ e ∈ s.brokers.toList, s.brokers[e.1]? = some e.2 := fun e he =>
    ExtTreeMap.mem_toList_iff_getElem?_eq_some.mp he
  have hback := map_perm_toList (g := fun b => (b.id, b.info)) hlist fun e he => by
    have hid := (h.inv.broker e.1 e.2 (hget e he)).id_eq
    exact Prod.ext hid rfl
  rw [loadBrokers_complete, insertAll_of_perm hback]
  · intro b hb
    obtain ⟨e, he, rfl⟩ := List.mem_map.mp (hlist.mem_iff.mp hb)
    obtain ⟨hid, h0, hinc, hep⟩ := h.inv.broker e.1 e.2 (hget e he)
    exact ⟨⟨rfl, show 0 ≤ e.2.id by rw [hid]; exact h0, hinc, hep⟩,
      h.endpoints e.1 e.2 (hget e he), by simp⟩
  · have hn := (hback.map Prod.fst).nodup_iff.mpr (nodup_fst_toList s.brokers)
    rwa [List.map_map] at hn

theorem loadTopics_toSnapshotData {lib : Stdlib} {s : ControllerState} (h : Restorable lib s) :
    loadTopics ∅ (toSnapshotData s).topics = .ok s.topics := by
  have hlist : (toSnapshotData s).topics.Perm (s.topics.toList.map fun e => ⟨e.1⟩) :=
    List.perm_insertionSort _ _
  have hget : ∀ e ∈ s.topics.toList, e.2 = ⟨e.1⟩ ∧ e.1 ≠ "" := fun e he =>
    h.topic e.1 e.2 (ExtTreeMap.mem_toList_iff_getElem?_eq_some.mp he)
  have hback := map_perm_toList (g := fun t : SnapshotTopic => (t.name, (⟨t.name⟩ : TopicState)))
    hlist fun e he => Prod.ext rfl (hget e he).1.symm
  rw [loadTopics_complete, insertAll_of_perm hback]
  · intro t ht
    obtain ⟨e, he, rfl⟩ := List.mem_map.mp (hlist.mem_iff.mp ht)
    exact ⟨(hget e he).2, by simp⟩
  · have hn := (hback.map Prod.fst).nodup_iff.mpr (nodup_fst_toList s.topics)
    rwa [List.map_map] at hn

theorem loadPartitions_toSnapshotData {lib : Stdlib} {s : ControllerState} (h : Restorable lib s) :
    loadPartitions s.brokers s.topics ∅ (toSnapshotData s).partitions = .ok s.partitions := by
  have hlist : (toSnapshotData s).partitions.Perm
      (s.partitions.toList.map fun e => e.2.toSnapshot e.1) := List.perm_insertionSort _ _
  have hget : ∀ e ∈ s.partitions.toList, s.partitions[e.1]? = some e.2 := fun e he =>
    ExtTreeMap.mem_toList_iff_getElem?_eq_some.mp he
  have hback := map_perm_toList (g := fun p => (p.key, p.state)) hlist fun e _ => rfl
  rw [loadPartitions_complete, insertAll_of_perm hback]
  · intro p hp
    obtain ⟨e, he, rfl⟩ := List.mem_map.mp (hlist.mem_iff.mp hp)
    have hmem : e.1 ∈ s.partitions := by
      rw [ExtTreeMap.mem_iff_isSome_getElem?, hget e he]
      rfl
    have htopic := h.inv.partition_topic e.1 hmem
    obtain ⟨t, ht⟩ := Option.isSome_iff_exists.mp (ExtTreeMap.mem_iff_isSome_getElem?.mp htopic)
    obtain ⟨n, -, hids⟩ := h.inv.topic_ids e.1.topic htopic
    exact ⟨⟨Int32.le_iff_toInt_le.mpr ((hids e.1.partition).mp hmem).1,
      (h.topic e.1.topic t ht).2, htopic⟩, h.epochs e.1 e.2 (hget e he),
      h.inv.partition_spec e.1 e.2 (hget e he), by simp⟩
  · have hn := (hback.map Prod.fst).nodup_iff.mpr (nodup_fst_toList s.partitions)
    rwa [List.map_map] at hn

/-- Loading the listing of a restorable state gives the state back. -/
theorem fromSnapshotData_toSnapshotData {lib : Stdlib} {s : ControllerState}
    (h : Restorable lib s) : fromSnapshotData lib (toSnapshotData s) = .ok s := by
  have hversion : ¬ (toSnapshotData s).version ≠ currentSnapshotVersion := not_not_intro rfl
  unfold fromSnapshotData
  rw [if_neg hversion, loadBrokers_toSnapshotData h]
  simp only
  rw [loadTopics_toSnapshotData h]
  simp only
  rw [loadPartitions_toSnapshotData h]
  simp only
  rw [checkTopics_complete h.inv]

/-! ## Every run of commands leaves a restorable state -/

theorem normalised_insert_broker {lib : Stdlib} {s : ControllerState} (h : Normalised lib s)
    {id : Int32} {b : BrokerInfo} (hb : normalizeEndpoints lib b.endpoints = .ok b.endpoints) :
    Normalised lib { s with brokers := s.brokers.insert id b } where
  endpoints i x hx := by
    simp only [lookup_insert] at hx
    split at hx
    · cases hx; exact hb
    · exact h.endpoints i x hx
  topic := h.topic

theorem apply_normalised {lib : Stdlib} (hl : StringLaws lib) {s : ControllerState}
    (h : Normalised lib s) (log : Option RaftLog) : Normalised lib (apply lib s log).2 := by
  unfold apply
  split
  · exact h
  rename_i cmd index _
  cases cmd with
  | registerBroker cmd =>
    simp only [applyCommand, wrap_snd]
    rcases registerBroker_cases lib s cmd index with hs | ⟨es, hes, -, -, -, -, hr⟩
    · rw [hs]; exact h
    · rw [hr]; exact normalised_insert_broker h (normalizeEndpoints_idem hl hes)
  | unfenceBroker cmd =>
    simp only [applyCommand, wrap_snd]
    rcases unfenceBroker_cases s cmd with hs | ⟨b, hb, hr⟩
    · rw [hs]; exact h
    · rw [hr]; exact normalised_insert_broker h (h.endpoints _ b hb)
  | createTopic cmd =>
    simp only [applyCommand, wrap_snd]
    rcases createTopic_cases s cmd with ⟨-, hs⟩ | ⟨hname, -, -, -, -, -, hr⟩
    · rw [hs]; exact h
    · rw [hr]
      refine ⟨h.endpoints, fun name t ht => ?_⟩
      simp only [lookup_insert] at ht
      split at ht
      · rename_i he
        cases ht
        exact ⟨by rw [he], he ▸ hname⟩
      · exact h.topic name t ht
  | updatePartition cmd =>
    simp only [applyCommand, wrap_snd]
    rcases updatePartition_cases s cmd with ⟨-, hs⟩ | ⟨_, _, _, _, _, hr⟩
    · rw [hs]; exact h
    · rw [hr]; exact ⟨h.endpoints, h.topic⟩

theorem normalised_new (lib : Stdlib) : Normalised lib newControllerState where
  endpoints id b h := by simp [newControllerState] at h
  topic name t h := by simp [newControllerState] at h

theorem restorable_stateAt {lib : Stdlib} (hl : StringLaws lib) {logs : List (Option RaftLog)}
    (hcount : ∀ key, (acceptedUpdates lib key newControllerState logs).length < 2 ^ 31) (k : Nat) :
    Restorable lib (stateAt lib logs k) where
  toNormalised := Runs.invariant (apply lib) (P := Normalised lib)
    (fun _ log h => apply_normalised hl h log) (normalised_new lib) _
  inv := inv_stateAt lib logs k
  epochs key p hp := by
    have hk := acceptedUpdates_take_le lib key logs k
    have hlt := hcount key
    have ht := run_tracked lib key (logs.take k) (by omega)
    have hle := (ht.leader p hp).1
    have hpe := ht.epoch p hp
    exact ⟨Int32.le_iff_toInt_le.mpr hle,
      Int32.le_iff_toInt_le.mpr (by rw [hpe]; exact Int.natCast_nonneg _)⟩

/-- Snapshot, persist and restore at any point of a log give the state back, and
the rest of the log then answers and ends as without the detour. -/
theorem snapshot_equals_replay (lib : Stdlib) (hl : StringLaws lib)
    (logs : List (Option RaftLog)) (k : Nat)
    (hcount : ∀ key, (acceptedUpdates lib key newControllerState logs).length < 2 ^ 31)
    (hjson : RoundTrips lib (toSnapshotData (stateAt lib logs k))) :
    ∃ raw restored, persist lib (stateAt lib logs k) .good = .ok raw ∧
      restore lib newControllerState ⟨raw, false, false⟩ = (.ok (), restored) ∧
      restored = stateAt lib logs k ∧
      Runs.final (apply lib) restored (logs.drop k) =
        Runs.final (apply lib) newControllerState logs ∧
      Runs.outputs (apply lib) newControllerState (logs.take k) ++
          Runs.outputs (apply lib) restored (logs.drop k) =
        Runs.outputs (apply lib) newControllerState logs := by
  obtain ⟨raw, hm, hu⟩ := hjson
  have hload := fromSnapshotData_toSnapshotData (restorable_stateAt hl hcount k)
  refine ⟨raw, stateAt lib logs k, ?_, ?_, rfl, ?_, ?_⟩
  · simp [persist, hm, SnapshotSink.good]
  · simp [restore, hu, hload]
  · rw [stateAt, ← Runs.final_append, List.take_append_drop]
  · rw [stateAt, ← Runs.outputs_append, List.take_append_drop]

theorem stringLaws_sample : StringLaws sampleLib where
  toUpper_idem := Ascii.upper_upper
  trimSpace_idem := Ascii.trim_trim
  toUpper_trimmed s h := (Ascii.trim_upper s).trans (congrArg Ascii.upper h)

theorem snapshot_equals_replay_sample :
    ∃ raw restored, persist sampleLib (stateAt sampleLib sampleLogs 3) .good = .ok raw ∧
      restore sampleLib newControllerState ⟨raw, false, false⟩ = (.ok (), restored) ∧
      restored = stateAt sampleLib sampleLogs 3 ∧
      Runs.final (apply sampleLib) restored (sampleLogs.drop 3) =
        Runs.final (apply sampleLib) newControllerState sampleLogs ∧
      Runs.outputs (apply sampleLib) newControllerState (sampleLogs.take 3) ++
          Runs.outputs (apply sampleLib) restored (sampleLogs.drop 3) =
        Runs.outputs (apply sampleLib) newControllerState sampleLogs := by
  have hdata : toSnapshotData (stateAt sampleLib sampleLogs 3) = sampleSnapshot := by
    decide +kernel
  refine snapshot_equals_replay sampleLib stringLaws_sample sampleLogs 3 (fun key => ?_) ?_
  · exact (Runs.length_collect_le (apply sampleLib) (acceptedUpdate sampleLib key)
      newControllerState sampleLogs).trans_lt (by decide)
  · rw [hdata]
    exact ⟨textBytes snapshotText, by decide +kernel, by decide +kernel⟩

end MessageBroker.Controller
