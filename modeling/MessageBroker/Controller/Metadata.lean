import MessageBroker.Controller.Invariant

/-!
# What the controller tells a broker

The partitions assigned to a broker, as the state machine lists them: those that
name it as a replica, by topic and partition. Of every reachable state the
listing names each partition once, under a partition id and a leader id that are
not negative.
-/
namespace MessageBroker.Controller

open Std Lib

structure PartitionMetadata where
  topic : String
  partition : Int32
  leaderBrokerId : Int32
  leaderEpoch : Int32
  partitionEpoch : Int32
  replicas : List Int32
  isr : List Int32
  deriving DecidableEq

def partitionMetadata (key : TopicPartitionKey) (p : PartitionState) : PartitionMetadata :=
  ⟨key.topic, key.partition, p.leaderBrokerId, p.leaderEpoch, p.partitionEpoch, p.replicas, p.isr⟩

def PartitionMetadata.key (pm : PartitionMetadata) : TopicPartitionKey := ⟨pm.topic, pm.partition⟩

/-- `PartitionsForBroker`; the entries of the map come in the order of
`sortPartitionMetadata`. -/
def partitionsForBroker (s : ControllerState) (brokerID : Int32) : List PartitionMetadata :=
  (s.partitions.toList.filter fun e => brokerID ∈ e.2.replicas).map fun e =>
    partitionMetadata e.1 e.2

/-- What a broker may rely on in a listing. -/
structure Listing (pms : List PartitionMetadata) : Prop where
  nodup : (pms.map PartitionMetadata.key).Nodup
  partition_nonneg : ∀ pm ∈ pms, 0 ≤ pm.partition
  leader_nonneg : ∀ pm ∈ pms, 0 ≤ pm.leaderBrokerId

theorem Listing.tail {pm : PartitionMetadata} {pms : List PartitionMetadata}
    (h : Listing (pm :: pms)) : Listing pms :=
  ⟨(List.nodup_cons.mp h.nodup).2,
    fun q hq => h.partition_nonneg q (List.mem_cons_of_mem pm hq),
    fun q hq => h.leader_nonneg q (List.mem_cons_of_mem pm hq)⟩

theorem nonneg_toInt {p : Int32} (h : 0 ≤ p) : 0 ≤ p.toInt := by
  have := Int32.le_iff_toInt_le.mp h
  simpa using this

/-- Two listed partitions with the same topic and number are the same. -/
theorem Listing.key_inj {pms : List PartitionMetadata} (h : Listing pms) {pm q : PartitionMetadata}
    (hpm : pm ∈ pms) (hq : q ∈ pms) (htopic : pm.topic = q.topic)
    (hpart : pm.partition.toInt.toNat = q.partition.toInt.toNat) : pm.key = q.key := by
  have hp := nonneg_toInt (h.partition_nonneg pm hpm)
  have hq := nonneg_toInt (h.partition_nonneg q hq)
  have he : pm.partition = q.partition := Int32.toInt_inj.mp (by omega)
  rw [PartitionMetadata.key, PartitionMetadata.key, htopic, he]

theorem Listing.head_ne {pm q : PartitionMetadata} {pms : List PartitionMetadata}
    (h : Listing (pm :: pms)) (hq : q ∈ pms) (htopic : pm.topic = q.topic) :
    pm.partition.toInt.toNat ≠ q.partition.toInt.toNat := by
  intro hpart
  have hkey := h.key_inj List.mem_cons_self (List.mem_cons_of_mem pm hq) htopic hpart
  exact (List.nodup_cons.mp h.nodup).1 (hkey ▸ List.mem_map_of_mem hq)

theorem Inv.listing {s : ControllerState} (h : Inv s) (brokerID : Int32) :
    Listing (partitionsForBroker s brokerID) := by
  have hentry : ∀ pm ∈ partitionsForBroker s brokerID, ∃ p, s.partitions[pm.key]? = some p ∧
      pm = partitionMetadata pm.key p := by
    intro pm hpm
    obtain ⟨⟨key, p⟩, he, rfl⟩ := List.mem_map.mp hpm
    exact ⟨p, ExtTreeMap.mem_toList_iff_getElem?_eq_some.mp (List.mem_of_mem_filter he), rfl⟩
  refine ⟨?_, fun pm hpm => ?_, fun pm hpm => ?_⟩
  · have hsub : ((partitionsForBroker s brokerID).map PartitionMetadata.key).Sublist
        (s.partitions.toList.map Prod.fst) := by
      rw [partitionsForBroker, List.map_map]
      exact List.filter_sublist.map Prod.fst
    exact hsub.nodup (Maps.nodup_fst_toList s.partitions)
  · obtain ⟨p, hp, -⟩ := hentry pm hpm
    have hmem : pm.key ∈ s.partitions := ExtTreeMap.mem_iff_isSome_getElem?.mpr (by rw [hp]; rfl)
    obtain ⟨n, -, hn⟩ := h.topic_ids pm.topic (h.partition_topic pm.key hmem)
    have := ((hn pm.partition).mp hmem).1
    rw [Int32.le_iff_toInt_le]
    simpa using this
  · obtain ⟨p, hp, he⟩ := hentry pm hpm
    have hspec := h.partition_spec pm.key p hp
    have hreg := hspec.registered _ (hspec.isr_replicas _ hspec.leader_isr)
    obtain ⟨b, hb⟩ := Option.isSome_iff_exists.mp (ExtTreeMap.mem_iff_isSome_getElem?.mp hreg)
    rw [he]
    exact (h.broker _ b hb).id_nonneg

end MessageBroker.Controller
