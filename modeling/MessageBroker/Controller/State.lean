import MessageBroker.Lib.Maps

/-!
# Controller metadata and its commands

The state that the raft log replicates: registered brokers, topics and the
partition assignments. Maps are extensional, so two states with the same entries
are equal whatever the order in which the entries were written. Identifiers and
epochs are 32-bit signed words, as in the source, and wrap as such.
-/
namespace MessageBroker.Controller

open Std

/-- `SecurityProtocolPlaintext`. -/
def securityProtocolPlaintext : Int16 := 0

structure BrokerEndpoint where
  name : String
  host : String
  port : UInt16
  securityProtocol : Int16
  deriving DecidableEq

structure BrokerInfo where
  id : Int32
  incarnationId : String
  brokerEpoch : UInt64
  endpoints : List BrokerEndpoint
  fenced : Bool
  deriving DecidableEq

structure TopicState where
  name : String
  deriving DecidableEq

structure PartitionState where
  leaderBrokerId : Int32
  leaderEpoch : Int32
  partitionEpoch : Int32
  replicas : List Int32
  isr : List Int32
  deriving DecidableEq

structure TopicPartitionKey where
  topic : String
  partition : Int32
  deriving DecidableEq

/-- Topic first, then partition: the order of `sortPartitionMetadata`. -/
def TopicPartitionKey.cmp (a b : TopicPartitionKey) : Ordering :=
  compareLex (compareOn TopicPartitionKey.topic) (compareOn TopicPartitionKey.partition) a b

instance : TransCmp TopicPartitionKey.cmp :=
  inferInstanceAs (TransCmp (compareLex (compareOn TopicPartitionKey.topic)
    (compareOn TopicPartitionKey.partition)))

instance : LawfulEqCmp TopicPartitionKey.cmp where
  eq_of_compare {a b} h := by
    obtain ⟨ht, hp⟩ := compareLex_eq_eq.mp h
    cases a
    cases b
    simp only [compareOn, LawfulEqOrd.compare_eq_iff_eq] at ht hp
    subst ht hp
    rfl

abbrev BrokerMap := ExtTreeMap Int32 BrokerInfo compare
abbrev TopicMap := ExtTreeMap String TopicState compare
abbrev PartitionMap := ExtTreeMap TopicPartitionKey PartitionState TopicPartitionKey.cmp

structure ControllerState where
  brokers : BrokerMap
  topics : TopicMap
  partitions : PartitionMap

/-- `newControllerState`. -/
def newControllerState : ControllerState := ⟨∅, ∅, ∅⟩

/-! ## Commands -/

/-- The four command names; any other string is kept. -/
inductive CommandType
  | registerBroker
  | unfenceBroker
  | createTopic
  | updatePartition
  | other (name : String)
  deriving DecidableEq

/-- `CommandEnvelopeVersion1`. -/
def commandEnvelopeVersion1 : Int := 1

structure CommandEnvelope where
  version : Int
  type : CommandType
  payload : List UInt8

structure RegisterBrokerCommand where
  id : Int32
  incarnationId : String
  endpoints : List BrokerEndpoint
  deriving DecidableEq

structure UnfenceBrokerCommand where
  brokerId : Int32
  brokerEpoch : UInt64
  deriving DecidableEq

structure CreateTopicPartitionSpec where
  partition : Int32
  leaderBrokerId : Int32
  replicas : List Int32
  isr : List Int32
  deriving DecidableEq

structure CreateTopicCommand where
  topic : String
  partitions : List CreateTopicPartitionSpec
  deriving DecidableEq

structure UpdatePartitionCommand where
  topic : String
  partition : Int32
  expectedPartitionEpoch : Int32
  leaderBrokerId : Int32
  replicas : List Int32
  isr : List Int32
  allowUncleanElection : Bool
  deriving DecidableEq

/-- A committed raft entry: its index and its data. -/
structure RaftLog where
  index : UInt64
  data : List UInt8

/-! ## Snapshot layout -/

structure SnapshotBroker where
  id : Int32
  incarnationId : String
  brokerEpoch : UInt64
  endpoints : List BrokerEndpoint
  fenced : Bool
  deriving DecidableEq

structure SnapshotTopic where
  name : String
  deriving DecidableEq

structure SnapshotPartition where
  topic : String
  partition : Int32
  leaderBrokerId : Int32
  leaderEpoch : Int32
  partitionEpoch : Int32
  replicas : List Int32
  isr : List Int32
  deriving DecidableEq

structure SnapshotData where
  version : Int
  brokers : List SnapshotBroker
  topics : List SnapshotTopic
  partitions : List SnapshotPartition
  deriving DecidableEq

/-- The library functions the controller calls: `encoding/json` on its structs
and the two string functions of endpoint normalisation. -/
structure Stdlib where
  unmarshalEnvelope : List UInt8 → Option CommandEnvelope
  unmarshalRegisterBroker : List UInt8 → Option RegisterBrokerCommand
  unmarshalUnfenceBroker : List UInt8 → Option UnfenceBrokerCommand
  unmarshalCreateTopic : List UInt8 → Option CreateTopicCommand
  unmarshalUpdatePartition : List UInt8 → Option UpdatePartitionCommand
  marshalSnapshot : SnapshotData → Option (List UInt8)
  unmarshalSnapshot : List UInt8 → Option SnapshotData
  toUpper : String → String
  trimSpace : String → String

/-! ## Errors, one constructor for each message of the source -/

inductive EndpointError
  | required
  | nameRequired
  | hostRequired (name : String)
  | portRequired (name : String)
  | unsupportedSecurityProtocol (name : String) (protocol : Int16)
  | duplicateName (name : String)
  deriving DecidableEq

inductive SpecError
  | replicasEmpty
  | duplicateReplica (id : Int32)
  | unknownReplica (id : Int32)
  | leaderNotReplica (leader : Int32) (replicas : List Int32)
  | duplicateIsrMember (id : Int32)
  | isrMemberNotReplica (id : Int32) (replicas : List Int32)
  | isrMemberFencedOrUnknown (id : Int32)
  | leaderNotInIsr (leader : Int32) (isr : List Int32)
  | leaderFencedOrUnknown (leader : Int32)
  deriving DecidableEq

inductive RegisterError
  | decode
  | invalidBrokerId (id : Int32)
  | incarnationRequired
  | invalidBrokerEpoch
  | endpoint (e : EndpointError)
  | differentEndpoints (incarnationId : String)
  | activeIncarnation (id : Int32)
  deriving DecidableEq

inductive UnfenceError
  | decode
  | unknownBroker (id : Int32)
  | brokerEpochMismatch (expected current : UInt64)
  deriving DecidableEq

inductive CreateTopicError
  | decode
  | topicNameRequired
  | partitionRequired
  | topicExists (topic : String)
  | invalidPartition (partition : Int32)
  | duplicatePartition (partition : Int32)
  | spec (partition : Int32) (e : SpecError)
  | notContiguous
  deriving DecidableEq

inductive UpdatePartitionError
  | decode
  | unknownPartition (topic : String) (partition : Int32)
  | partitionEpochMismatch (expected current : Int32)
  | spec (e : SpecError)
  | uncleanLeader (leader : Int32) (isr : List Int32)
  deriving DecidableEq

inductive ApplyError
  | nilLog
  | decodeEnvelope
  | unsupportedVersion (version : Int)
  | unknownCommandType (type : CommandType)
  | registerBroker (e : RegisterError)
  | unfenceBroker (e : UnfenceError)
  | createTopic (e : CreateTopicError)
  | updatePartition (e : UpdatePartitionError)
  deriving DecidableEq

inductive SnapshotError
  | unsupportedVersion (version : Int)
  | invalidBrokerId (id : Int32)
  | incarnationRequired (id : Int32)
  | invalidBrokerEpoch (id : Int32)
  | endpoint (id : Int32) (e : EndpointError)
  | duplicateBroker (id : Int32)
  | emptyTopicName
  | duplicateTopic (name : String)
  | invalidPartition (partition : Int32)
  | emptyPartitionTopic (partition : Int32)
  | unknownTopic (key : TopicPartitionKey)
  | negativeEpoch (key : TopicPartitionKey)
  | duplicatePartition (key : TopicPartitionKey)
  | spec (key : TopicPartitionKey) (e : SpecError)
  | noPartitions (topic : String)
  | notContiguous (topic : String)
  deriving DecidableEq

inductive RestoreError
  | read (readFailed closeFailed : Bool)
  | decode
  | snapshot (e : SnapshotError)
  deriving DecidableEq

end MessageBroker.Controller
