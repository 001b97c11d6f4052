import MessageBroker.Protocol.FetchRequest

/-!
# Legacy request decoders

`DecodeProduceRequest`, `DecodeListOffsetsRequest` and `DecodeMetadataRequest`. Like
`DecodeFetchRequest` they read every field in turn, whatever has failed before, and
look at the decoder's error once, at the end.
-/
namespace MessageBroker.Protocol

open Lib.Bytes Decoder

namespace Decoder

def bool : Decode Bool := do return (← int8) ≠ 0

end Decoder

/-! ## Produce -/

structure ProduceRequestPartition where
  index : Int32
  records : Option ByteString
  deriving DecidableEq

structure ProduceRequestTopic where
  name : ByteString
  partitions : List ProduceRequestPartition
  deriving DecidableEq

structure ProduceRequest where
  transactionalID : Option ByteString
  acks : Int16
  timeoutMs : Int32
  topics : List ProduceRequestTopic
  deriving DecidableEq

def decodeProducePartition : Decode ProduceRequestPartition := do
  let index ← int32
  let records ← nullableBytes
  return ⟨index, records⟩

def decodeProduceTopic : Decode ProduceRequestTopic := do
  let name ← string
  let partitions ← readArray decodeProducePartition
  return ⟨name, partitions⟩

def decodeProduceBody : Decode ProduceRequest := do
  let transactionalID ← nullableString
  let acks ← int16
  let timeoutMs ← int32
  let topics ← readArray decodeProduceTopic
  return ⟨transactionalID, acks, timeoutMs, topics⟩

/-- The body is the same in every version the broker handles. -/
def decodeProduceRequest (body : ByteString) (_apiVersion : Int16) :
    Except Panic (Except DecodeError ProduceRequest × Decoder) :=
  decodeWhole decodeProduceBody body

/-! ## List offsets -/

structure ListOffsetsRequestPartition where
  index : Int32
  currentLeaderEpoch : Int32
  timestamp : Int64
  deriving DecidableEq

structure ListOffsetsRequestTopic where
  name : ByteString
  partitions : List ListOffsetsRequestPartition
  deriving DecidableEq

structure ListOffsetsRequest where
  replicaID : Int32
  isolationLevel : Int8
  topics : List ListOffsetsRequestTopic
  deriving DecidableEq

def decodeListOffsetsPartition (apiVersion : Int16) : Decode ListOffsetsRequestPartition := do
  let index ← int32
  let currentLeaderEpoch ← readSince 4 apiVersion (-1) int32
  let timestamp ← int64
  return ⟨index, currentLeaderEpoch, timestamp⟩

def decodeListOffsetsTopic (apiVersion : Int16) : Decode ListOffsetsRequestTopic := do
  let name ← string
  let partitions ← readArray (decodeListOffsetsPartition apiVersion)
  return ⟨name, partitions⟩

def decodeListOffsetsBody (apiVersion : Int16) : Decode ListOffsetsRequest := do
  let replicaID ← int32
  let isolationLevel ← readSince 2 apiVersion 0 int8
  let topics ← readArray (decodeListOffsetsTopic apiVersion)
  return ⟨replicaID, isolationLevel, topics⟩

def decodeListOffsetsRequest (body : ByteString) (apiVersion : Int16) :
    Except Panic (Except DecodeError ListOffsetsRequest × Decoder) :=
  decodeWhole (decodeListOffsetsBody apiVersion) body

/-! ## Metadata -/

structure MetadataRequest where
  allTopics : Bool
  topics : List ByteString
  allowAutoTopicCreation : Bool
  includeClusterAuthorizedOperations : Bool
  includeTopicAuthorizedOperations : Bool
  deriving DecidableEq

/-- The topics asked for; none of them, written as a null array or, in version 0, as an
empty one, asks for all. -/
def decodeMetadataTopics (apiVersion : Int16) : Decode (Bool × List ByteString) := do
  let numTopics ← arrayLen
  if numTopics < 0 ∨ numTopics = 0 ∧ apiVersion = 0 then return (true, [])
  else
    let topics ← Lib.Cursors.rounds (fun _ => string) 0 numTopics.toInt.toNat
    return (false, topics)

/-- A field of version 8 only. -/
def readOnlyIn {α : Type} (version apiVersion : Int16) (zero : α) (f : Decode α) : Decode α :=
  if apiVersion = version then f else pure zero

def decodeMetadataBody (apiVersion : Int16) : Decode MetadataRequest := do
  let (allTopics, topics) ← decodeMetadataTopics apiVersion
  let allowAutoTopicCreation ← readSince 4 apiVersion true bool
  let includeClusterAuthorizedOperations ← readOnlyIn 8 apiVersion false bool
  let includeTopicAuthorizedOperations ← readSince 8 apiVersion false bool
  return ⟨allTopics, topics, allowAutoTopicCreation, includeClusterAuthorizedOperations,
    includeTopicAuthorizedOperations⟩

def decodeMetadataRequest (body : ByteString) (apiVersion : Int16) :
    Except Panic (Except DecodeError MetadataRequest × Decoder) :=
  decodeWhole (decodeMetadataBody apiVersion) body

end MessageBroker.Protocol
