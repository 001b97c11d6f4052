import MessageBroker.Controller.Apply

/-!
# Snapshots of the controller state

`toSnapshotData` lists a state in sorted order and `fromSnapshotData` rebuilds
one entry by entry, checking each against what has been rebuilt so far. The
state is replaced only when the whole snapshot passes.
-/
namespace MessageBroker.Controller

open Std

/-- `CurrentSnapshotVersion`. -/
def currentSnapshotVersion : Int := 2

def BrokerInfo.toSnapshot (b : BrokerInfo) : SnapshotBroker :=
  ⟨b.id, b.incarnationId, b.brokerEpoch, b.endpoints, b.fenced⟩

def PartitionState.toSnapshot (key : TopicPartitionKey) (p : PartitionState) : SnapshotPartition :=
  ⟨key.topic, key.partition, p.leaderBrokerId, p.leaderEpoch, p.partitionEpoch, p.replicas, p.isr⟩

def SnapshotPartition.key (p : SnapshotPartition) : TopicPartitionKey := ⟨p.topic, p.partition⟩

/-- The map order of the source is unspecified; each list is sorted by its key. -/
def toSnapshotData (s : ControllerState) : SnapshotData where
  version := currentSnapshotVersion
  brokers := (s.brokers.toList.map fun e => e.2.toSnapshot).insertionSort fun a b => a.id ≤ b.id
  topics := (s.topics.toList.map fun e => ⟨e.1⟩).insertionSort fun a b => a.name ≤ b.name
  partitions := (s.partitions.toList.map fun e => e.2.toSnapshot e.1).insertionSort
    fun a b => TopicPartitionKey.cmp a.key b.key ≠ .gt

/-- The broker loop of `fromSnapshotData`. -/
def loadBrokers (lib : Stdlib) : BrokerMap → List SnapshotBroker → Except SnapshotError BrokerMap
  | out, [] => .ok out
  | out, b :: bs =>
      if b.id < 0 then .error (.invalidBrokerId b.id)
      else if b.incarnationId = "" then .error (.incarnationRequired b.id)
      else if b.brokerEpoch = 0 then .error (.invalidBrokerEpoch b.id)
      else match normalizeEndpoints lib b.endpoints with
        | .error e => .error (.endpoint b.id e)
        | .ok endpoints =>
          if out[b.id]?.isSome then .error (.duplicateBroker b.id)
          else loadBrokers lib
            (out.insert b.id ⟨b.id, b.incarnationId, b.brokerEpoch, endpoints, b.fenced⟩) bs

/-- The topic loop of `fromSnapshotData`. -/
def loadTopics : TopicMap → List SnapshotTopic → Except SnapshotError TopicMap
  | out, [] => .ok out
  | out, t :: ts =>
      if t.name = "" then .error .emptyTopicName
      else if out[t.name]?.isSome then .error (.duplicateTopic t.name)
      else loadTopics (out.insert t.name ⟨t.name⟩) ts

def SnapshotPartition.state (p : SnapshotPartition) : PartitionState :=
  ⟨p.leaderBrokerId, p.leaderEpoch, p.partitionEpoch, p.replicas, p.isr⟩

/-- The partition loop of `fromSnapshotData`. -/
def loadPartitions (brokers : BrokerMap) (topics : TopicMap) :
    PartitionMap → List SnapshotPartition → Except SnapshotError PartitionMap
  | out, [] => .ok out
  | out, p :: ps =>
      if p.partition < 0 then .error (.invalidPartition p.partition)
      else if p.topic = "" then .error (.emptyPartitionTopic p.partition)
      else if topics[p.topic]?.isNone then .error (.unknownTopic p.key)
      else if p.leaderEpoch < 0 ∨ p.partitionEpoch < 0 then .error (.negativeEpoch p.key)
      else if out[p.key]?.isSome then .error (.duplicatePartition p.key)
      else match validatePartitionSpec brokers p.leaderBrokerId p.replicas p.isr with
        | .error e => .error (.spec p.key e)
        | .ok () => loadPartitions brokers topics (out.insert p.key p.state) ps

/-- `partitionCount[topic]`, an `int32` counter. -/
def partitionCount (partitions : PartitionMap) (topic : String) : Int32 :=
  Int32.ofNat (partitions.toList.countP fun e => e.1.topic == topic)

/-- The contiguity loop of `fromSnapshotData`, over the topics in key order. -/
def checkTopics (partitions : PartitionMap) : List String → Except SnapshotError Unit
  | [] => .ok ()
  | topic :: ts =>
      let count := partitionCount partitions topic
      if count = 0 then .error (.noPartitions topic)
      else if (int32Range count).all fun p =>
          partitions[(⟨topic, p⟩ : TopicPartitionKey)]?.isSome then
        checkTopics partitions ts
      else .error (.notContiguous topic)

def fromSnapshotData (lib : Stdlib) (data : SnapshotData) : Except SnapshotError ControllerState :=
  if data.version ≠ currentSnapshotVersion then .error (.unsupportedVersion data.version)
  else match loadBrokers lib ∅ data.brokers with
    | .error e => .error e
    | .ok brokers =>
      match loadTopics ∅ data.topics with
      | .error e => .error e
      | .ok topics =>
        match loadPartitions brokers topics ∅ data.partitions with
        | .error e => .error e
        | .ok partitions =>
          match checkTopics partitions (topics.toList.map (·.1)) with
          | .error e => .error e
          | .ok () => .ok ⟨brokers, topics, partitions⟩

/-- What the reader passed to `Restore` yields. -/
structure SnapshotSource where
  raw : List UInt8
  readFails : Bool
  closeFails : Bool

/-- `ControllerFSM.Restore`. -/
def restore (lib : Stdlib) (s : ControllerState) (src : SnapshotSource) :
    Except RestoreError Unit × ControllerState :=
  if src.readFails || src.closeFails then (.error (.read src.readFails src.closeFails), s)
  else match lib.unmarshalSnapshot src.raw with
    | none => (.error .decode, s)
    | some data =>
      match fromSnapshotData lib data with
      | .error e => (.error (.snapshot e), s)
      | .ok newState => (.ok (), newState)

inductive PersistError
  | encode
  | write
  | shortWrite
  | close
  deriving DecidableEq

/-- How the sink passed to `Persist` answers: the count `Write` reports, and
whether `Write` or `Close` fails. -/
structure SnapshotSink where
  written : List UInt8 → Nat
  writeFails : Bool
  closeFails : Bool

/-- A sink that takes every byte. -/
def SnapshotSink.good : SnapshotSink := ⟨List.length, false, false⟩

/-- `Snapshot` followed by `Persist`: the bytes that a successful call stores. -/
def persist (lib : Stdlib) (s : ControllerState) (sink : SnapshotSink) :
    Except PersistError (List UInt8) :=
  match lib.marshalSnapshot (toSnapshotData s) with
  | none => .error .encode
  | some encoded =>
    if sink.writeFails then .error .write
    else if sink.written encoded ≠ encoded.length then .error .shortWrite
    else if sink.closeFails then .error .close
    else .ok encoded

end MessageBroker.Controller
