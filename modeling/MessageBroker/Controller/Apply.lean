import MessageBroker.Controller.State
import MessageBroker.Lib.Runs

/-!
# Applying controller commands

Each handler returns its verdict together with the state it leaves behind, so a
rejection that had already written something would show. Validation loops are
the recursions of the source over the same accumulators.
-/
namespace MessageBroker.Controller

open Std

/-- The loop of `normalizeEndpoints`, with the names already seen. -/
def normalizeLoop (lib : Stdlib) :
    List String → List BrokerEndpoint → Except EndpointError (List BrokerEndpoint)
  | _, [] => .ok []
  | seen, e :: es =>
      let e := { e with name := lib.toUpper (lib.trimSpace e.name), host := lib.trimSpace e.host }
      if e.name = "" then .error .nameRequired
      else if e.host = "" then .error (.hostRequired e.name)
      else if e.port = 0 then .error (.portRequired e.name)
      else if e.securityProtocol ≠ securityProtocolPlaintext then
        .error (.unsupportedSecurityProtocol e.name e.securityProtocol)
      else if e.name ∈ seen then .error (.duplicateName e.name)
      else match normalizeLoop lib (e.name :: seen) es with
        | .error err => .error err
        | .ok rest => .ok (e :: rest)

/-- `sort.Slice` by name. -/
def sortEndpoints (es : List BrokerEndpoint) : List BrokerEndpoint :=
  es.insertionSort (fun a b => a.name ≤ b.name)

def normalizeEndpoints (lib : Stdlib) (endpoints : List BrokerEndpoint) :
    Except EndpointError (List BrokerEndpoint) :=
  if endpoints = [] then .error .required
  else match normalizeLoop lib [] endpoints with
    | .error err => .error err
    | .ok out => .ok (sortEndpoints out)

def endpointsEqual (a b : List BrokerEndpoint) : Bool :=
  a.length == b.length && sortEndpoints a == sortEndpoints b

def brokerInActivePartition (partitions : PartitionMap) (brokerId : Int32) : Bool :=
  partitions.toList.any fun e => e.2.leaderBrokerId == brokerId || e.2.isr.contains brokerId

/-- The replica loop of `validatePartitionSpec`; the result is `replicaSet`. -/
def scanReplicas (brokers : BrokerMap) : List Int32 → List Int32 → Except SpecError (List Int32)
  | seen, [] => .ok seen
  | seen, r :: rs =>
      if r ∈ seen then .error (.duplicateReplica r)
      else if brokers[r]?.isNone then .error (.unknownReplica r)
      else scanReplicas brokers (r :: seen) rs

def fencedOrUnknown (brokers : BrokerMap) (id : Int32) : Bool :=
  match brokers[id]? with
  | none => true
  | some b => b.fenced

/-- The ISR loop of `validatePartitionSpec`; the result is `isrSet`. -/
def scanIsr (brokers : BrokerMap) (replicas replicaSet : List Int32) :
    List Int32 → List Int32 → Except SpecError (List Int32)
  | seen, [] => .ok seen
  | seen, m :: ms =>
      if m ∈ seen then .error (.duplicateIsrMember m)
      else if m ∉ replicaSet then .error (.isrMemberNotReplica m replicas)
      else if fencedOrUnknown brokers m then .error (.isrMemberFencedOrUnknown m)
      else scanIsr brokers replicas replicaSet (m :: seen) ms

def validatePartitionSpec (brokers : BrokerMap) (leaderBrokerId : Int32)
    (replicas isr : List Int32) : Except SpecError Unit :=
  if replicas = [] then .error .replicasEmpty
  else match scanReplicas brokers [] replicas with
    | .error e => .error e
    | .ok replicaSet =>
      if leaderBrokerId ∉ replicaSet then .error (.leaderNotReplica leaderBrokerId replicas)
      else match scanIsr brokers replicas replicaSet [] isr with
        | .error e => .error e
        | .ok isrSet =>
          if leaderBrokerId ∉ isrSet then .error (.leaderNotInIsr leaderBrokerId isr)
          else if fencedOrUnknown brokers leaderBrokerId then
            .error (.leaderFencedOrUnknown leaderBrokerId)
          else .ok ()

/-- A handler's verdict and the state it leaves. -/
abbrev Outcome := Except ApplyError Unit × ControllerState

/-- The body of `applyRegisterBroker` once the payload is decoded. -/
def registerBroker (lib : Stdlib) (s : ControllerState) (cmd : RegisterBrokerCommand)
    (logIndex : UInt64) : Except RegisterError Unit × ControllerState :=
  if cmd.id < 0 then (.error (.invalidBrokerId cmd.id), s)
  else if cmd.incarnationId = "" then (.error .incarnationRequired, s)
  else if logIndex = 0 then (.error .invalidBrokerEpoch, s)
  else match normalizeEndpoints lib cmd.endpoints with
    | .error e => (.error (.endpoint e), s)
    | .ok endpoints =>
      let fresh : BrokerInfo := ⟨cmd.id, cmd.incarnationId, logIndex, endpoints, true⟩
      match s.brokers[cmd.id]? with
      | none => (.ok (), { s with brokers := s.brokers.insert cmd.id fresh })
      | some existing =>
        if existing.incarnationId = cmd.incarnationId then
          if endpointsEqual existing.endpoints endpoints then (.ok (), s)
          else (.error (.differentEndpoints cmd.incarnationId), s)
        else if !existing.fenced || brokerInActivePartition s.partitions cmd.id then
          (.error (.activeIncarnation cmd.id), s)
        else (.ok (), { s with brokers := s.brokers.insert cmd.id fresh })

def unfenceBroker (s : ControllerState) (cmd : UnfenceBrokerCommand) :
    Except UnfenceError Unit × ControllerState :=
  match s.brokers[cmd.brokerId]? with
  | none => (.error (.unknownBroker cmd.brokerId), s)
  | some b =>
    if b.brokerEpoch ≠ cmd.brokerEpoch then
      (.error (.brokerEpochMismatch cmd.brokerEpoch b.brokerEpoch), s)
    else (.ok (), { s with brokers := s.brokers.insert cmd.brokerId { b with fenced := false } })

/-- The validation loop of `applyCreateTopic`; the result is `seen`. -/
def scanSpecs (brokers : BrokerMap) :
    List Int32 → List CreateTopicPartitionSpec → Except CreateTopicError (List Int32)
  | seen, [] => .ok seen
  | seen, spec :: specs =>
      if spec.partition < 0 then .error (.invalidPartition spec.partition)
      else if spec.partition ∈ seen then .error (.duplicatePartition spec.partition)
      else match validatePartitionSpec brokers spec.leaderBrokerId spec.replicas spec.isr with
        | .error e => .error (.spec spec.partition e)
        | .ok () => scanSpecs brokers (spec.partition :: seen) specs

/-- The values of an `int32` loop variable from 0 below `count`. -/
def int32Range (count : Int32) : List Int32 :=
  (List.range count.toInt.toNat).map Int32.ofNat

/-- The partition a specification creates, at epoch 0. -/
def CreateTopicPartitionSpec.initial (spec : CreateTopicPartitionSpec) : PartitionState :=
  ⟨spec.leaderBrokerId, 0, 0, spec.replicas, spec.isr⟩

def insertSpecs (topic : String) (m : PartitionMap) (specs : List CreateTopicPartitionSpec) :
    PartitionMap :=
  specs.foldl (fun m spec => m.insert ⟨topic, spec.partition⟩ spec.initial) m

def createTopic (s : ControllerState) (cmd : CreateTopicCommand) :
    Except CreateTopicError Unit × ControllerState :=
  if cmd.topic = "" then (.error .topicNameRequired, s)
  else if cmd.partitions = [] then (.error .partitionRequired, s)
  else if s.topics[cmd.topic]?.isSome then (.error (.topicExists cmd.topic), s)
  else match scanSpecs s.brokers [] cmd.partitions with
    | .error e => (.error e, s)
    | .ok seen =>
      if (int32Range (Int32.ofNat cmd.partitions.length)).all (· ∈ seen) then
        (.ok (), { s with
          topics := s.topics.insert cmd.topic ⟨cmd.topic⟩
          partitions := insertSpecs cmd.topic s.partitions cmd.partitions })
      else (.error .notContiguous, s)

/-- The partition that an accepted update leaves. -/
def PartitionState.updated (current : PartitionState) (cmd : UpdatePartitionCommand) :
    PartitionState where
  leaderBrokerId := cmd.leaderBrokerId
  leaderEpoch := if cmd.leaderBrokerId ≠ current.leaderBrokerId then current.leaderEpoch + 1
    else current.leaderEpoch
  partitionEpoch := current.partitionEpoch + 1
  replicas := cmd.replicas
  isr := cmd.isr

def updatePartition (s : ControllerState) (cmd : UpdatePartitionCommand) :
    Except UpdatePartitionError Unit × ControllerState :=
  let key : TopicPartitionKey := ⟨cmd.topic, cmd.partition⟩
  match s.partitions[key]? with
  | none => (.error (.unknownPartition cmd.topic cmd.partition), s)
  | some current =>
    if cmd.expectedPartitionEpoch ≠ current.partitionEpoch then
      (.error (.partitionEpochMismatch cmd.expectedPartitionEpoch current.partitionEpoch), s)
    else match validatePartitionSpec s.brokers cmd.leaderBrokerId cmd.replicas cmd.isr with
      | .error e => (.error (.spec e), s)
      | .ok () =>
        let leaderChanged := cmd.leaderBrokerId ≠ current.leaderBrokerId
        if leaderChanged ∧ cmd.leaderBrokerId ∉ current.isr ∧ !cmd.allowUncleanElection then
          (.error (.uncleanLeader cmd.leaderBrokerId current.isr), s)
        else (.ok (), { s with partitions := s.partitions.insert key (current.updated cmd) })

/-- A handler's verdict under the command's own error message. -/
def wrap {ε : Type} (f : ε → ApplyError) (r : Except ε Unit × ControllerState) : Outcome :=
  match r.1 with
  | .error e => (.error (f e), r.2)
  | .ok () => (.ok (), r.2)

/-- A decoded command. -/
inductive Command
  | registerBroker (cmd : RegisterBrokerCommand)
  | unfenceBroker (cmd : UnfenceBrokerCommand)
  | createTopic (cmd : CreateTopicCommand)
  | updatePartition (cmd : UpdatePartitionCommand)
  deriving DecidableEq

def applyCommand (lib : Stdlib) (s : ControllerState) (cmd : Command) (index : UInt64) : Outcome :=
  match cmd with
  | .registerBroker cmd => wrap .registerBroker (registerBroker lib s cmd index)
  | .unfenceBroker cmd => wrap .unfenceBroker (unfenceBroker s cmd)
  | .createTopic cmd => wrap .createTopic (createTopic s cmd)
  | .updatePartition cmd => wrap .updatePartition (updatePartition s cmd)

/-- Decoding of `Apply` and of the four handlers: the envelope, its version, its
type and then the payload. -/
def decodeCommand (lib : Stdlib) (log : Option RaftLog) : Except ApplyError (Command × UInt64) :=
  match log with
  | none => .error .nilLog
  | some log =>
    match lib.unmarshalEnvelope log.data with
    | none => .error .decodeEnvelope
    | some env =>
      if env.version ≠ commandEnvelopeVersion1 then .error (.unsupportedVersion env.version)
      else match env.type with
        | .registerBroker =>
          match lib.unmarshalRegisterBroker env.payload with
          | none => .error (.registerBroker .decode)
          | some cmd => .ok (.registerBroker cmd, log.index)
        | .unfenceBroker =>
          match lib.unmarshalUnfenceBroker env.payload with
          | none => .error (.unfenceBroker .decode)
          | some cmd => .ok (.unfenceBroker cmd, log.index)
        | .createTopic =>
          match lib.unmarshalCreateTopic env.payload with
          | none => .error (.createTopic .decode)
          | some cmd => .ok (.createTopic cmd, log.index)
        | .updatePartition =>
          match lib.unmarshalUpdatePartition env.payload with
          | none => .error (.updatePartition .decode)
          | some cmd => .ok (.updatePartition cmd, log.index)
        | .other name => .error (.unknownCommandType (.other name))

/-- `ControllerFSM.Apply`. -/
def apply (lib : Stdlib) (s : ControllerState) (log : Option RaftLog) : Outcome :=
  match decodeCommand lib log with
  | .error e => (.error e, s)
  | .ok (cmd, index) => applyCommand lib s cmd index

end MessageBroker.Controller
