import MessageBroker.Lib.Decimal
import MessageBroker.Lib.Maps
import MessageBroker.Broker.Partition

/-!
# The topic manager

A broker keeps each partition in a directory of its own, and the names of the
directories are the only record of its topics. The file has the data directory,
how topics are recovered from it, and how topics are created and deleted. The
files of an open partition are those of its log at every moment; a `OpenFaults` says
what fails while a log is opened.
-/
namespace MessageBroker.Broker

open Std Lib Lib.Bytes Storage

/-! ## Topic names and directories -/

inductive TopicNameError
  | empty
  | dots (name : String)
  | tooLong (size : Nat)
  | invalidCharacter (name : String) (c : Char)
  deriving DecidableEq

def topicNameChar (c : Char) : Bool :=
  ('a' ≤ c && c ≤ 'z') || ('A' ≤ c && c ≤ 'Z') || ('0' ≤ c && c ≤ '9') ||
    c == '.' || c == '_' || c == '-'

def validateTopicName (name : String) : Except TopicNameError Unit :=
  if name = "" then .error .empty
  else if name = "." ∨ name = ".." then .error (.dots name)
  else if 249 < name.utf8ByteSize then .error (.tooLong name.utf8ByteSize)
  else match name.toList.find? fun c => !topicNameChar c with
    | some c => .error (.invalidCharacter name c)
    | none => .ok ()

/-- `partitionDir`, below the data directory. -/
def partitionDir (topic : String) (partitionID : Nat) : String :=
  topic ++ "-" ++ toString partitionID

/-- The topic and the partition a directory name stands for, if it is one that
the recovery takes. -/
def parseDir (name : String) : Option (String × Nat) :=
  match Decimal.splitLast '-' name.toList with
  | none => none
  | some (topic, number) =>
      match validateTopicName (String.ofList topic) with
      | .error _ => none
      | .ok () =>
        match Decimal.atoi number with
        | none => none
        | some partID => if partID < 0 then none else some (String.ofList topic, partID.toNat)

/-! ## The data directory -/

/-- The files of a log: its segments and its epoch checkpoint. -/
structure LogDir where
  files : List (Nat × ByteString)
  checkpoint : Option EpochCache

def LogDir.ofLog (l : Log) : LogDir := ⟨l.directory, l.checkpoint⟩

inductive DirEntry
  | file
  | dir (content : LogDir)

abbrev DataDir := ExtTreeMap String DirEntry compare

/-- Where opening a log can fail besides the contents of its files: before its
directory is made, or later, with the files that are then in it. -/
inductive OpenFault
  | mkdir
  | files (left : LogDir)

structure OpenFaults where
  fault : Option OpenFault
  io : Faults

def OpenFaults.none : OpenFaults := ⟨.none, .none⟩

inductive OpenError
  | mkdir
  | files
  | log (e : LogError)
  deriving DecidableEq

/-- What `NewLog` finds in a directory. -/
def DataDir.content (d : DataDir) (dir : String) : Option LogDir :=
  match d[dir]? with
  | some .file => none
  | some (.dir content) => some content
  | none => some ⟨[], none⟩

/-- `NewLog` on a directory of the data directory. -/
def openLog (crc : Checksum) (config : LogConfig) (d : DataDir) (dir : String) (x : OpenFaults) :
    Except OpenError Log × DataDir :=
  match x.fault, d.content dir with
  | some .mkdir, _ => (.error .mkdir, d)
  | _, none => (.error .mkdir, d)
  | some (.files left), some _ => (.error .files, d.insert dir (.dir left))
  | none, some content =>
      match newLog crc config content.files content.checkpoint x.io with
      | .error e => (.error (.log e), d.insert dir (.dir content))
      | .ok l => (.ok l, d.insert dir (.dir (.ofLog l)))

/-! ## The manager -/

/-- A partition with the directory of its log. -/
structure LocalPartition where
  dir : String
  partition : Partition

abbrev Topic := List (Option LocalPartition)

structure TopicManager where
  localBrokerID : Int32
  logConfig : LogConfig
  topics : ExtTreeMap String Topic compare
  dataDir : DataDir

structure PartitionEntry where
  id : Nat
  dir : String
  deriving DecidableEq

/-- What the first loop of `recoverFromDisk` keeps of a directory entry. -/
def recoverEntry (e : String × DirEntry) : Option (String × PartitionEntry) :=
  match e.2 with
  | .file => none
  | .dir _ => (parseDir e.1).map fun (topic, id) => (topic, ⟨id, e.1⟩)

def maxID (dirs : List PartitionEntry) : Nat :=
  dirs.foldl (fun m d => if m < d.id then d.id else m) 0

namespace TopicManager

section Recovery

variable (crc : Checksum) (tm : TopicManager) (x : String → OpenFaults)

/-- The partition of one directory; it stays offline if its log does not open. -/
def recoverPartition (d : PartitionEntry) : Option LocalPartition :=
  match (openLog crc tm.logConfig tm.dataDir d.dir (x d.dir)).1 with
  | .error _ => none
  | .ok l => some ⟨d.dir, newPartition tm.localBrokerID l⟩

/-- The loop over the directories of one topic. -/
def fillTable (partitions : Topic) (dirs : List PartitionEntry) : Topic :=
  dirs.foldl (fun partitions d =>
    match tm.recoverPartition crc x d with
    | none => partitions
    | some p => partitions.set d.id (some p)) partitions

/-- The table of one topic. No topic with a partition above 9999 is recovered. -/
def recoverTopic (dirs : List PartitionEntry) : Option Topic :=
  if 9999 < maxID dirs then none
  else some (tm.fillTable crc x (List.replicate (maxID dirs + 1) none) dirs)

def byTopic : ExtTreeMap String (List PartitionEntry) compare :=
  Maps.group (tm.dataDir.toList.filterMap recoverEntry)

def recoverFromDisk : TopicManager :=
  { tm with
    topics := tm.byTopic.filterMap fun _ dirs => tm.recoverTopic crc x dirs
    dataDir := (tm.byTopic.toList.flatMap fun e => if 9999 < maxID e.2 then [] else e.2).foldl
      (fun d e => (openLog crc tm.logConfig d e.dir (x e.dir)).2) tm.dataDir }

end Recovery

end TopicManager

def newTopicManager (crc : Checksum) (dataDir : DataDir) (localBrokerID : Int32)
    (logConfig : LogConfig) (x : String → OpenFaults) : TopicManager :=
  TopicManager.recoverFromDisk crc ⟨localBrokerID, logConfig, ∅, dataDir⟩ x

inductive CreateError
  | name (e : TopicNameError)
  | numPartitions (n : Int64)
  | exists (name : String)
  | createLog (name : String) (i : Nat) (e : OpenError)
  | makeLeader (name : String) (i : Nat) (e : PartitionError)
  deriving DecidableEq

namespace TopicManager

/-- The clean-up after a failed creation: the directories below `i`. -/
def removeDirs (name : String) (i : Nat) (d : DataDir) : DataDir :=
  (List.range i).foldl (fun d j => d.erase (partitionDir name j)) d

/-- A new partition, as leader of itself if asked for. -/
def startPartition (tm : TopicManager) (initialLeader : Bool) (l : Log) (io : Faults) :
    Except PartitionError Unit × Partition :=
  let p := newPartition tm.localBrokerID l
  if initialLeader then p.makeLeader 1 [tm.localBrokerID] l.nextOffset io else (.ok (), p)

/-- The loop of `CreateTopic` for the given number of partitions from `i` on. -/
def createPartitions (crc : Checksum) (tm : TopicManager) (name : String) (initialLeader : Bool)
    (x : Nat → OpenFaults) : Nat → Nat → DataDir → Except CreateError Topic × DataDir
  | 0, _, d => (.ok [], d)
  | n + 1, i, d =>
      match openLog crc tm.logConfig d (partitionDir name i) (x i) with
      | (.error e, d) => (.error (.createLog name i e), removeDirs name i d)
      | (.ok l, d) =>
        match tm.startPartition initialLeader l (x i).io with
        | (.error e, _) =>
            (.error (.makeLeader name i e), (removeDirs name i d).erase (partitionDir name i))
        | (.ok (), p) =>
          match createPartitions crc tm name initialLeader x n (i + 1)
              (d.insert (partitionDir name i) (.dir (.ofLog p.log))) with
          | (.error e, d) => (.error e, d)
          | (.ok ps, d) => (.ok (some ⟨partitionDir name i, p⟩ :: ps), d)

def createTopic (crc : Checksum) (tm : TopicManager) (name : String) (numPartitions : Int64)
    (initialLeader : Bool) (x : Nat → OpenFaults) : Except CreateError Unit × TopicManager :=
  match validateTopicName name with
  | .error e => (.error (.name e), tm)
  | .ok () =>
    if numPartitions ≤ 0 then (.error (.numPartitions numPartitions), tm)
    else if name ∈ tm.topics then (.error (.exists name), tm)
    else
      match createPartitions crc tm name initialLeader x numPartitions.toInt.toNat 0
          tm.dataDir with
      | (.error e, d) => (.error e, { tm with dataDir := d })
      | (.ok partitions, d) => (.ok (), { tm with
          topics := tm.topics.insert name partitions
          dataDir := d })

def getPartition (tm : TopicManager) (topic : String) (partitionID : Int32) :
    Except ErrorCode LocalPartition :=
  match tm.topics[topic]? with
  | none => .error .unknownTopicOrPartition
  | some t =>
    if partitionID < 0 then .error .unknownTopicOrPartition
    else match t[partitionID.toInt.toNat]? with
      | none => .error .unknownTopicOrPartition
      | some none => .error .storageError
      | some (some p) => .ok p

theorem getPartition_ok {tm : TopicManager} {topic : String} {index : Int32} {p : LocalPartition} :
    tm.getPartition topic index = .ok p ↔ 0 ≤ index ∧
      ∃ t, tm.topics[topic]? = some t ∧ t[index.toInt.toNat]? = some (some p) := by
  unfold getPartition
  cases ht : tm.topics[topic]? with
  | none => simp
  | some t =>
    by_cases hneg : index < 0
    · simp [hneg, Int32.not_le.mpr hneg]
    · simp only [hneg, if_false, Int32.not_lt.mp hneg, true_and, Option.some.injEq,
        exists_eq_left']
      rcases t[index.toInt.toNat]? with _ | _ | q <;> simp

def partitionCount (tm : TopicManager) (topic : String) : Option Nat :=
  tm.topics[topic]?.map (·.length)

/-- What a call on an open partition leaves: the partition and its files. -/
def store (tm : TopicManager) (topic : String) (i : Nat) (p : LocalPartition) : TopicManager :=
  { tm with
    topics := tm.topics.insert topic ((tm.topics[topic]?.getD []).set i (some p))
    dataDir := tm.dataDir.insert p.dir (.dir (.ofLog p.partition.log)) }

/-- `DeleteTopic`, where every file is removed: the directories of the open
partitions under their present names. -/
def deleteTopic (tm : TopicManager) (name : String) : TopicManager :=
  match tm.topics[name]? with
  | none => tm
  | some t => { tm with
      topics := tm.topics.erase name
      dataDir := t.zipIdx.foldl (fun d e =>
        match e.1 with
        | none => d
        | some _ => d.erase (partitionDir name e.2)) tm.dataDir }

end TopicManager

end MessageBroker.Broker
