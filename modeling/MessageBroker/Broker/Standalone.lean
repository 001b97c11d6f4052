import MessageBroker.Broker.Operations
import MessageBroker.Broker.TopicRecovery

/-!
# A broker without a controller

Without a controller a topic is created on the first metadata request that names
it, with the broker as its only replica, and nothing else assigns a role. The
file follows such a broker through metadata and produce requests, a shutdown and
a restart on its data directory, and says what a consumer then gets.
-/
namespace MessageBroker.Broker

open Std Lib Lib.Bytes Storage

/-- The code a handler answers for an error of a partition. -/
def PartitionError.toCode : PartitionError → ErrorCode
  | .code e => e
  | _ => .storageError

inductive Request
  /-- the topics of a metadata request, and whether they may be created -/
  | metadata (topics : List String) (allowAutoTopicCreation : Bool)
  | produce (acks : Acks) (parts : List (String × Int32 × ByteString))

/-- The topics a request asks to create. -/
def Request.autoCreated : Request → List String
  | .metadata topics true => topics
  | _ => []

namespace TopicManager

section Handlers

variable (crc : Checksum) (tm : TopicManager)

/-- `handleMetadata` for one name, where no file operation fails. -/
def autoCreate (name : String) : TopicManager :=
  match tm.getPartition name 0 with
  | .error .unknownTopicOrPartition => (tm.createTopic crc name 1 true fun _ => .none).2
  | _ => tm

/-- `handleProduce` for one partition: the result of the append, if there were
records. -/
def producePartition (acks : Acks) (part : String × Int32 × ByteString) :
    Except ErrorCode (Option AppendResult) × TopicManager :=
  match tm.getPartition part.1 part.2.1 with
  | .error e => (.error e, tm)
  | .ok p =>
    if part.2.2 = [] then (.ok none, tm)
    else
      match p.partition.appendRaw crc part.2.2 acks .none with
      | (.error e, q) => (.error e.toCode, tm.store part.1 part.2.1.toInt.toNat ⟨p.dir, q⟩)
      | (.ok r, q) => (.ok (some r), tm.store part.1 part.2.1.toInt.toNat ⟨p.dir, q⟩)

def produceAll (acks : Acks) : TopicManager → List (String × Int32 × ByteString) →
    List (Except ErrorCode (Option AppendResult)) × TopicManager
  | tm, [] => ([], tm)
  | tm, part :: parts =>
      ((tm.producePartition crc acks part).1 ::
          (produceAll acks (tm.producePartition crc acks part).2 parts).1,
        (produceAll acks (tm.producePartition crc acks part).2 parts).2)

def serve : Request → List (Except ErrorCode (Option AppendResult)) × TopicManager
  | .metadata topics allow => ([], if allow then topics.foldl (autoCreate crc) tm else tm)
  | .produce (.invalid _) parts => (parts.map fun _ => .error .invalidRequiredAcks, tm)
  | .produce acks parts => produceAll crc acks tm parts

end Handlers

/-- `fetchOnePass` for one partition. -/
def fetchPartition (tm : TopicManager) (topic : String) (index : Int32)
    (currentLeaderEpoch : Int32) (fetchOffset : Int64) (replicaID partMax : Int32) (first : Bool) :
    Except ErrorCode FetchRawRangeResult × TopicManager :=
  match tm.getPartition topic index with
  | .error e => (.error e, tm)
  | .ok p =>
    if fetchOffset < 0 then (.error .offsetOutOfRange, tm)
    else if !p.partition.isLeader then (.error .notLeaderOrFollower, tm)
    else match validateLeaderEpoch currentLeaderEpoch p.partition.leaderEpoch with
      | some e => (.error e, tm)
      | none =>
        match p.partition.fetchRawRanges fetchOffset.toInt.toNat replicaID partMax first with
        | (.error e, q) => (.error e.toCode, tm.store topic index.toInt.toNat ⟨p.dir, q⟩)
        | (.ok r, q) => (.ok r, tm.store topic index.toInt.toNat ⟨p.dir, q⟩)

/-- The bytes that a consumer gets by successive fetches up to an offset. -/
def consume (tm : TopicManager) (topic : String) (index maxBytes : Int32) (endOffset : Nat) :
    Nat → Nat → Except ErrorCode ByteString
  | 0, _ => .ok []
  | fuel + 1, offset =>
      if endOffset ≤ offset then .ok []
      else match tm.fetchPartition topic index (-1) (Int64.ofNat offset) (-1) maxBytes true with
        | (.error e, _) => .error e
        | (.ok r, tm') =>
          match tm'.getPartition topic index, consume tm' topic index maxBytes endOffset fuel
              r.fetchedUpTo with
          | .ok p, .ok rest => .ok (p.partition.rangeBytes r.ranges ++ rest)
          | .error e, _ => .error e
          | _, .error e => .error e

/-- A consumer fetch at offset 0 succeeds, and successive fetches return the bytes
of all batches of the log. -/
def ReadsBack (tm : TopicManager) (topic : String) (index : Int32) (l : Log) : Prop :=
  ∀ maxBytes : Int32, 0 < maxBytes →
    (∃ r, (tm.fetchPartition topic index (-1) 0 (-1) maxBytes true).1 = .ok r) ∧
    ∃ fuel, tm.consume topic index maxBytes l.nextOffset fuel 0 = .ok l.batches.flatten

/-! ## What the requests keep -/

/-- Every topic has one partition, online in its own directory, with the files of
its log. -/
structure Standing (crc : Checksum) (tm : TopicManager) : Prop where
  inStep : tm.InStep
  single : ∀ (name : String) (n : Nat), tm.partitionCount name = some n → n = 1
  slot : ∀ (name : String) (t : Topic) (i : Nat), tm.topics[name]? = some t → i < t.length →
    ∃ p, t[i]? = some (some ⟨partitionDir name i, p⟩) ∧
      tm.dataDir[partitionDir name i]? = some (.dir (.ofLog p.log)) ∧ p.log.Ok crc

section Keep

variable {crc : Checksum} {tm : TopicManager}

theorem Standing.of_slot (h : tm.Standing crc) {name : String} {t : Topic} {i : Nat}
    {p : LocalPartition} (ht : tm.topics[name]? = some t) (hp : t[i]? = some (some p)) :
    p.dir = partitionDir name i ∧
      tm.dataDir[partitionDir name i]? = some (.dir (.ofLog p.partition.log)) ∧
      p.partition.log.Ok crc := by
  obtain ⟨p', hp', hfiles, hok⟩ := h.slot name t i ht (List.getElem?_eq_some_iff.mp hp).1
  rw [hp, Option.some.injEq, Option.some.injEq] at hp'
  subst hp'
  exact ⟨rfl, hfiles, hok⟩

theorem standing_new (crc : Checksum) (localBrokerID : Int32) (config : LogConfig)
    (x : String → OpenFaults) : (newTopicManager crc ∅ localBrokerID config x).Standing crc := by
  refine ⟨inStep_new crc localBrokerID config x, fun name n hn => ?_, fun name t i ht => ?_⟩
  · rw [partitionCount, lookup_new] at hn
    cases hn
  · rw [lookup_new] at ht
    cases ht

/-- The partition of a new topic: the broker leads it alone. -/
def soleLeader (tm : TopicManager) : Partition :=
  (tm.startPartition true (Log.fresh tm.logConfig) .none).2

theorem soleLeader_log_ok (crc : Checksum) (tm : TopicManager) : tm.soleLeader.log.Ok crc :=
  (Log.newLog_ok (Log.newLog_nil crc tm.logConfig .none)).1.ofEpochs _ _ _

theorem Standing.createTopic (h : tm.Standing crc) {name : String}
    (hv : validateTopicName name = .ok ()) (hnew : name ∉ tm.topics) :
    (tm.createTopic crc name 1 true fun _ => .none).2.Standing crc ∧
      ∀ name', name' ∈ (tm.createTopic crc name 1 true fun _ => .none).2.topics ↔
        name' ∈ tm.topics ∨ name' = name := by
  have hin := h.inStep.createTopic crc name 1 true (x := fun _ => .none) fun _ left => by
    simp [OpenFaults.none]
  have hfree : partitionDir name 0 ∉ tm.dataDir := h.inStep.notMem hnew 0
  have ho : openLog crc tm.logConfig tm.dataDir (partitionDir name 0) .none =
      (.ok (Log.fresh tm.logConfig), tm.dataDir.insert (partitionDir name 0)
        (.dir (.ofLog (Log.fresh tm.logConfig)))) := by
    rw [openLog, DataDir.content, ExtTreeMap.getElem?_eq_none hfree]
    rfl
  have hpos : ¬ (1 : Int64) ≤ 0 := by decide
  have he : tm.createTopic crc name 1 true (fun _ => .none) = (.ok (), { tm with
      topics := tm.topics.insert name [some ⟨partitionDir name 0, tm.soleLeader⟩]
      dataDir := (tm.dataDir.insert (partitionDir name 0)
        (.dir (.ofLog (Log.fresh tm.logConfig)))).insert (partitionDir name 0)
          (.dir (.ofLog tm.soleLeader.log)) }) := by
    have hone : (1 : Int64).toInt.toNat = 1 := by decide
    unfold TopicManager.createTopic
    simp only [hv, if_neg hpos, if_neg hnew, hone, createPartitions, ho]
    rfl
  rw [he] at hin ⊢
  refine ⟨⟨hin, fun name' n hn => ?_, fun name' t i ht hi => ?_⟩,
    fun name' => by rw [Maps.mem_insert, or_comm, eq_comm]⟩
  · rw [partitionCount, Maps.lookup_insert] at hn
    split at hn
    · cases hn
      rfl
    · exact h.single name' n hn
  simp only [Maps.lookup_insert] at ht ⊢
  by_cases hname : name = name'
  · subst hname
    rw [if_pos rfl] at ht
    cases ht
    obtain rfl : i = 0 := by simpa using hi
    exact ⟨tm.soleLeader, rfl, if_pos rfl, soleLeader_log_ok crc tm⟩
  · rw [if_neg hname] at ht
    have hdir : partitionDir name 0 ≠ partitionDir name' i := fun he =>
      hname (partitionDir_inj.mp he).1
    simp only [if_neg hdir]
    exact h.slot name' t i ht hi

/-- A call on a partition that keeps its log well formed. -/
theorem Standing.store (h : tm.Standing crc) {topic : String} {t : Topic} {i : Nat}
    {p : LocalPartition} (ht : tm.topics[topic]? = some t) (hp : t[i]? = some (some p))
    {q : Partition} (hq : q.log.Ok crc) :
    (tm.store topic i ⟨p.dir, q⟩).Standing crc ∧
      ∀ name, name ∈ (tm.store topic i ⟨p.dir, q⟩).topics ↔ name ∈ tm.topics := by
  have hi : i < t.length := (List.getElem?_eq_some_iff.mp hp).1
  obtain ⟨hpdir, hfiles, -⟩ := h.of_slot ht hp
  rw [hpdir]
  have hmem : topic ∈ tm.topics := ExtTreeMap.mem_iff_isSome_getElem?.mpr (by rw [ht]; rfl)
  have hdir : partitionDir topic i ∈ tm.dataDir :=
    ExtTreeMap.mem_iff_isSome_getElem?.mpr (by rw [hfiles]; rfl)
  have htopics : (tm.store topic i ⟨partitionDir topic i, q⟩).topics =
      tm.topics.insert topic (t.set i (some ⟨partitionDir topic i, q⟩)) := by
    simp [TopicManager.store, ht]
  have hcount : ∀ name, (tm.store topic i ⟨partitionDir topic i, q⟩).partitionCount name =
      tm.partitionCount name := by
    intro name
    rw [partitionCount, partitionCount, htopics, Maps.lookup_insert]
    split
    · rename_i hname
      rw [← hname, ht]
      simp
    · rfl
  have hd : ∀ dir, dir ∈ (tm.store topic i ⟨partitionDir topic i, q⟩).dataDir ↔
      dir ∈ tm.dataDir := by
    intro dir
    refine Maps.mem_insert.trans ⟨?_, .inr⟩
    rintro (rfl | hd)
    · exact hdir
    · exact hd
  refine ⟨⟨h.inStep.congr hcount hd (h.inStep.onlyDirs.insert _ _), fun name n hn =>
    h.single name n ((hcount name).symm.trans hn), fun name s j hs hj => ?_⟩, fun name => ?_⟩
  · have hdata : (tm.store topic i ⟨partitionDir topic i, q⟩).dataDir[partitionDir name j]? =
        if partitionDir topic i = partitionDir name j then some (.dir (.ofLog q.log))
        else tm.dataDir[partitionDir name j]? := Maps.lookup_insert _ _ _ _
    rw [htopics, Maps.lookup_insert] at hs
    rw [hdata]
    by_cases hname : topic = name
    · subst hname
      rw [if_pos rfl] at hs
      cases hs
      rw [List.length_set] at hj
      by_cases hij : i = j
      · subst hij
        exact ⟨q, by simp [hi], if_pos rfl, hq⟩
      · have hne : partitionDir topic i ≠ partitionDir topic j := fun he =>
          hij (partitionDir_inj.mp he).2
        obtain ⟨p', hp', hf, hok⟩ := h.slot topic t j ht hj
        exact ⟨p', by rw [List.getElem?_set_ne hij, hp'], (if_neg hne).trans hf, hok⟩
    · rw [if_neg hname] at hs
      have hne : partitionDir topic i ≠ partitionDir name j := fun he =>
        hname (partitionDir_inj.mp he).1
      obtain ⟨p', hp', hf, hok⟩ := h.slot name s j hs hj
      exact ⟨p', hp', (if_neg hne).trans hf, hok⟩
  · rw [htopics, Maps.mem_insert]
    refine ⟨?_, .inr⟩
    rintro (rfl | hn)
    · exact hmem
    · exact hn

theorem appendRaw_log_ok {p : Partition} (h : p.log.Ok crc) (data : ByteString) (acks : Acks) :
    (p.appendRaw crc data acks .none).2.log.Ok crc := by
  rcases p.appendRaw_cases crc .none data acks with ⟨e, he⟩ | ⟨-, -, r, l, hl, hcase⟩
  · rw [he]
    exact h
  · obtain ⟨r', l', hl', hx⟩ := h.appendRaw Faults.none_harmless data p.leaderEpoch
    rw [hl] at hl'
    cases hl'
    have hok : l.Ok crc := by
      rcases hx with ⟨-, hx⟩ | ⟨_, -, -, -, hx, -⟩ <;> exact hx.ok
    rcases hcase with ⟨e, e', rfl, he⟩ | ⟨_, _, _, _, rfl, he⟩
    · rw [he]
      exact hok
    · rw [he, Partition.maybeAdvanceHW_log]
      exact hok

theorem Standing.autoCreate (h : tm.Standing crc) (name : String) :
    (tm.autoCreate crc name).Standing crc ∧
      ∀ name', name' ∈ (tm.autoCreate crc name).topics ↔
        name' ∈ tm.topics ∨ name' = name ∧ validateTopicName name = .ok () := by
  unfold TopicManager.autoCreate
  by_cases hnew : name ∈ tm.topics
  · -- a topic in step has its first partition
    obtain ⟨t, ht⟩ := Option.isSome_iff_exists.mp (ExtTreeMap.mem_iff_isSome_getElem?.mp hnew)
    obtain ⟨hv, hpos, -⟩ := h.inStep.topic name t ht
    obtain ⟨p, hp, -⟩ := h.slot name t 0 ht hpos
    have hget : tm.getPartition name 0 = .ok ⟨partitionDir name 0, p⟩ :=
      getPartition_ok.mpr ⟨by decide, t, ht, hp⟩
    simp only [hget]
    refine ⟨h, fun name' => ⟨.inl, ?_⟩⟩
    rintro (hn | ⟨rfl, -⟩)
    · exact hn
    · exact hnew
  · have hget : tm.getPartition name 0 = .error .unknownTopicOrPartition := by
      rw [getPartition, ExtTreeMap.getElem?_eq_none hnew]
    simp only [hget]
    cases hv : validateTopicName name with
    | error e =>
      have he : tm.createTopic crc name 1 true (fun _ => .none) = (.error (.name e), tm) := by
        unfold TopicManager.createTopic
        rw [hv]
      rw [he]
      exact ⟨h, fun name' => by simp⟩
    | ok u =>
      obtain ⟨hs, hmem⟩ := h.createTopic hv hnew
      exact ⟨hs, fun name' => by rw [hmem]; simp⟩

theorem Standing.producePartition (h : tm.Standing crc) (acks : Acks)
    (part : String × Int32 × ByteString) : (tm.producePartition crc acks part).2.Standing crc ∧
      ∀ name, name ∈ (tm.producePartition crc acks part).2.topics ↔ name ∈ tm.topics := by
  unfold TopicManager.producePartition
  cases hget : tm.getPartition part.1 part.2.1 with
  | error e => exact ⟨h, fun _ => Iff.rfl⟩
  | ok p =>
    obtain ⟨-, t, ht, hp⟩ := getPartition_ok.mp hget
    simp only
    split
    · exact ⟨h, fun _ => Iff.rfl⟩
    have hlog := appendRaw_log_ok (h.of_slot ht hp).2.2 part.2.2 acks
    revert hlog
    rcases p.partition.appendRaw crc part.2.2 acks .none with ⟨_ | _, q⟩
    · exact fun hlog => h.store ht hp hlog
    · exact fun hlog => h.store ht hp hlog

theorem Standing.produceAll (acks : Acks) (parts : List (String × Int32 × ByteString)) :
    ∀ {tm : TopicManager}, tm.Standing crc →
      (TopicManager.produceAll crc acks tm parts).2.Standing crc ∧
      ∀ name, name ∈ (TopicManager.produceAll crc acks tm parts).2.topics ↔ name ∈ tm.topics := by
  induction parts with
  | nil => exact fun h => ⟨h, fun _ => Iff.rfl⟩
  | cons part parts ih =>
    intro tm h
    obtain ⟨h₁, hmem₁⟩ := h.producePartition acks part
    obtain ⟨h₂, hmem₂⟩ := ih h₁
    exact ⟨h₂, fun name => (hmem₂ name).trans (hmem₁ name)⟩

theorem Standing.foldl_autoCreate (names : List String) :
    ∀ {tm : TopicManager}, tm.Standing crc →
      (names.foldl (TopicManager.autoCreate crc) tm).Standing crc ∧
      ∀ name, name ∈ (names.foldl (TopicManager.autoCreate crc) tm).topics ↔
        name ∈ tm.topics ∨ name ∈ names ∧ validateTopicName name = .ok () := by
  induction names with
  | nil => exact fun h => ⟨h, fun name => by simp⟩
  | cons n names ih =>
    intro tm h
    obtain ⟨h₁, hmem₁⟩ := h.autoCreate n
    obtain ⟨h₂, hmem₂⟩ := ih h₁
    refine ⟨h₂, fun name => (hmem₂ name).trans ?_⟩
    rw [hmem₁, List.mem_cons]
    constructor
    · rintro ((ht | ⟨rfl, hv⟩) | ⟨hn, hv⟩)
      · exact .inl ht
      · exact .inr ⟨.inl rfl, hv⟩
      · exact .inr ⟨.inr hn, hv⟩
    · rintro (ht | ⟨rfl | hn, hv⟩)
      · exact .inl (.inl ht)
      · exact .inl (.inr ⟨rfl, hv⟩)
      · exact .inr ⟨hn, hv⟩

/-- A request creates the topics it may create under valid names, and no others. -/
theorem Standing.serve (h : tm.Standing crc) (r : Request) : (tm.serve crc r).2.Standing crc ∧
    ∀ name, name ∈ (tm.serve crc r).2.topics ↔
      name ∈ tm.topics ∨ name ∈ r.autoCreated ∧ validateTopicName name = .ok () := by
  cases r with
  | metadata topics allow =>
    cases allow with
    | false => exact ⟨h, fun name => by simp [Request.autoCreated, TopicManager.serve]⟩
    | true => exact Standing.foldl_autoCreate topics h
  | produce acks parts =>
    have hall : ∀ acks, (TopicManager.produceAll crc acks tm parts).2.Standing crc ∧
        ∀ name, name ∈ (TopicManager.produceAll crc acks tm parts).2.topics ↔
          name ∈ tm.topics ∨ name ∈ ([] : List String) ∧ validateTopicName name = .ok () := by
      intro acks
      obtain ⟨hs, hmem⟩ := Standing.produceAll acks parts h
      exact ⟨hs, fun name => by rw [hmem]; simp⟩
    cases acks with
    | invalid value => exact ⟨h, fun name => by simp [Request.autoCreated, TopicManager.serve]⟩
    | none => exact hall .none
    | leader => exact hall .leader
    | all => exact hall .all

theorem Standing.run (h : tm.Standing crc) (requests : List Request) :
    (Runs.final (TopicManager.serve crc) tm requests).Standing crc ∧
      ∀ name, name ∈ (Runs.final (TopicManager.serve crc) tm requests).topics ↔
        name ∈ tm.topics ∨
          ∃ r ∈ requests, name ∈ r.autoCreated ∧ validateTopicName name = .ok () := by
  induction requests generalizing tm with
  | nil => exact ⟨h, fun name => by simp⟩
  | cons r requests ih =>
    obtain ⟨h₁, hmem₁⟩ := h.serve r
    obtain ⟨h₂, hmem₂⟩ := ih h₁
    refine ⟨h₂, fun name => (hmem₂ name).trans ?_⟩
    rw [hmem₁, or_assoc, List.exists_mem_cons_iff]

end Keep

/-! ## After a restart -/

section Restart

variable {crc : Checksum} {tm : TopicManager} {config : LogConfig}

/-- What the recovery gives for a partition whose log opens: the same batches, and
no role. -/
theorem Standing.recovered (h : tm.Standing crc) (localBrokerID : Int32)
    (hopen : ∀ dir ∈ tm.dataDir, ∃ l, (openLog crc config tm.dataDir dir .none).1 = .ok l)
    {name : String} {t : Topic} (ht : tm.topics[name]? = some t) (hsmall : t.length ≤ 10000)
    {i : Nat} {p : LocalPartition} (hp : t[i]? = some (some p)) :
    ∃ t' l, (newTopicManager crc tm.dataDir localBrokerID config fun _ => .none).topics[name]? =
        some t' ∧ t'[i]? = some (some ⟨p.dir, newPartition localBrokerID l⟩) ∧
      l.batches = p.partition.log.batches ∧ l.nextOffset = p.partition.log.nextOffset := by
  have hi : i < t.length := (List.getElem?_eq_some_iff.mp hp).1
  obtain ⟨hpdir, hfiles, hok⟩ := h.of_slot ht hp
  rw [hpdir]
  obtain ⟨l, hl⟩ := hopen (partitionDir name i)
    (ExtTreeMap.mem_iff_isSome_getElem?.mpr (by rw [hfiles]; rfl))
  have hreopen : p.partition.log.reopen crc config .none = .ok l := by
    unfold openLog at hl
    rw [DataDir.content, hfiles] at hl
    simp only [OpenFaults.none, LogDir.ofLog] at hl
    unfold Log.reopen
    split at hl
    · cases hl
    · rename_i l' he
      cases hl
      exact he
  have hx := hok.reopen hreopen
  have hlook := (h.inStep.restart localBrokerID config).lookup_recoverFromDisk crc
    (fun _ => .none) name
  simp only [ht, if_neg (Nat.not_lt.mpr hsmall)] at hlook
  refine ⟨_, l, hlook, ?_, hx.batches, hx.next⟩
  rw [List.getElem?_map, List.getElem?_range hi, Option.map_some]
  simp only [recoverPartition, hl]

/-- A recovered partition serves no consumer. -/
theorem fetchPartition_recovered {tm' : TopicManager} {name : String} {index : Int32} {dir : String}
    {localBrokerID : Int32} {l : Log}
    (hget : tm'.getPartition name index = .ok ⟨dir, newPartition localBrokerID l⟩)
    (epoch : Int32) {fetchOffset : Int64} (hpos : 0 ≤ fetchOffset) (replicaID partMax : Int32)
    (first : Bool) :
    tm'.fetchPartition name index epoch fetchOffset replicaID partMax first =
      (.error .notLeaderOrFollower, tm') := by
  unfold fetchPartition
  simp only [hget, if_neg (Int64.not_lt.mpr hpos)]
  rfl

end Restart

end TopicManager

open TopicManager in
/-- After a restart without a controller every partition has its batches, but no
broker leads it: what was acknowledged can be read back only if nothing could be
acknowledged, because no topic was created. -/
theorem standalone_restart_reads_back_iff (crc : Checksum) (localBrokerID : Int32)
    (config config' : LogConfig) (requests : List Request)
    (hopen : ∀ dir ∈ (Runs.final (serve crc)
        (newTopicManager crc ∅ localBrokerID config fun _ => .none) requests).dataDir,
      ∃ l, (openLog crc config' (Runs.final (serve crc)
        (newTopicManager crc ∅ localBrokerID config fun _ => .none) requests).dataDir dir
          .none).1 = .ok l) :
    let tm := Runs.final (serve crc) (newTopicManager crc ∅ localBrokerID config fun _ => .none)
      requests
    let restarted := newTopicManager crc tm.dataDir localBrokerID config' fun _ => .none
    (∀ name index p, tm.getPartition name index = .ok p → ∃ p',
      restarted.getPartition name index = .ok p' ∧
      p'.partition.log.batches = p.partition.log.batches ∧
      p'.partition.log.nextOffset = p.partition.log.nextOffset) ∧
    ((∀ name index p', restarted.getPartition name index = .ok p' →
        ∃ p, tm.getPartition name index = .ok p ∧
          restarted.ReadsBack name index p.partition.log) ↔
      ∀ r ∈ requests, ∀ name ∈ r.autoCreated, validateTopicName name ≠ .ok ()) := by
  intro tm restarted
  obtain ⟨hs, hmem⟩ := (standing_new crc localBrokerID config fun _ => .none).run
    requests
  have hrec : ∀ name index p, tm.getPartition name index = .ok p → ∃ dir l,
      restarted.getPartition name index = .ok ⟨dir, newPartition localBrokerID l⟩ ∧
      l.batches = p.partition.log.batches ∧ l.nextOffset = p.partition.log.nextOffset := by
    intro name index p hp
    obtain ⟨hpos, t, ht, hslot⟩ := getPartition_ok.mp hp
    have hone := hs.single name t.length (partitionCount_eq_some.mpr ⟨t, ht, rfl⟩)
    obtain ⟨t', l, ht', hslot', hb, hn⟩ := hs.recovered localBrokerID hopen ht (by omega) hslot
    exact ⟨p.dir, l, getPartition_ok.mpr ⟨hpos, t', ht', hslot'⟩, hb, hn⟩
  constructor
  · intro name index p hp
    obtain ⟨dir, l, hget, hb, hn⟩ := hrec name index p hp
    exact ⟨_, hget, hb, hn⟩
  · constructor
    · intro hreads r hr name hname hv
      have htopic : name ∈ tm.topics := (hmem name).mpr (.inr ⟨r, hr, hname, hv⟩)
      obtain ⟨t, ht⟩ := Option.isSome_iff_exists.mp (ExtTreeMap.mem_iff_isSome_getElem?.mp htopic)
      obtain ⟨p, hslot, -⟩ := hs.slot name t 0 ht (hs.inStep.topic name t ht).2.1
      obtain ⟨dir, l, hget, -⟩ := hrec name 0 _ (getPartition_ok.mpr ⟨by decide, t, ht, hslot⟩)
      obtain ⟨_, -, hback⟩ := hreads name 0 _ hget
      obtain ⟨⟨r, hok⟩, -⟩ := hback 1 (by decide)
      rw [fetchPartition_recovered hget (-1) (by decide)] at hok
      cases hok
    · intro hnone name index p' hget
      -- nothing was created, so nothing is recovered
      obtain ⟨-, t, ht, -⟩ := getPartition_ok.mp hget
      have hlook := (hs.inStep.restart localBrokerID config').lookup_recoverFromDisk crc
        (fun _ => .none) name
      have htm : tm.topics[name]? = none := by
        refine ExtTreeMap.getElem?_eq_none fun hin => ?_
        rcases (hmem name).mp hin with hstart | ⟨r, hr, hname, hv⟩
        · rw [ExtTreeMap.mem_iff_isSome_getElem?, lookup_new] at hstart
          cases hstart
        · exact hnone r hr name hname hv
      have hback : restarted.topics[name]? = none := by
        refine hlook.trans ?_
        rw [htm]
      rw [hback] at ht
      cases ht

namespace TopicManager

/-- A topic is created and one batch produced to it. -/
def oneBatch : List Request :=
  [.metadata ["t"] true, .produce .leader [("t", 0, Log.sampleRequest 1)]]

def afterOneBatch : TopicManager := Runs.final (serve crc32c) sampleManager oneBatch

end TopicManager

open TopicManager in
theorem standalone_restart_reads_back_iff_oneBatch :
    ∃ p p', afterOneBatch.getPartition "t" 0 = .ok p ∧
      afterOneBatch.restarted.getPartition "t" 0 = .ok p' ∧
      p'.partition.log.batches = p.partition.log.batches ∧
      p'.partition.log.nextOffset = p.partition.log.nextOffset := by
  have hkeys : afterOneBatch.dataDir.keys = ["t-0"] := by decide +kernel
  have hopens :
      (openLog crc32c Log.tightConfig afterOneBatch.dataDir "t-0" .none).1.isOk = true := by
    decide +kernel
  have hget : (afterOneBatch.getPartition "t" 0).isOk = true := by decide +kernel
  have h := standalone_restart_reads_back_iff crc32c 1 Log.tightConfig Log.tightConfig oneBatch
    fun dir hd => by
      have hd : dir ∈ afterOneBatch.dataDir.keys := ExtTreeMap.mem_keys.mpr hd
      rw [hkeys, List.mem_singleton] at hd
      subst hd
      cases ho : (openLog crc32c Log.tightConfig afterOneBatch.dataDir "t-0" .none).1 with
      | error e =>
        rw [ho] at hopens
        cases hopens
      | ok l => exact ⟨l, ho⟩
  cases hp : afterOneBatch.getPartition "t" 0 with
  | error e =>
    rw [hp] at hget
    cases hget
  | ok p =>
    obtain ⟨p', hp', hb, hn⟩ := h.1 "t" 0 p hp
    exact ⟨p, p', rfl, hp', hb, hn⟩

open TopicManager in
/-- The batch was acknowledged and its log is recovered, but a consumer fetch at
offset 0 fails. -/
theorem standalone_restart_not_readable :
    Runs.outputs (serve crc32c) sampleManager oneBatch = [[], [.ok (some ⟨0, none⟩)]] ∧
    (afterOneBatch.restarted.getPartition "t" 0).isOk = true ∧
    (afterOneBatch.restarted.fetchPartition "t" 0 (-1) 0 (-1) 1000 true).1 =
      .error .notLeaderOrFollower := by
  decide +kernel

end MessageBroker.Broker
