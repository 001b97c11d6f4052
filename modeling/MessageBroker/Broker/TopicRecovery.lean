import MessageBroker.Lib.Runs
import MessageBroker.Storage.Tiling
import MessageBroker.Broker.Topics

/-!
# Topics on disk and in memory

A restart sees directory names only. The file relates the topics of a manager to
the directories below its data directory: what a creation adds and what a failed
one cleans up, and what the recovery makes of the names it finds.
-/
namespace MessageBroker.Broker

open Std Lib Storage

/-! ## Directory names -/

theorem toList_partitionDir (topic : String) (i : Nat) :
    (partitionDir topic i).toList = topic.toList ++ '-' :: Nat.toDigits 10 i := by
  simp [partitionDir]

theorem splitLast_partitionDir (topic : String) (i : Nat) :
    Decimal.splitLast '-' (partitionDir topic i).toList =
      some (topic.toList, Nat.toDigits 10 i) := by
  rw [toList_partitionDir]
  exact Decimal.splitLast_append _ (Decimal.notMem_toDigits (by decide) i)

/-- The name of a directory determines the topic and the partition, also for
topics with dashes and digits. -/
theorem partitionDir_inj {topic topic' : String} {i i' : Nat} :
    partitionDir topic i = partitionDir topic' i' ↔ topic = topic' ∧ i = i' := by
  refine ⟨fun h => ?_, fun ⟨ht, hi⟩ => by rw [ht, hi]⟩
  have hsplit := splitLast_partitionDir topic i
  rw [h, splitLast_partitionDir topic' i', Option.some.injEq, Prod.mk.injEq] at hsplit
  refine ⟨(String.toList_inj.mp hsplit.1).symm, ?_⟩
  have hparse := Decimal.parseDigits_toDigits i
  rw [← hsplit.2, Decimal.parseDigits_toDigits, Option.some.injEq] at hparse
  exact hparse.symm

theorem parseDir_partitionDir {topic : String} (hv : validateTopicName topic = .ok ()) {i : Nat}
    (hi : i < 2 ^ 63) : parseDir (partitionDir topic i) = some (topic, i) := by
  unfold parseDir
  rw [splitLast_partitionDir]
  simp only [String.ofList_toList, hv, Decimal.atoi_toDigits hi]
  rw [if_neg (by omega), Int.toNat_natCast]

/-! ## Opening a log -/

/-- If the log does not open, no directory is left that was not there before. -/
def OpenFaults.Clean (x : OpenFaults) : Prop := ∀ left, x.fault ≠ some (.files left)

theorem openLog_new (crc : Checksum) (config : LogConfig) {d : DataDir} {dir : String}
    (hd : dir ∉ d) {x : OpenFaults} (hx : x.Clean) :
    openLog crc config d dir x = (.error .mkdir, d) ∨
    openLog crc config d dir x =
      (.ok (Log.fresh config), d.insert dir (.dir (.ofLog (Log.fresh config)))) := by
  have hc : d.content dir = some ⟨[], none⟩ := by
    rw [DataDir.content, ExtTreeMap.getElem?_eq_none hd]
  unfold openLog
  rw [hc]
  rcases hf : x.fault with _ | _ | left
  · right
    simp only [Log.newLog_nil]
  · exact .inl rfl
  · exact absurd hf (hx left)

/-! ## Creating a topic -/

namespace TopicManager

section Create

variable {crc : Checksum} {tm : TopicManager} {name : String} {initialLeader : Bool}
  {x : Nat → OpenFaults}

theorem mem_removeDirs {i : Nat} {d : DataDir} {dir : String} :
    dir ∈ removeDirs name i d ↔ dir ∈ d ∧ ∀ j < i, dir ≠ partitionDir name j := by
  induction i with
  | zero => simp [removeDirs]
  | succ i ih =>
    have hstep : removeDirs name (i + 1) d = (removeDirs name i d).erase (partitionDir name i) := by
      simp [removeDirs, List.range_succ]
    rw [hstep, Maps.mem_erase, ih]
    constructor
    · rintro ⟨hne, hd, hlt⟩
      refine ⟨hd, fun j hj => ?_⟩
      rcases Nat.lt_succ_iff_lt_or_eq.mp hj with hj | rfl
      · exact hlt j hj
      · exact Ne.symm hne
    · rintro ⟨hd, hlt⟩
      exact ⟨Ne.symm (hlt i (Nat.lt_succ_self i)), hd, fun j hj => hlt j (Nat.lt_succ_of_lt hj)⟩

/-- A creation that succeeds adds the directories of its partitions, and one that
fails takes away what it had added. -/
theorem createPartitions_dirs (crc : Checksum) (tm : TopicManager) (initialLeader : Bool)
    (hx : ∀ j, (x j).Clean) (n : Nat) : ∀ (i : Nat) (d : DataDir),
    (∀ j, i ≤ j → partitionDir name j ∉ d) →
    match createPartitions crc tm name initialLeader x n i d with
    | (.ok ps, d') => ps.length = n ∧
        ∀ dir, dir ∈ d' ↔ dir ∈ d ∨ ∃ j, i ≤ j ∧ j < i + n ∧ dir = partitionDir name j
    | (.error _, d') => ∀ dir, dir ∈ d' ↔ dir ∈ d ∧ ∀ j, dir ≠ partitionDir name j := by
  induction n with
  | zero =>
    intro i d _
    refine ⟨rfl, fun dir => ⟨.inl, ?_⟩⟩
    rintro (hd | ⟨j, hij, hji, -⟩)
    · exact hd
    · omega
  | succ n ih =>
    intro i d hfree
    have hi : partitionDir name i ∉ d := hfree i (Nat.le_refl i)
    -- no directory from `i` on is there, so removing those below leaves none
    have hgone : ∀ dir, dir ∈ d → (∀ j < i, dir ≠ partitionDir name j) →
        ∀ j, dir ≠ partitionDir name j := by
      intro dir hd hlt j he
      rcases Nat.lt_or_ge j i with hj | hj
      · exact hlt j hj he
      · exact hfree j hj (he ▸ hd)
    rw [createPartitions]
    rcases openLog_new crc tm.logConfig hi (hx i) with ho | ho
    · rw [ho]
      intro dir
      rw [mem_removeDirs]
      exact ⟨fun ⟨hd, hlt⟩ => ⟨hd, hgone dir hd hlt⟩, fun ⟨hd, hall⟩ => ⟨hd, fun j _ => hall j⟩⟩
    · rw [ho]
      simp only
      rcases hs : tm.startPartition initialLeader (Log.fresh tm.logConfig) (x i).io with
        ⟨e | ⟨⟩, p⟩
      · intro dir
        simp only [Maps.mem_erase, mem_removeDirs, Maps.mem_insert]
        constructor
        · rintro ⟨hne, he | hd, hlt⟩
          · exact absurd he hne
          · exact ⟨hd, hgone dir hd hlt⟩
        · rintro ⟨hd, hall⟩
          exact ⟨Ne.symm (hall i), .inr hd, fun j _ => hall j⟩
      · simp only
        have hnext := ih (i + 1) ((d.insert (partitionDir name i)
            (.dir (.ofLog (Log.fresh tm.logConfig)))).insert (partitionDir name i)
            (.dir (.ofLog p.log))) (by
          intro j hj hmem
          simp only [Maps.mem_insert] at hmem
          rcases hmem with he | he | hmem
          · exact absurd (partitionDir_inj.mp he).2 (by omega)
          · exact absurd (partitionDir_inj.mp he).2 (by omega)
          · exact hfree j (by omega) hmem)
        simp only [Maps.mem_insert] at hnext
        split at hnext
        · rename_i ps d' hc
          rw [hc]
          refine ⟨by rw [List.length_cons, hnext.1], fun dir => (hnext.2 dir).trans ?_⟩
          constructor
          · rintro ((rfl | rfl | hd) | ⟨j, hij, hji, he⟩)
            · exact .inr ⟨i, Nat.le_refl i, by omega, rfl⟩
            · exact .inr ⟨i, Nat.le_refl i, by omega, rfl⟩
            · exact .inl hd
            · exact .inr ⟨j, by omega, by omega, he⟩
          · rintro (hd | ⟨j, hij, hji, he⟩)
            · exact .inl (.inr (.inr hd))
            · rcases Nat.eq_or_lt_of_le hij with rfl | hij
              · exact .inl (.inl he.symm)
              · exact .inr ⟨j, hij, by omega, he⟩
        · rename_i e d' hc
          rw [hc]
          intro dir
          refine (hnext dir).trans ⟨?_, fun ⟨hd, hall⟩ => ⟨.inr (.inr hd), hall⟩⟩
          rintro ⟨he | he | hd, hall⟩
          · exact absurd he.symm (hall i)
          · exact absurd he.symm (hall i)
          · exact ⟨hd, hall⟩

end Create

end TopicManager

/-- Without failures a new topic gets all its partitions. -/
theorem TopicManager.createPartitions_ok (crc : Checksum) {tm : TopicManager} {name : String}
    {initialLeader : Bool} {x : Nat → OpenFaults} (hx : ∀ j, (x j).fault = none)
    (hstart : ∀ j, (tm.startPartition initialLeader (Log.fresh tm.logConfig) (x j).io).1 = .ok ())
    (n : Nat) : ∀ (i : Nat) (d : DataDir), (∀ j, i ≤ j → partitionDir name j ∉ d) →
    ∃ t d', createPartitions crc tm name initialLeader x n i d = (.ok t, d') := by
  induction n with
  | zero => exact fun _ d _ => ⟨[], d, rfl⟩
  | succ n ih =>
    intro i d hfree
    have ho : openLog crc tm.logConfig d (partitionDir name i) (x i) =
        (.ok (Log.fresh tm.logConfig),
        d.insert (partitionDir name i) (.dir (.ofLog (Log.fresh tm.logConfig)))) := by
      rw [openLog, hx i, DataDir.content, ExtTreeMap.getElem?_eq_none (hfree i (Nat.le_refl i))]
      simp only [Log.newLog_nil]
    rcases hs : tm.startPartition initialLeader (Log.fresh tm.logConfig) (x i).io with ⟨r, p⟩
    have hr : r = .ok () := by
      have := hstart i
      rwa [hs] at this
    obtain ⟨t, d', hrest⟩ := ih (i + 1) ((d.insert (partitionDir name i)
        (.dir (.ofLog (Log.fresh tm.logConfig)))).insert (partitionDir name i)
        (.dir (.ofLog p.log))) (by
      intro j hj hmem
      simp only [Maps.mem_insert, partitionDir_inj] at hmem
      rcases hmem with ⟨-, he⟩ | ⟨-, he⟩ | hmem
      · omega
      · omega
      · exact hfree j (by omega) hmem)
    refine ⟨some ⟨partitionDir name i, p⟩ :: t, d', ?_⟩
    rw [createPartitions, ho]
    simp only [hs, hr, hrest]

/-- Nothing but directories. -/
def DataDir.Dirs (d : DataDir) : Prop := ∀ dir : String, d[dir]? ≠ some .file

theorem DataDir.Dirs.insert {d : DataDir} (h : d.Dirs) (dir : String) (content : LogDir) :
    DataDir.Dirs (d.insert dir (.dir content)) := by
  intro a
  rw [Maps.lookup_insert]
  split
  · simp
  · exact h a

theorem DataDir.Dirs.erase {d : DataDir} (h : d.Dirs) (dir : String) :
    DataDir.Dirs (d.erase dir) := by
  intro a
  rw [ExtTreeMap.getElem?_erase]
  split
  · simp
  · exact h a

theorem openLog_dirs (crc : Checksum) (config : LogConfig) {d : DataDir} (h : d.Dirs)
    (dir : String) (x : OpenFaults) : (openLog crc config d dir x).2.Dirs := by
  unfold openLog
  split
  · exact h
  · exact h
  · exact h.insert dir _
  · split
    · exact h.insert dir _
    · exact h.insert dir _

namespace TopicManager

theorem removeDirs_dirs (name : String) (i : Nat) {d : DataDir} (h : d.Dirs) :
    (removeDirs name i d).Dirs := by
  unfold removeDirs
  generalize List.range i = js
  induction js generalizing d with
  | nil => exact h
  | cons j js ih => exact ih (h.erase _)

theorem createPartitions_onlyDirs (crc : Checksum) (tm : TopicManager) (name : String)
    (initialLeader : Bool) (x : Nat → OpenFaults) (n : Nat) : ∀ (i : Nat) {d : DataDir}, d.Dirs →
    (createPartitions crc tm name initialLeader x n i d).2.Dirs := by
  induction n with
  | zero => exact fun _ _ h => h
  | succ n ih =>
    intro i d h
    rw [createPartitions]
    have ho := openLog_dirs crc tm.logConfig h (partitionDir name i) (x i)
    split
    · rename_i e d' he
      rw [he] at ho
      exact removeDirs_dirs name i ho
    · rename_i l d' he
      rw [he] at ho
      split
      · exact (removeDirs_dirs name i ho).erase _
      · rename_i p hs
        have hnext := ih (i + 1) (ho.insert (partitionDir name i) (.ofLog p.log))
        split <;> rename_i hc <;> rwa [hc] at hnext

/-- The topics of the manager and the directories it finds at a restart are the
same. -/
structure InStep (tm : TopicManager) : Prop where
  topic : ∀ (name : String) (t : Topic), tm.topics[name]? = some t →
    validateTopicName name = .ok () ∧ 0 < t.length ∧ t.length < 2 ^ 63
  dirs : ∀ dir, dir ∈ tm.dataDir ↔
    ∃ name t i, tm.topics[name]? = some t ∧ i < t.length ∧ dir = partitionDir name i
  onlyDirs : tm.dataDir.Dirs

/-- Only the directories matter at a restart. -/
theorem InStep.restart {tm : TopicManager} (h : tm.InStep) (localBrokerID : Int32)
    (config : LogConfig) : InStep { tm with
      localBrokerID := localBrokerID
      logConfig := config } :=
  ⟨h.topic, h.dirs, h.onlyDirs⟩

theorem partitionCount_eq_some {tm : TopicManager} {name : String} {n : Nat} :
    tm.partitionCount name = some n ↔ ∃ t, tm.topics[name]? = some t ∧ t.length = n :=
  Option.map_eq_some_iff

/-- Only the numbers of partitions and the directories matter. -/
theorem InStep.congr {tm tm' : TopicManager} (h : tm.InStep)
    (hcount : ∀ name, tm'.partitionCount name = tm.partitionCount name)
    (hdirs : ∀ dir, dir ∈ tm'.dataDir ↔ dir ∈ tm.dataDir) (honly : tm'.dataDir.Dirs) :
    tm'.InStep := by
  refine ⟨fun name t' ht' => ?_, fun dir => ?_, honly⟩
  · obtain ⟨t, ht, hlen⟩ := partitionCount_eq_some.mp
      ((hcount name).symm.trans (partitionCount_eq_some.mpr ⟨t', ht', rfl⟩))
    rw [← hlen]
    exact h.topic name t ht
  · rw [hdirs, h.dirs]
    constructor
    · rintro ⟨name, t, i, ht, hi, rfl⟩
      obtain ⟨t', ht', hlen⟩ := partitionCount_eq_some.mp
        ((hcount name).trans (partitionCount_eq_some.mpr ⟨t, ht, rfl⟩))
      exact ⟨name, t', i, ht', hlen ▸ hi, rfl⟩
    · rintro ⟨name, t', i, ht', hi, rfl⟩
      obtain ⟨t, ht, hlen⟩ := partitionCount_eq_some.mp
        ((hcount name).symm.trans (partitionCount_eq_some.mpr ⟨t', ht', rfl⟩))
      exact ⟨name, t, i, ht, hlen ▸ hi, rfl⟩

theorem InStep.notMem {tm : TopicManager} (h : tm.InStep) {name : String} (hn : name ∉ tm.topics)
    (i : Nat) : partitionDir name i ∉ tm.dataDir := by
  intro hd
  obtain ⟨name', t, j, ht, -, he⟩ := (h.dirs _).mp hd
  rw [(partitionDir_inj.mp he).1] at hn
  exact hn (ExtTreeMap.mem_iff_isSome_getElem?.mpr (by rw [ht]; rfl))

theorem createTopic_cases (crc : Checksum) (tm : TopicManager) (name : String)
    (numPartitions : Int64) (initialLeader : Bool) (x : Nat → OpenFaults) :
    (∃ e, createTopic crc tm name numPartitions initialLeader x = (.error e, tm)) ∨
    validateTopicName name = .ok () ∧ 0 < numPartitions.toInt ∧ name ∉ tm.topics ∧
      ∃ r d, createPartitions crc tm name initialLeader x numPartitions.toInt.toNat 0 tm.dataDir =
          (r, d) ∧
        ((∃ e, r = .error e ∧ createTopic crc tm name numPartitions initialLeader x =
            (.error e, { tm with dataDir := d })) ∨
          ∃ t, r = .ok t ∧ createTopic crc tm name numPartitions initialLeader x =
            (.ok (), { tm with topics := tm.topics.insert name t, dataDir := d })) := by
  unfold createTopic
  rcases hv : validateTopicName name with e | ⟨⟩
  · exact .inl ⟨_, rfl⟩
  simp only
  split
  · exact .inl ⟨_, rfl⟩
  rename_i hpos
  split
  · exact .inl ⟨_, rfl⟩
  rename_i hnew
  refine .inr ⟨trivial, ?_, hnew, ?_⟩
  · have := Int64.le_iff_toInt_le.not.mp hpos
    simpa using this
  rcases hc : createPartitions crc tm name initialLeader x numPartitions.toInt.toNat 0 tm.dataDir
    with ⟨e | t, d⟩
  · exact ⟨_, d, rfl, .inl ⟨e, rfl, rfl⟩⟩
  · exact ⟨_, d, rfl, .inr ⟨t, rfl, rfl⟩⟩

/-- A creation whose logs fail cleanly keeps disk and memory in step. -/
theorem InStep.createTopic {tm : TopicManager} (h : tm.InStep) (crc : Checksum) (name : String)
    (numPartitions : Int64) (initialLeader : Bool) {x : Nat → OpenFaults} (hx : ∀ j, (x j).Clean) :
    (tm.createTopic crc name numPartitions initialLeader x).2.InStep := by
  rcases createTopic_cases crc tm name numPartitions initialLeader x with
    ⟨e, he⟩ | ⟨hv, hpos, hnew, r, d, hc, hcase⟩
  · rw [he]
    exact h
  have hdirs := createPartitions_dirs crc tm initialLeader hx
    numPartitions.toInt.toNat 0 tm.dataDir fun j _ => h.notMem hnew j
  have honly := createPartitions_onlyDirs crc tm name initialLeader x numPartitions.toInt.toNat 0
    h.onlyDirs
  rw [hc] at hdirs honly
  rcases hcase with ⟨e, rfl, he⟩ | ⟨t, rfl, he⟩
  · rw [he]
    refine ⟨h.topic, fun dir => ?_, honly⟩
    rw [hdirs, ← h.dirs]
    refine ⟨And.left, fun hd => ⟨hd, fun j he => h.notMem hnew j (he ▸ hd)⟩⟩
  · rw [he]
    simp only at hdirs
    refine ⟨fun name' t' ht => ?_, fun dir => ?_, honly⟩
    · rw [Maps.lookup_insert] at ht
      split at ht
      · rename_i hname
        cases ht
        subst hname
        have := numPartitions.toInt_lt
        exact ⟨hv, by omega, by omega⟩
      · exact h.topic name' t' ht
    · rw [hdirs.2, h.dirs]
      constructor
      · rintro (⟨name', t', i, ht, hi, rfl⟩ | ⟨j, -, hj, rfl⟩)
        · refine ⟨name', t', i, ?_, hi, rfl⟩
          have hne : name ≠ name' := by
            rintro rfl
            exact hnew (ExtTreeMap.mem_iff_isSome_getElem?.mpr (by rw [ht]; rfl))
          rw [Maps.lookup_insert_ne _ hne, ht]
        · exact ⟨name, t, j, ExtTreeMap.getElem?_insert_self, by omega, rfl⟩
      · rintro ⟨name', t', i, ht, hi, rfl⟩
        rw [Maps.lookup_insert] at ht
        split at ht
        · rename_i hname
          cases ht
          exact .inr ⟨i, Nat.zero_le i, by omega, by rw [hname]⟩
        · exact .inl ⟨name', t', i, ht, hi, rfl⟩

/-- Without failures a new topic is created. -/
theorem InStep.createTopic_ok {tm : TopicManager} (h : tm.InStep) (crc : Checksum) {name : String}
    (hv : validateTopicName name = .ok ()) (hnew : name ∉ tm.topics) {numPartitions : Int64}
    (hpos : 0 < numPartitions.toInt) (initialLeader : Bool) {x : Nat → OpenFaults}
    (hx : ∀ j, (x j).fault = none)
    (hstart : ∀ j, (tm.startPartition initialLeader (Log.fresh tm.logConfig) (x j).io).1 = .ok ()) :
    ∃ t d, t.length = numPartitions.toInt.toNat ∧
      TopicManager.createTopic crc tm name numPartitions initialLeader x =
        (.ok (), { tm with topics := tm.topics.insert name t, dataDir := d }) := by
  have hfree : ∀ j, 0 ≤ j → partitionDir name j ∉ tm.dataDir := fun j _ => h.notMem hnew j
  obtain ⟨t, d, hc⟩ := createPartitions_ok crc hx hstart numPartitions.toInt.toNat 0
    tm.dataDir hfree
  have hlen := createPartitions_dirs crc tm initialLeader (x := x)
    (fun j left => by simp [hx j]) numPartitions.toInt.toNat 0 tm.dataDir hfree
  rw [hc] at hlen
  refine ⟨t, d, hlen.1, ?_⟩
  have hgt : ¬ numPartitions ≤ 0 := by
    rw [Int64.le_iff_toInt_le]
    simpa using hpos
  unfold TopicManager.createTopic
  simp only [hv, if_neg hgt, if_neg hnew, hc]

/-! ## Recovering -/

theorem foldl_maxID (dirs : List PartitionEntry) : ∀ m : Nat,
    m ≤ dirs.foldl (fun m d => if m < d.id then d.id else m) m ∧
    (∀ d ∈ dirs, d.id ≤ dirs.foldl (fun m d => if m < d.id then d.id else m) m) ∧
    (dirs.foldl (fun m d => if m < d.id then d.id else m) m = m ∨
      ∃ d ∈ dirs, dirs.foldl (fun m d => if m < d.id then d.id else m) m = d.id) := by
  induction dirs with
  | nil => exact fun m => ⟨Nat.le_refl m, fun d hd => absurd hd List.not_mem_nil, .inl rfl⟩
  | cons d dirs ih =>
    intro m
    obtain ⟨hge, hall, hmem⟩ := ih (if m < d.id then d.id else m)
    have hstep : m ≤ (if m < d.id then d.id else m) ∧ d.id ≤ if m < d.id then d.id else m := by
      split <;> omega
    refine ⟨hstep.1.trans hge, fun c hc => ?_, ?_⟩
    · rcases List.mem_cons.mp hc with rfl | hc
      · exact hstep.2.trans hge
      · exact hall c hc
    · rcases hmem with he | ⟨c, hc, he⟩
      · by_cases hlt : m < d.id
        · exact .inr ⟨d, List.mem_cons_self, he.trans (if_pos hlt)⟩
        · exact .inl (he.trans (if_neg hlt))
      · exact .inr ⟨c, List.mem_cons_of_mem d hc, he⟩

theorem maxID_eq {dirs : List PartitionEntry} {n : Nat} (hn : 0 < n)
    (h : ∀ i, (∃ d ∈ dirs, d.id = i) ↔ i < n) : maxID dirs = n - 1 := by
  obtain ⟨-, hall, hmem⟩ := foldl_maxID dirs 0
  obtain ⟨d, hd, hid⟩ := (h (n - 1)).mpr (by omega)
  have hge : n - 1 ≤ maxID dirs := hid ▸ hall d hd
  rcases hmem with he | ⟨c, hc, he⟩
  · have : maxID dirs = 0 := he
    omega
  · have hlt := (h c.id).mp ⟨c, hc, rfl⟩
    have : maxID dirs = c.id := he
    omega

section Recover

variable {crc : Checksum} {tm : TopicManager} {x : String → OpenFaults}

theorem fillTable_cons (crc : Checksum) (tm : TopicManager) (x : String → OpenFaults)
    (t : Topic) (d : PartitionEntry) (dirs : List PartitionEntry) :
    ∃ t', tm.fillTable crc x t (d :: dirs) = tm.fillTable crc x t' dirs ∧
      t'.length = t.length ∧
      ((tm.recoverPartition crc x d = none ∧ t' = t) ∨
        ∃ p, tm.recoverPartition crc x d = some p ∧ t' = t.set d.id (some p)) := by
  unfold fillTable
  rw [List.foldl_cons]
  cases hp : tm.recoverPartition crc x d with
  | none => exact ⟨t, rfl, rfl, .inl ⟨rfl, rfl⟩⟩
  | some p => exact ⟨_, rfl, List.length_set, .inr ⟨p, rfl, rfl⟩⟩

theorem length_fillTable (dirs : List PartitionEntry) :
    ∀ t : Topic, (tm.fillTable crc x t dirs).length = t.length := by
  induction dirs with
  | nil => exact fun _ => rfl
  | cons d dirs ih =>
    intro t
    obtain ⟨t', he, hlen, -⟩ := tm.fillTable_cons crc x t d dirs
    rw [he, ih, hlen]

/-- What stands in the table was there before or comes from a directory. -/
theorem fillTable_origin {i : Nat} {p : LocalPartition} {dirs : List PartitionEntry} :
    ∀ {t : Topic}, (tm.fillTable crc x t dirs)[i]? = some (some p) →
      t[i]? = some (some p) ∨ ∃ d ∈ dirs, d.id = i ∧ tm.recoverPartition crc x d = some p := by
  induction dirs with
  | nil => exact fun h => .inl h
  | cons d dirs ih =>
    intro t h
    obtain ⟨t', he, -, hcase⟩ := tm.fillTable_cons crc x t d dirs
    rw [he] at h
    rcases ih h with h | ⟨c, hc, hid, hp⟩
    · rcases hcase with ⟨-, rfl⟩ | ⟨q, hq, rfl⟩
      · exact .inl h
      · rw [List.getElem?_set] at h
        split at h
        · rename_i hid
          split at h
          · cases h
            exact .inr ⟨d, List.mem_cons_self, hid, hq⟩
          · cases h
        · exact .inl h
    · exact .inr ⟨c, List.mem_cons_of_mem d hc, hid, hp⟩

/-- A partition stays in the table once it is there. -/
theorem fillTable_keeps {i : Nat} {dirs : List PartitionEntry} :
    ∀ {t : Topic}, (∃ p, t[i]? = some (some p)) →
      ∃ p, (tm.fillTable crc x t dirs)[i]? = some (some p) := by
  induction dirs with
  | nil => exact fun h => h
  | cons d dirs ih =>
    rintro t ⟨p, hp⟩
    obtain ⟨t', he, hlen, hcase⟩ := tm.fillTable_cons crc x t d dirs
    rw [he]
    refine ih ?_
    rcases hcase with ⟨-, rfl⟩ | ⟨q, -, rfl⟩
    · exact ⟨p, hp⟩
    · have hi : i < t.length := (List.getElem?_eq_some_iff.mp hp).1
      rw [List.getElem?_set]
      split
      · rw [if_pos (by omega)]
        exact ⟨q, rfl⟩
      · exact ⟨p, hp⟩

theorem fillTable_online {i : Nat} {dirs : List PartitionEntry} {d : PartitionEntry}
    (hd : d ∈ dirs) (hid : d.id = i) {p : LocalPartition}
    (hp : tm.recoverPartition crc x d = some p) : ∀ {t : Topic}, i < t.length →
      ∃ p, (tm.fillTable crc x t dirs)[i]? = some (some p) := by
  induction dirs with
  | nil => exact absurd hd List.not_mem_nil
  | cons c dirs ih =>
    intro t hi
    obtain ⟨t', he, hlen, hcase⟩ := tm.fillTable_cons crc x t c dirs
    rw [he]
    rcases List.mem_cons.mp hd with rfl | hd
    · rcases hcase with ⟨hnone, -⟩ | ⟨q, -, rfl⟩
      · rw [hp] at hnone
        cases hnone
      · refine fillTable_keeps ⟨q, ?_⟩
        rw [List.getElem?_set, if_pos hid, if_pos (by omega)]
    · exact ih hd (by omega)

/-- The directories that the recovery takes for a topic. -/
def topicDirs (tm : TopicManager) (name : String) : List PartitionEntry :=
  Maps.valuesOf (tm.dataDir.toList.filterMap recoverEntry) name

theorem lookup_recoverFromDisk (name : String) :
    (tm.recoverFromDisk crc x).topics[name]? =
      if tm.topicDirs name = [] then none else tm.recoverTopic crc x (tm.topicDirs name) := by
  have hg : tm.byTopic[name]? =
      if tm.topicDirs name = [] then none else some (tm.topicDirs name) :=
    Maps.lookup_group _ _
  unfold recoverFromDisk
  rw [ExtTreeMap.getElem?_filterMap, Option.pbind_eq_bind, hg]
  split <;> rfl

theorem mem_topicDirs {name : String} {d : PartitionEntry} :
    d ∈ tm.topicDirs name ↔
      (∃ content, tm.dataDir[d.dir]? = some (.dir content)) ∧
        parseDir d.dir = some (name, d.id) := by
  rw [topicDirs, Maps.mem_valuesOf, List.mem_filterMap]
  constructor
  · rintro ⟨⟨dir, e⟩, hmem, he⟩
    have hlook := ExtTreeMap.mem_toList_iff_getElem?_eq_some.mp hmem
    unfold recoverEntry at he
    rcases e with _ | content
    · cases he
    · obtain ⟨⟨topic, id⟩, hparse, he⟩ := Option.map_eq_some_iff.mp he
      cases he
      exact ⟨⟨content, hlook⟩, hparse⟩
  · rintro ⟨⟨content, hlook⟩, hparse⟩
    refine ⟨(d.dir, .dir content), ExtTreeMap.mem_toList_iff_getElem?_eq_some.mpr hlook, ?_⟩
    simp [recoverEntry, hparse]

/-- In step with the disk, a topic has its partitions' directories and no others. -/
theorem InStep.mem_topicDirs (h : tm.InStep) {name : String} {d : PartitionEntry} :
    d ∈ tm.topicDirs name ↔ d.dir = partitionDir name d.id ∧
      ∃ t, tm.topics[name]? = some t ∧ d.id < t.length := by
  rw [TopicManager.mem_topicDirs]
  constructor
  · rintro ⟨⟨content, hlook⟩, hparse⟩
    obtain ⟨name', t, i, ht, hi, he⟩ := (h.dirs d.dir).mp
      (ExtTreeMap.mem_iff_isSome_getElem?.mpr (by rw [hlook]; rfl))
    obtain ⟨hv, -, hbound⟩ := h.topic name' t ht
    rw [he, parseDir_partitionDir hv (by omega), Option.some.injEq, Prod.mk.injEq] at hparse
    obtain ⟨rfl, rfl⟩ := hparse
    exact ⟨he, t, ht, hi⟩
  · rintro ⟨he, t, ht, hi⟩
    obtain ⟨hv, -, hbound⟩ := h.topic name t ht
    refine ⟨?_, by rw [he, parseDir_partitionDir hv (by omega)]⟩
    have hmem := (h.dirs d.dir).mpr ⟨name, t, d.id, ht, hi, he⟩
    obtain ⟨e, hlook⟩ := Option.isSome_iff_exists.mp (ExtTreeMap.mem_iff_isSome_getElem?.mp hmem)
    rcases e with _ | content
    · exact absurd hlook (h.onlyDirs _)
    · exact ⟨content, hlook⟩

theorem InStep.fillTable_eq (h : tm.InStep) {name : String} {t : Topic}
    (ht : tm.topics[name]? = some t) :
    tm.fillTable crc x (List.replicate t.length none) (tm.topicDirs name) =
      (List.range t.length).map fun i => tm.recoverPartition crc x ⟨i, partitionDir name i⟩ := by
  refine List.ext_getElem? fun i => ?_
  rw [List.getElem?_map]
  rcases Nat.lt_or_ge i t.length with hi | hi
  · rw [List.getElem?_range hi, Option.map_some]
    -- only the directory of the partition itself has its number
    have horigin : ∀ p, (tm.fillTable crc x (List.replicate t.length none)
        (tm.topicDirs name))[i]? = some (some p) →
        tm.recoverPartition crc x ⟨i, partitionDir name i⟩ = some p := by
      intro p hp
      rcases fillTable_origin hp with hr | ⟨d, hd, hid, hp⟩
      · simp [List.getElem?_replicate] at hr
      · have hdir := (h.mem_topicDirs.mp hd).1
        have he : d = ⟨i, partitionDir name i⟩ := by
          cases d
          simp only at hid hdir
          rw [hdir, hid]
        rwa [he] at hp
    cases hp : tm.recoverPartition crc x ⟨i, partitionDir name i⟩ with
    | none =>
      have hlt : i < (tm.fillTable crc x (List.replicate t.length none)
          (tm.topicDirs name)).length := by
        rw [length_fillTable, List.length_replicate]
        exact hi
      rw [List.getElem?_eq_getElem hlt]
      congr 1
      by_contra hsome
      obtain ⟨q, hq⟩ := Option.ne_none_iff_exists'.mp hsome
      have := horigin q (by rw [List.getElem?_eq_getElem hlt, hq])
      rw [hp] at this
      cases this
    | some p =>
      obtain ⟨q, hq⟩ := fillTable_online (h.mem_topicDirs.mpr ⟨rfl, t, ht, hi⟩) rfl hp
        (t := List.replicate t.length none) (by rwa [List.length_replicate])
      have := horigin q hq
      rw [hp] at this
      rw [hq, ← this]
  · rw [List.getElem?_eq_none (by rwa [length_fillTable, List.length_replicate]),
      List.getElem?_eq_none (by rwa [List.length_range]), Option.map_none]

/-- What the recovery makes of a manager that is in step with its disk: the same
topics, but for those with more than 10000 partitions. -/
theorem InStep.lookup_recoverFromDisk (h : tm.InStep) (crc : Checksum) (x : String → OpenFaults)
    (name : String) :
    (tm.recoverFromDisk crc x).topics[name]? =
      match tm.topics[name]? with
      | none => none
      | some t =>
        if 10000 < t.length then none
        else some ((List.range t.length).map fun i =>
          tm.recoverPartition crc x ⟨i, partitionDir name i⟩) := by
  rw [TopicManager.lookup_recoverFromDisk]
  cases ht : tm.topics[name]? with
  | none =>
    rw [if_pos]
    refine List.eq_nil_iff_forall_not_mem.mpr fun d hd => ?_
    obtain ⟨-, t, ht', -⟩ := h.mem_topicDirs.mp hd
    rw [ht] at ht'
    cases ht'
  | some t =>
    obtain ⟨-, hpos, -⟩ := h.topic name t ht
    have hids : ∀ i, (∃ d ∈ tm.topicDirs name, d.id = i) ↔ i < t.length := by
      intro i
      constructor
      · rintro ⟨d, hd, rfl⟩
        obtain ⟨-, t', ht', hlt⟩ := h.mem_topicDirs.mp hd
        rw [ht] at ht'
        cases ht'
        exact hlt
      · exact fun hi => ⟨⟨i, partitionDir name i⟩, h.mem_topicDirs.mpr ⟨rfl, t, ht, hi⟩, rfl⟩
    obtain ⟨d, hd, -⟩ := (hids 0).mpr hpos
    rw [if_neg (List.ne_nil_of_mem hd), recoverTopic, maxID_eq hpos hids]
    simp only [Nat.sub_add_cancel hpos, h.fillTable_eq ht]
    by_cases hbig : 10000 < t.length
    · rw [if_pos hbig, if_pos (by omega)]
    · rw [if_neg hbig, if_neg (by omega)]

end Recover

/-! ## Runs of creations -/

structure CreateCall where
  name : String
  numPartitions : Int64
  initialLeader : Bool
  /-- what fails at each partition -/
  io : Nat → OpenFaults

def create (crc : Checksum) (tm : TopicManager) (c : CreateCall) :
    Except CreateError Unit × TopicManager :=
  tm.createTopic crc c.name c.numPartitions c.initialLeader c.io

/-- The topic and its number of partitions, if the creation succeeds. -/
def created (crc : Checksum) (tm : TopicManager) (c : CreateCall) : Option (String × Nat) :=
  match (tm.create crc c).1 with
  | .error _ => none
  | .ok () => some (c.name, c.numPartitions.toInt.toNat)

section Runs

variable {crc : Checksum} {tm : TopicManager}

/-- An empty data directory has no topics. -/
theorem lookup_new (crc : Checksum) (localBrokerID : Int32) (config : LogConfig)
    (x : String → OpenFaults) (name : String) :
    (newTopicManager crc ∅ localBrokerID config x).topics[name]? = none := by
  unfold newTopicManager
  rw [TopicManager.lookup_recoverFromDisk]
  exact if_pos rfl

theorem inStep_new (crc : Checksum) (localBrokerID : Int32) (config : LogConfig)
    (x : String → OpenFaults) : (newTopicManager crc ∅ localBrokerID config x).InStep := by
  refine ⟨fun name t ht => ?_, fun dir => ?_, fun dir => ?_⟩
  · rw [lookup_new] at ht
    cases ht
  · constructor
    · exact fun hd => absurd hd ExtTreeMap.not_mem_empty
    · rintro ⟨name, t, i, ht, -⟩
      rw [lookup_new] at ht
      cases ht
  · have he : (newTopicManager crc ∅ localBrokerID config x).dataDir[dir]? = none :=
      ExtTreeMap.getElem?_empty
    rw [he]
    simp

/-- A creation adds its topic and no other. -/
theorem partitionCount_create (h : tm.InStep) {c : CreateCall} (hc : ∀ i, (c.io i).Clean)
    (name : String) (n : Nat) : (tm.create crc c).2.partitionCount name = some n ↔
      tm.partitionCount name = some n ∨ tm.created crc c = some (name, n) := by
  unfold create created create
  rcases createTopic_cases crc tm c.name c.numPartitions c.initialLeader c.io with
    ⟨e, he⟩ | ⟨hv, hpos, hnew, r, d, hp, ⟨e, rfl, he⟩ | ⟨t, rfl, he⟩⟩
  · simp [he]
  · simp [he, partitionCount]
  have hlen := createPartitions_dirs crc tm c.initialLeader hc
    c.numPartitions.toInt.toNat 0 tm.dataDir fun j _ => h.notMem hnew j
  rw [hp] at hlen
  simp only [he, partitionCount, Maps.lookup_insert, Option.some.injEq, Prod.mk.injEq]
  by_cases hname : c.name = name
  · subst hname
    have hnone : tm.topics[c.name]? = none := ExtTreeMap.getElem?_eq_none hnew
    simp [hnone, hlen.1]
  · simp [hname]

/-- A manager that is in step with its disk and whose topics are those created. -/
structure Holds (tm : TopicManager) (topics : List (String × Nat)) : Prop where
  inStep : tm.InStep
  count : ∀ name n, tm.partitionCount name = some n ↔ (name, n) ∈ topics
  small : ∀ e ∈ topics, e.2 ≤ 10000

theorem holds_new (crc : Checksum) (localBrokerID : Int32) (config : LogConfig)
    (x : String → OpenFaults) : (newTopicManager crc ∅ localBrokerID config x).Holds [] := by
  refine ⟨inStep_new crc localBrokerID config x, fun name n => ?_, fun e he => ?_⟩
  · simp [partitionCount, lookup_new]
  · exact absurd he List.not_mem_nil

theorem Holds.create {topics : List (String × Nat)} (h : tm.Holds topics) {c : CreateCall}
    (hc : c.numPartitions ≤ 10000 ∧ ∀ i, (c.io i).Clean) :
    (tm.create crc c).2.Holds (topics ++ (tm.created crc c).toList) := by
  refine ⟨h.inStep.createTopic crc c.name c.numPartitions c.initialLeader hc.2, fun name n => ?_,
    fun e he => ?_⟩
  · rw [partitionCount_create h.inStep hc.2, h.count, List.mem_append, Option.mem_toList]
  · rw [List.mem_append, Option.mem_toList] at he
    rcases he with he | he
    · exact h.small e he
    · unfold created at he
      split at he
      · cases he
      · cases he
        have hle := Int64.le_iff_toInt_le.mp hc.1
        have : (10000 : Int64).toInt = 10000 := by decide
        omega

end Runs

end TopicManager

open TopicManager in
/-- Where no failed `NewLog` leaves a directory behind and no topic has more than
10000 partitions, a restart finds the topics whose creation succeeded, each with
all its partitions. -/
theorem restart_recovers_created_topics (crc : Checksum) (localBrokerID : Int32)
    (config config' : LogConfig) (calls : List CreateCall)
    (hcalls : ∀ c ∈ calls, c.numPartitions ≤ 10000 ∧ ∀ i, (c.io i).Clean)
    (x : String → OpenFaults) :
    let start := newTopicManager crc ∅ localBrokerID config fun _ => .none
    let dataDir := (Runs.final (create crc) start calls).dataDir
    let restarted := newTopicManager crc dataDir localBrokerID config' x
    (∀ name n, restarted.partitionCount name = some n ↔
      (name, n) ∈ Runs.collect (create crc) (created crc) start calls) ∧
    ((∀ dir ∈ dataDir, ∃ l, (openLog crc config' dataDir dir (x dir)).1 = .ok l) →
      ∀ (name : String) (t : Topic), restarted.topics[name]? = some t →
        ∀ i < t.length, ∃ p, t[i]? = some (some p)) := by
  intro start dataDir restarted
  have hrun : (Runs.final (create crc) start calls).Holds
      ([] ++ Runs.collect (create crc) (created crc) start calls) :=
    Runs.invariant_collect_guarded (create crc)
      (G := fun _ c => c.numPartitions ≤ 10000 ∧ ∀ i, (c.io i).Clean)
      (fun _ _ _ h hc => h.create hc) (holds_new crc localBrokerID config _) calls
      (Runs.guarded_of_forall (create crc) hcalls start)
  rw [List.nil_append] at hrun
  have hstep := hrun.inStep.restart localBrokerID config'
  -- the restarted manager has the topics of the old one, partition by partition
  have hlook : ∀ name : String, restarted.topics[name]? =
      (Runs.final (create crc) start calls).topics[name]?.map fun t =>
        (List.range t.length).map fun i => TopicManager.recoverPartition crc
          ⟨localBrokerID, config', ∅, dataDir⟩ x ⟨i, partitionDir name i⟩ := by
    intro name
    refine (hstep.lookup_recoverFromDisk crc x name).trans ?_
    cases ht : (Runs.final (create crc) start calls).topics[name]? with
    | none => simp only [Option.map_none]
    | some t =>
      have hmem := (hrun.count name t.length).mp (by rw [partitionCount, ht]; rfl)
      simp only [Option.map_some, if_neg (Nat.not_lt.mpr (hrun.small _ hmem))]
      rfl
  constructor
  · intro name n
    rw [← hrun.count, partitionCount, partitionCount, hlook, Option.map_map]
    simp [Function.comp_def]
  · intro hopen name t ht i hi
    rw [hlook] at ht
    obtain ⟨told, hold, rfl⟩ := Option.map_eq_some_iff.mp ht
    rw [List.length_map, List.length_range] at hi
    have hmem : partitionDir name i ∈ dataDir :=
      (hrun.inStep.dirs _).mpr ⟨name, told, i, hold, hi, rfl⟩
    obtain ⟨l, hl⟩ := hopen _ hmem
    refine ⟨⟨partitionDir name i, newPartition localBrokerID l⟩, ?_⟩
    rw [List.getElem?_map, List.getElem?_range hi, Option.map_some]
    simp only [recoverPartition, hl]

namespace TopicManager

def sampleManager : TopicManager := newTopicManager crc32c ∅ 1 Log.tightConfig fun _ => .none

/-- Two partitions, of which the second fails at its directory, and then as many
without a failure, of a topic with a dash. -/
def sampleCalls : List CreateCall :=
  [⟨"a-0", 2, true, fun i => if i = 1 then ⟨some .mkdir, .none⟩ else .none⟩,
    ⟨"a-0", 2, true, fun _ => .none⟩]

end TopicManager

open TopicManager in
theorem restart_recovers_created_topics_sampleCalls :
    Runs.collect (create crc32c) (created crc32c) sampleManager sampleCalls = [("a-0", 2)] ∧
    (newTopicManager crc32c (Runs.final (create crc32c) sampleManager sampleCalls).dataDir 1
      Log.tightConfig fun _ => .none).partitionCount "a-0" = some 2 := by
  have hc : Runs.collect (create crc32c) (created crc32c) sampleManager sampleCalls =
      [("a-0", 2)] := by decide +kernel
  refine ⟨hc, ((restart_recovers_created_topics crc32c 1 Log.tightConfig Log.tightConfig sampleCalls
    ?_ fun _ => .none).1 "a-0" 2).mpr (hc ▸ List.mem_singleton_self _)⟩
  intro c hmem
  simp only [sampleCalls, List.mem_cons, List.not_mem_nil, or_false] at hmem
  rcases hmem with rfl | rfl
  · refine ⟨by decide, fun i left => ?_⟩
    by_cases hi : i = 1
    · simp [hi]
    · simp [hi, OpenFaults.none]
  · exact ⟨by decide, fun i left => by simp [OpenFaults.none]⟩

namespace TopicManager

/-- `NewLog` fails once the directory is there. -/
def failedTopic : Except CreateError Unit × TopicManager :=
  sampleManager.createTopic crc32c "t" 1 true fun _ => ⟨some (.files ⟨[], none⟩), .none⟩

def largeTopic : Except CreateError Unit × TopicManager :=
  sampleManager.createTopic crc32c "t" 10001 false fun _ => .none

def restarted (tm : TopicManager) : TopicManager :=
  newTopicManager crc32c tm.dataDir 1 Log.tightConfig fun _ => .none

end TopicManager

open TopicManager in
/-- A creation that fails after `NewLog` has made its directory comes back as a
topic at the restart, and a topic of 10001 partitions does not come back. -/
theorem restart_differs_from_created_topics :
    (failedTopic.1 = .error (.createLog "t" 0 .files) ∧ failedTopic.2.partitionCount "t" = none ∧
      failedTopic.2.restarted.partitionCount "t" = some 1) ∧
    (largeTopic.1 = .ok () ∧ largeTopic.2.partitionCount "t" = some 10001 ∧
      largeTopic.2.restarted.partitionCount "t" = none) := by
  refine ⟨by decide +kernel, ?_⟩
  have hclean : ∀ i : Nat, ((fun _ => .none : Nat → OpenFaults) i).Clean := fun i left => by
    simp [OpenFaults.none]
  have hnew : "t" ∉ sampleManager.topics := by decide +kernel
  have hstart : sampleManager.InStep := inStep_new crc32c 1 Log.tightConfig _
  have hstep := hstart.createTopic crc32c "t" 10001 false hclean
  obtain ⟨t, d, hlen, he⟩ := hstart.createTopic_ok crc32c (by decide +kernel) hnew
    (show 0 < (10001 : Int64).toInt by decide) false (x := fun _ => .none) (fun _ => rfl)
    fun _ => rfl
  have hlook := hstep.lookup_recoverFromDisk crc32c (fun _ => .none) "t"
  have hcount : t.length = 10001 := hlen
  unfold largeTopic restarted
  rw [he] at hlook ⊢
  simp only [ExtTreeMap.getElem?_insert_self, hcount] at hlook
  refine ⟨rfl, ?_, ?_⟩
  · simp [partitionCount, hcount]
  · exact Option.map_eq_none_iff.mpr (hlook.trans (if_pos (by decide)))

end MessageBroker.Broker
