import MessageBroker.Broker.Roles

/-!
# One failing partition among the assignments

`Reconcile` goes through the assignments in order and returns at the first one
whose log does not open or whose role is refused. Whether a partition fails
depends on its own slot and directory alone, so the outcome can be told from the
state before the call: the partitions in front of the first failing one get
their roles, and those behind it keep whatever role they had.
-/
namespace MessageBroker.Broker

open Std Lib Storage
open Controller (PartitionMetadata Listing)

namespace Partition

/-- The assigned role, whatever the in-sync set. -/
structure HoldsRole (brokerID : Int32) (pm : PartitionMetadata) (p : Partition) : Prop where
  leaderID : p.leaderID = pm.leaderBrokerId
  leaderEpoch : p.leaderEpoch = pm.leaderEpoch
  isLeader : p.isLeader = true ↔ pm.leaderBrokerId = brokerID

theorem Matches.holdsRole {brokerID : Int32} {pm : PartitionMetadata} {p : Partition}
    (h : p.Matches brokerID pm) : p.HoldsRole brokerID pm :=
  ⟨h.leaderID, h.leaderEpoch, h.isLeader⟩

/-- `UpdateLeaderISR` or `MakeLeader`, whichever `Reconcile` calls, fails. -/
def refusesRole (brokerID : Int32) (pm : PartitionMetadata) (p : Partition) (io : Faults) : Bool :=
  decide (pm.leaderBrokerId = brokerID) &&
    if p.isLeader ∧ p.leaderID = brokerID ∧ p.leaderEpoch = pm.leaderEpoch then
      decide (p.isrSnapshot ≠ pm.isr) && !(p.updateLeaderISR pm.leaderEpoch pm.isr).1.isOk
    else !(p.makeLeader pm.leaderEpoch pm.isr p.highWatermark io).1.isOk

end Partition

namespace TopicManager

/-- The log of the partition cannot be opened, or its role is refused. -/
def fails (crc : Checksum) (brokerID : Int32) (x : String → OpenFaults) (tm : TopicManager)
    (pm : PartitionMetadata) : Bool :=
  let dir := partitionDir pm.topic pm.partition.toInt.toNat
  match tm.slot pm.topic pm.partition.toInt.toNat with
  | some p => p.partition.refusesRole brokerID pm (x dir).io
  | none =>
    match (openLog crc tm.logConfig tm.dataDir dir (x dir)).1 with
    | .error _ => true
    | .ok l => (newPartition brokerID l).refusesRole brokerID pm (x dir).io

/-! ## What one assignment leaves alone -/

/-- Everything but one slot and its directory is as before. -/
structure Elsewhere (topic : String) (i : Nat) (before tm : TopicManager) : Prop where
  config : tm.logConfig = before.logConfig
  slot : ∀ (name : String) (j : Nat), (name = topic → j ≠ i) → tm.slot name j = before.slot name j
  dir : ∀ (name : String) (j : Nat), (name = topic → j ≠ i) →
    tm.dataDir[partitionDir name j]? = before.dataDir[partitionDir name j]?

theorem Elsewhere.refl (topic : String) (i : Nat) (tm : TopicManager) : Elsewhere topic i tm tm :=
  ⟨rfl, fun _ _ _ => rfl, fun _ _ _ => rfl⟩

theorem Elsewhere.trans {topic : String} {i : Nat} {tm₁ tm₂ tm₃ : TopicManager}
    (h : Elsewhere topic i tm₁ tm₂) (h' : Elsewhere topic i tm₂ tm₃) : Elsewhere topic i tm₁ tm₃ :=
  ⟨h'.config.trans h.config, fun name j hne => (h'.slot name j hne).trans (h.slot name j hne),
    fun name j hne => (h'.dir name j hne).trans (h.dir name j hne)⟩

/-- No open partition lives in the directory of another one. -/
def Homed (tm : TopicManager) : Prop :=
  ∀ (topic : String) (i : Nat) (p : LocalPartition), tm.slot topic i = some p →
    ∀ (name : String) (j : Nat), partitionDir name j = p.dir → name = topic ∧ j = i

theorem partitionDir_ne {topic name : String} {i j : Nat} (hne : name = topic → j ≠ i) :
    partitionDir topic i ≠ partitionDir name j := by
  intro he
  obtain ⟨rfl, rfl⟩ := partitionDir_inj.mp he
  exact hne rfl rfl

section One

variable {crc : Checksum} {brokerID : Int32} {tm : TopicManager} {topic : String} {i : Nat}

theorem elsewhere_store {t : Topic} (ht : tm.topics[topic]? = some t) (hi : i < t.length)
    {q : LocalPartition}
    (hq : ∀ (name : String) (j : Nat), partitionDir name j = q.dir → name = topic ∧ j = i) :
    Elsewhere topic i tm (tm.store topic i q) := by
  refine ⟨rfl, fun name j hne => ?_, fun name j hne => ?_⟩
  · rw [slot_store ht hi, if_neg]
    rintro ⟨rfl, rfl⟩
    exact hne rfl rfl
  · have hdir : q.dir ≠ partitionDir name j := by
      intro he
      obtain ⟨rfl, rfl⟩ := hq name j he.symm
      exact hne rfl rfl
    exact Maps.lookup_insert_ne _ hdir _

theorem Homed.store (h : tm.Homed) {t : Topic} (ht : tm.topics[topic]? = some t)
    (hi : i < t.length) {q : LocalPartition}
    (hq : ∀ (name : String) (j : Nat), partitionDir name j = q.dir → name = topic ∧ j = i) :
    (tm.store topic i q).Homed := by
  intro name j p hp
  rw [slot_store ht hi] at hp
  split at hp
  · rename_i he
    obtain ⟨rfl, rfl⟩ := he
    cases hp
    exact hq
  · exact h name j p hp

theorem assign_elsewhere (hs : tm.Sound) (hid : tm.localBrokerID = brokerID) (hh : tm.Homed)
    {pm : PartitionMetadata} (hleader : 0 ≤ pm.leaderBrokerId) {t : Topic}
    (ht : tm.topics[pm.topic]? = some t) (hi : i < t.length) {p : LocalPartition}
    (hp : tm.slot pm.topic i = some p) (io : Faults) :
    Elsewhere pm.topic i tm (tm.assign brokerID pm i p io).2 ∧
      (tm.assign brokerID pm i p io).2.Homed := by
  obtain ⟨r, tm', ha, ⟨rfl, -, -⟩ | ⟨q, rfl, -, -, -⟩⟩ := assign_cases tm hleader i
    (hid ▸ hs.role pm.topic i p hp) io
  · rw [ha]
    exact ⟨.refl _ _ _, hh⟩
  · rw [ha]
    exact ⟨elsewhere_store ht hi (hh pm.topic i p hp), hh.store ht hi (hh pm.topic i p hp)⟩

theorem assign_isOk (tm : TopicManager) (pm : PartitionMetadata) (i : Nat) (p : LocalPartition)
    (io : Faults) :
    (tm.assign brokerID pm i p io).1.isOk = !p.partition.refusesRole brokerID pm io := by
  unfold assign Partition.refusesRole
  by_cases hl : pm.leaderBrokerId = brokerID
  · rw [if_pos hl, decide_eq_true hl, Bool.true_and]
    by_cases hsame : p.partition.isLeader = true ∧ p.partition.leaderID = brokerID ∧
        p.partition.leaderEpoch = pm.leaderEpoch
    · rw [if_pos hsame, if_pos hsame]
      by_cases hisr : p.partition.isrSnapshot = pm.isr
      · rw [if_pos hisr, decide_eq_false (not_not.mpr hisr)]
        rfl
      · rw [if_neg hisr, decide_eq_true hisr, Bool.true_and, Bool.not_not]
        rcases p.partition.updateLeaderISR pm.leaderEpoch pm.isr with ⟨e | ⟨⟩, q⟩ <;> rfl
    · rw [if_neg hsame, if_neg hsame, Bool.not_not]
      rcases p.partition.makeLeader pm.leaderEpoch pm.isr p.partition.highWatermark io with
        ⟨e | ⟨⟩, q⟩ <;> rfl
  · rw [if_neg hl, decide_eq_false hl, Bool.false_and]
    split <;> rfl

/-- Opening a log touches its own directory only. -/
theorem openLog_other (crc : Checksum) (config : LogConfig) (d : DataDir) {dir other : String}
    (hne : dir ≠ other) (x : OpenFaults) : (openLog crc config d dir x).2[other]? = d[other]? := by
  unfold openLog
  split
  · rfl
  · rfl
  · exact Maps.lookup_insert_ne d hne _
  · split
    · exact Maps.lookup_insert_ne d hne _
    · exact Maps.lookup_insert_ne d hne _

theorem openLog_congr (config : LogConfig) {d d' : DataDir} {dir : String} (h : d[dir]? = d'[dir]?)
    (x : OpenFaults) : (openLog crc config d dir x).1 = (openLog crc config d' dir x).1 := by
  have hc : d.content dir = d'.content dir := by
    unfold DataDir.content
    rw [h]
  unfold openLog
  rw [hc]
  rcases x.fault with _ | _ | left
  · cases d'.content dir with
    | none => rfl
    | some content =>
      simp only
      cases newLog crc config content.files content.checkpoint x.io <;> rfl
  · rfl
  · cases d'.content dir <;> rfl

/-- Whether a partition fails depends on its own slot and directory. -/
theorem Elsewhere.fails {tm' : TopicManager} (h : Elsewhere topic i tm tm')
    {pm : PartitionMetadata} (hne : pm.topic = topic → pm.partition.toInt.toNat ≠ i)
    (x : String → OpenFaults) : tm'.fails crc brokerID x pm = tm.fails crc brokerID x pm := by
  unfold TopicManager.fails
  simp only [h.slot _ _ hne, h.config, openLog_congr tm.logConfig (h.dir _ _ hne)]

theorem reconcileSlot_elsewhere (crc : Checksum) (hs : tm.Sound)
    (hid : tm.localBrokerID = brokerID) (hh : tm.Homed) {pm : PartitionMetadata}
    (hleader : 0 ≤ pm.leaderBrokerId) {t : Topic} (ht : tm.topics[pm.topic]? = some t)
    (hi : pm.partition.toInt.toNat < t.length) (x : String → OpenFaults) :
    ∃ r tm', reconcileSlot crc brokerID tm pm pm.partition.toInt.toNat
        (x (partitionDir pm.topic pm.partition.toInt.toNat)) = (r, tm') ∧
      Elsewhere pm.topic pm.partition.toInt.toNat tm tm' ∧ tm'.Homed ∧
      r.isOk = !tm.fails crc brokerID x pm := by
  generalize hk : pm.partition.toInt.toNat = k at *
  unfold reconcileSlot TopicManager.fails
  simp only [hk]
  cases hp : tm.slot pm.topic k with
  | some p =>
    obtain ⟨he, hh'⟩ := assign_elsewhere hs hid hh hleader ht hi hp (x (partitionDir pm.topic k)).io
    exact ⟨_, _, Prod.mk.eta.symm, he, hh', assign_isOk tm pm k p _⟩
  | none =>
    simp only
    have hdir : ∀ name j, partitionDir name j = partitionDir pm.topic k →
        name = pm.topic ∧ j = k := fun name j => partitionDir_inj.mp
    have hother := fun (other : String) (hne : partitionDir pm.topic k ≠ other) =>
      openLog_other crc tm.logConfig tm.dataDir hne (x (partitionDir pm.topic k))
    rcases hopen : openLog crc tm.logConfig tm.dataDir (partitionDir pm.topic k)
      (x (partitionDir pm.topic k)) with ⟨e | l, d⟩
    all_goals simp only [hopen] at hother
    · exact ⟨_, _, rfl, ⟨rfl, fun _ _ _ => rfl, fun name j hne => hother _ (partitionDir_ne hne)⟩,
        hh, rfl⟩
    · -- the new partition takes its slot before it gets its role
      simp only
      generalize hq : (⟨partitionDir pm.topic k, newPartition brokerID l⟩ : LocalPartition) = q
      have hqdir : ∀ name j, partitionDir name j = q.dir → name = pm.topic ∧ j = k := hq ▸ hdir
      have hopened : Elsewhere pm.topic k tm { tm with dataDir := d } :=
        ⟨rfl, fun _ _ _ => rfl, fun name j hne => hother _ (partitionDir_ne hne)⟩
      have ht₁ : ({ tm with dataDir := d } : TopicManager).topics[pm.topic]? = some t := ht
      have hstored : Elsewhere pm.topic k { tm with dataDir := d }
          (TopicManager.store { tm with dataDir := d } pm.topic k q) := elsewhere_store ht₁ hi hqdir
      have hh₁ : Homed { tm with dataDir := d } := hh
      have hs₁ : Sound { tm with dataDir := d } := ⟨hs.length, hs.role⟩
      have hrole : q.partition.RoleOf tm.localBrokerID := by
        rw [← hq, hid]
        exact Partition.roleOf_new brokerID l
      have hslot : (TopicManager.store { tm with dataDir := d } pm.topic k q).slot pm.topic k =
          some q := (slot_store ht hi q pm.topic k).trans (if_pos ⟨rfl, rfl⟩)
      obtain ⟨he, hh'⟩ := assign_elsewhere (hs₁.store pm.topic k hrole) hid
        (hh₁.store ht hi hqdir) hleader (ExtTreeMap.getElem?_insert_self)
        (by rw [ht]; simpa using hi) hslot (x (partitionDir pm.topic k)).io
      refine ⟨_, _, Prod.mk.eta.symm, (hopened.trans hstored).trans he, hh', ?_⟩
      rw [assign_isOk, ← hq]

/-- One assignment changes its own slot and directory only, and unless the
partition number is out of range it goes through exactly if the partition does
not fail. -/
theorem reconcileOne_elsewhere (crc : Checksum) (hs : tm.Sound)
    (hid : tm.localBrokerID = brokerID) (hh : tm.Homed) {pm : PartitionMetadata}
    (hleader : 0 ≤ pm.leaderBrokerId) (x : String → OpenFaults) :
    ∃ r tm', reconcileOne crc brokerID x tm pm = (r, tm') ∧
      Elsewhere pm.topic pm.partition.toInt.toNat tm tm' ∧ tm'.Homed ∧
      (r = .error (.panics pm.topic pm.partition) ∨ r.isOk = !tm.fails crc brokerID x pm) := by
  unfold reconcileOne
  cases hg : growTable (tm.topics[pm.topic]?.getD []) pm.partition with
  | none => exact ⟨_, tm, rfl, .refl _ _ _, hh, .inl rfl⟩
  | some t =>
    have hlen := (growTable_some hg).1
    simp only
    have hgrown : Elsewhere pm.topic pm.partition.toInt.toNat tm
        { tm with topics := tm.topics.insert pm.topic t } :=
      ⟨rfl, fun name j _ => slot_grow hg name j, fun _ _ _ => rfl⟩
    have hh₁ : Homed { tm with topics := tm.topics.insert pm.topic t } := by
      intro name j p hp
      exact hh name j p (slot_grow hg name j ▸ hp)
    have hfails : fails crc brokerID x { tm with topics := tm.topics.insert pm.topic t } pm =
        tm.fails crc brokerID x pm := by
      unfold TopicManager.fails
      rw [slot_grow hg]
    split
    · exact ⟨_, _, rfl, hgrown, hh₁, .inl rfl⟩
    rename_i hneg
    have hi : pm.partition.toInt.toNat < t.length := by
      have := Int32.le_iff_toInt_le.mp (Int32.not_lt.mp hneg)
      have hzero : (0 : Int32).toInt = 0 := rfl
      omega
    obtain ⟨r, tm', ha, he, hh', hok⟩ := reconcileSlot_elsewhere crc (hs.grow hg) hid hh₁
      hleader (ExtTreeMap.getElem?_insert_self) hi x
    exact ⟨r, tm', ha, hgrown.trans he, hh', .inr (hfails ▸ hok)⟩

end One

/-! ## The whole loop -/

section Whole

variable {crc : Checksum} {brokerID : Int32} {tm : TopicManager} {pms : List PartitionMetadata}

/-- The partition has its role in the manager. -/
def InRole (brokerID : Int32) (tm : TopicManager) (pm : PartitionMetadata) : Prop :=
  ∃ p, tm.slot pm.topic pm.partition.toInt.toNat = some p ∧ p.partition.HoldsRole brokerID pm

/-- What the loop over the assignments comes to: all roles are taken, or it stops
at a failing partition with those behind it as they were, or it panics. -/
def Outcome (crc : Checksum) (brokerID : Int32) (x : String → OpenFaults) (tm : TopicManager)
    (pms : List PartitionMetadata) (r : Except AssignError Unit) (tm' : TopicManager) : Prop :=
  (∃ topic partition, r = .error (.panics topic partition)) ∨
  (∀ pm ∈ pms, tm.fails crc brokerID x pm = false ∧ tm'.InRole brokerID pm) ∨
  ∃ pre bad post, pms = pre ++ bad :: post ∧
    (∀ pm ∈ pre, tm.fails crc brokerID x pm = false ∧ tm'.InRole brokerID pm) ∧
    tm.fails crc brokerID x bad = true ∧
    ∀ pm ∈ post, tm'.slot pm.topic pm.partition.toInt.toNat =
      tm.slot pm.topic pm.partition.toInt.toNat

theorem reconcileAll_outcome (crc : Checksum) (x : String → OpenFaults) :
    ∀ {tm : TopicManager}, tm.Sound → tm.localBrokerID = brokerID → tm.Homed → Listing pms →
    ∃ r tm', reconcileAll crc brokerID x tm pms = (r, tm') ∧ tm'.Homed ∧
      Outcome crc brokerID x tm pms r tm' ∧
      ∀ (topic : String) (i : Nat),
        (∀ pm ∈ pms, topic = pm.topic → i ≠ pm.partition.toInt.toNat) →
        tm'.slot topic i = tm.slot topic i := by
  induction pms with
  | nil =>
    intro tm _ _ hh _
    exact ⟨_, tm, rfl, hh, .inr (.inl fun pm hpm => absurd hpm List.not_mem_nil), fun _ _ _ => rfl⟩
  | cons pm pms ih =>
    intro tm hs hid hh hlist
    have hleader := hlist.leader_nonneg pm List.mem_cons_self
    obtain ⟨r, tm₁, ho, he, hh₁, hcase⟩ := reconcileOne_elsewhere crc hs hid hh hleader x
    obtain ⟨r', tm₁', ho', hs₁, hid₁, hadopt⟩ := reconcileOne_spec crc hs hid hleader x
    obtain ⟨rfl, rfl⟩ := Prod.mk.inj (ho.symm.trans ho')
    have hbehind : ∀ q ∈ pms, tm₁.slot q.topic q.partition.toInt.toNat =
        tm.slot q.topic q.partition.toInt.toNat := by
      intro q hq
      exact he.slot _ _ fun htopic hi => hlist.head_ne hq htopic.symm hi.symm
    rw [reconcileAll, ho]
    rcases r with e | ⟨⟩
    · refine ⟨_, tm₁, rfl, hh₁, ?_, fun topic i hne => he.slot topic i (hne pm List.mem_cons_self)⟩
      rcases hcase with hpanic | hok
      · exact .inl ⟨_, _, hpanic⟩
      · refine .inr (.inr ⟨[], pm, pms, rfl, fun q hq => absurd hq List.not_mem_nil, ?_, hbehind⟩)
        exact (Bool.not_eq_false _).mp fun hf => by rw [hf] at hok; cases hok
    have hfine : tm.fails crc brokerID x pm = false := by
      rcases hcase with hpanic | hok
      · cases hpanic
      · exact (Bool.not_eq_true _).mp fun hf => by rw [hf] at hok; cases hok
    obtain ⟨r, tm', ha, hh', hout, hframe⟩ := ih hs₁ hid₁ hh₁ hlist.tail
    have hfails : ∀ q ∈ pms, tm₁.fails crc brokerID x q = tm.fails crc brokerID x q := by
      intro q hq
      exact he.fails (fun htopic hi => hlist.head_ne hq htopic.symm hi.symm) x
    have hself : tm'.InRole brokerID pm := by
      obtain ⟨p, hp, hm⟩ := (hadopt rfl).role
      refine ⟨p, ?_, hm.holdsRole⟩
      rw [hframe _ _ fun q hq htopic hi => hlist.head_ne hq htopic hi, hp]
    refine ⟨r, tm', ha, hh', ?_, fun topic i hne => ?_⟩
    · rcases hout with hpanic | hall | ⟨pre, bad, post, rfl, hpre, hbad, hpost⟩
      · exact .inl hpanic
      · refine .inr (.inl (List.forall_mem_cons.mpr ⟨⟨hfine, hself⟩, fun q hq => ?_⟩))
        exact ⟨hfails q hq ▸ (hall q hq).1, (hall q hq).2⟩
      · refine .inr (.inr ⟨pm :: pre, bad, post, rfl,
          List.forall_mem_cons.mpr ⟨⟨hfine, hself⟩, fun q hq => ?_⟩, ?_, fun q hq => ?_⟩)
        · exact ⟨hfails q (by simp [hq]) ▸ (hpre q hq).1, (hpre q hq).2⟩
        · exact hfails bad (by simp) ▸ hbad
        · rw [hpost q hq, hbehind q (by simp [hq])]
    · rw [hframe topic i fun q hq => hne q (List.mem_cons_of_mem pm hq),
        he.slot topic i (hne pm List.mem_cons_self)]

theorem Homed.unassignOthers (h : tm.Homed) (pms : List PartitionMetadata) :
    (tm.unassignOthers pms).Homed := by
  intro topic i p hp
  rw [slot_unassignOthers] at hp
  obtain ⟨q, hq, rfl⟩ := Option.map_eq_some_iff.mp hp
  have hdir : (if listed pms topic i then q else unassign q).dir = q.dir := by
    unfold unassign
    split
    · rfl
    · split <;> rfl
  rw [hdir]
  exact h topic i q hq

/-- The first loop does not touch what is listed. -/
theorem slot_unassignOthers_listed (hlist : Listing pms) {pm : PartitionMetadata} (hpm : pm ∈ pms) :
    (tm.unassignOthers pms).slot pm.topic pm.partition.toInt.toNat =
      tm.slot pm.topic pm.partition.toInt.toNat := by
  have hlt : pm.partition.toInt.toNat < 2 ^ 31 := by
    have := pm.partition.toInt_lt
    omega
  rw [slot_unassignOthers, (listed_iff hlist pm.topic hlt).mpr ⟨pm, hpm, rfl, rfl⟩]
  cases tm.slot pm.topic pm.partition.toInt.toNat <;> rfl

theorem reconcile_outcome (crc : Checksum) (hs : tm.Sound) (hid : tm.localBrokerID = brokerID)
    (hh : tm.Homed) (hlist : Listing pms) (x : String → OpenFaults) :
    ∃ r tm', tm.reconcile crc brokerID pms x = (r, tm') ∧ tm'.Homed ∧
      Outcome crc brokerID x tm pms r tm' := by
  obtain ⟨r, tm', ha, hh', hout, -⟩ := reconcileAll_outcome crc x (hs.unassignOthers pms)
    hid (hh.unassignOthers pms) hlist
  have hslot : ∀ pm ∈ pms, (tm.unassignOthers pms).slot pm.topic pm.partition.toInt.toNat =
      tm.slot pm.topic pm.partition.toInt.toNat := fun pm => slot_unassignOthers_listed hlist
  have hfails : ∀ pm ∈ pms, (tm.unassignOthers pms).fails crc brokerID x pm =
      tm.fails crc brokerID x pm := by
    intro pm hpm
    unfold fails
    rw [hslot pm hpm]
    rfl
  refine ⟨r, tm', ha, hh', ?_⟩
  rcases hout with hpanic | hall | ⟨pre, bad, post, rfl, hpre, hbad, hpost⟩
  · exact .inl hpanic
  · exact .inr (.inl fun pm hpm => ⟨hfails pm hpm ▸ (hall pm hpm).1, (hall pm hpm).2⟩)
  · refine .inr (.inr ⟨pre, bad, post, rfl, fun pm hpm => ?_, ?_, fun pm hpm => ?_⟩)
    · exact ⟨hfails pm (by simp [hpm]) ▸ (hpre pm hpm).1, (hpre pm hpm).2⟩
    · exact hfails bad (by simp) ▸ hbad
    · rw [hpost pm hpm, hslot pm (by simp [hpm])]

/-- Nothing that fails stands in front of a partition that waits for its role. -/
def Unblocked (crc : Checksum) (brokerID : Int32) (x : String → OpenFaults) (tm : TopicManager)
    (pms : List PartitionMetadata) : Prop :=
  ∀ pre bad post, pms = pre ++ bad :: post → tm.fails crc brokerID x bad = true →
    ∀ pm ∈ post, tm.fails crc brokerID x pm = false → tm.InRole brokerID pm

theorem Outcome.holds_iff {x : String → OpenFaults} {r : Except AssignError Unit}
    {tm' : TopicManager} (h : Outcome crc brokerID x tm pms r tm')
    (hreturns : ∀ topic partition, r ≠ .error (.panics topic partition)) :
    (∀ pm ∈ pms, tm.fails crc brokerID x pm = false → tm'.InRole brokerID pm) ↔
      Unblocked crc brokerID x tm pms := by
  rcases h with ⟨topic, partition, hr⟩ | hall | ⟨pre, bad, post, rfl, hpre, hbad, hpost⟩
  · exact absurd hr (hreturns topic partition)
  · refine iff_of_true (fun pm hpm _ => (hall pm hpm).2) ?_
    rintro pre bad post rfl hbad
    rw [(hall bad (by simp)).1] at hbad
    cases hbad
  have hkept : ∀ pm ∈ post, tm'.InRole brokerID pm ↔ tm.InRole brokerID pm := by
    intro pm hpm
    unfold InRole
    rw [hpost pm hpm]
  constructor
  · intro hholds pre' bad' post' hsplit hbad' pm hpm hfine
    -- a failing partition is not in front of the first one, so `pm` is behind that
    have hmem : pm ∈ post := by
      rcases List.append_eq_append_iff.mp hsplit with ⟨mid, rfl, hmid⟩ | ⟨mid, rfl, hmid⟩
      · cases mid with
        | nil =>
          obtain ⟨-, rfl⟩ := List.cons.inj hmid
          exact hpm
        | cons q mid =>
          obtain ⟨-, rfl⟩ := List.cons.inj hmid
          simp [hpm]
      · cases mid with
        | nil =>
          obtain ⟨-, rfl⟩ := List.cons.inj hmid
          exact hpm
        | cons q mid =>
          obtain ⟨rfl, -⟩ := List.cons.inj hmid
          rw [(hpre bad' (by simp)).1] at hbad'
          cases hbad'
    exact (hkept pm hmem).mp (hholds pm (by simp [hmem]) hfine)
  · intro hun pm hpm hfine
    rcases List.mem_append.mp hpm with hpm | hpm
    · exact (hpre pm hpm).2
    rcases List.mem_cons.mp hpm with rfl | hpm
    · rw [hbad] at hfine
      cases hfine
    · exact (hkept pm hpm).mpr (hun pre bad post rfl hbad pm hpm hfine)

end Whole

/-! ## Over the life of a broker -/

section Life

variable {crc : Checksum} {tm : TopicManager}

theorem createPartitions_home {name : String} {initialLeader : Bool} {x : Nat → OpenFaults}
    {n : Nat} : ∀ {i : Nat} {d d' : DataDir} {t : Topic},
    createPartitions crc tm name initialLeader x n i d = (.ok t, d') →
    ∀ (j : Nat) (p : LocalPartition), t[j]? = some (some p) →
      p.dir = partitionDir name (i + j) := by
  induction n with
  | zero =>
    intro i d d' t h j p hp
    cases h
    cases hp
  | succ n ih =>
    intro i d d' t h j p hp
    rw [createPartitions] at h
    split at h
    · cases h
    split at h
    · cases h
    split at h
    · cases h
    rename_i ps d₂ hc
    cases h
    cases j with
    | zero =>
      cases hp
      rfl
    | succ j =>
      rw [List.getElem?_cons_succ] at hp
      rw [ih hc j p hp]
      congr 1
      omega

theorem Homed.createTopic (h : tm.Homed) (name : String) (x : Nat → OpenFaults) :
    (tm.createTopic crc name 1 true x).2.Homed := by
  rcases createTopic_cases crc tm name 1 true x with
    ⟨e, he⟩ | ⟨-, -, -, r, d, hc, ⟨e, rfl, he⟩ | ⟨t, rfl, he⟩⟩
  · rw [he]
    exact h
  · rw [he]
    exact h
  · rw [he]
    intro topic i p hp
    rw [slot_insert] at hp
    split at hp
    · rename_i hname
      subst hname
      have hdir := createPartitions_home hc i p (Option.join_eq_some_iff.mp hp)
      intro other j hj
      rw [hdir, Nat.zero_add] at hj
      exact partitionDir_inj.mp hj
    · exact h topic i p hp

theorem Homed.deleteTopic (h : tm.Homed) (name : String) : (tm.deleteTopic name).Homed := by
  unfold TopicManager.deleteTopic
  split
  · exact h
  · intro topic i p hp
    simp only [slot, ExtTreeMap.getElem?_erase] at hp
    split at hp
    · cases hp
    · exact h topic i p hp

theorem parseDir_home {topic name : String} {i j : Nat}
    (h : parseDir (partitionDir name j) = some (topic, i)) : name = topic ∧ j = i := by
  unfold parseDir at h
  rw [splitLast_partitionDir] at h
  simp only [String.ofList_toList] at h
  split at h
  · cases h
  split at h
  · cases h
  rename_i partID hatoi
  split at h
  · cases h
  · cases h
    refine ⟨rfl, ?_⟩
    have := Decimal.eq_of_atoi_toDigits hatoi
    omega

theorem homed_new (crc : Checksum) (dataDir : DataDir) (localBrokerID : Int32) (config : LogConfig)
    (x : String → OpenFaults) : (newTopicManager crc dataDir localBrokerID config x).Homed := by
  intro topic i p hp
  obtain ⟨t, ht, hget⟩ := slot_eq_some.mp hp
  unfold newTopicManager at ht
  rw [lookup_recoverFromDisk] at ht
  split at ht
  · cases ht
  unfold recoverTopic at ht
  split at ht
  · cases ht
  cases ht
  rcases fillTable_origin hget with hnil | ⟨d, hd, rfl, hrec⟩
  · simp [List.getElem?_replicate] at hnil
  have hparse := (mem_topicDirs.mp hd).2
  unfold recoverPartition at hrec
  split at hrec
  · cases hrec
  · cases hrec
    intro name j hj
    have hdir : partitionDir name j = d.dir := hj
    rw [← hdir] at hparse
    exact parseDir_home hparse

theorem Homed.handle (h : tm.Homed) (hs : tm.Sound) (lib : Controller.Stdlib) (e : ManagerEvent) :
    (tm.handle crc lib e).2.Homed := by
  cases e with
  | autoCreate name x => exact h.createTopic name x
  | deleteTopic name => exact h.deleteTopic name
  | operate topic index op io =>
    simp only [TopicManager.handle]
    cases hget : tm.getPartition topic index with
    | error e => exact h
    | ok p =>
      have hp := (getPartition_eq_slot.mp hget).2
      obtain ⟨t, ht, hi⟩ := slot_eq_some.mp hp
      exact h.store ht (List.getElem?_eq_some_iff.mp hi).1 (h topic _ p hp)
  | reconcile fsm x =>
    have hlist := (Controller.controller_state_invariant lib fsm).listing tm.localBrokerID
    obtain ⟨r, tm', he, hh, -⟩ := reconcile_outcome crc hs rfl h hlist x
    simp only [TopicManager.handle, he]
    exact hh
  | restart config x => exact homed_new crc tm.dataDir tm.localBrokerID config x

end Life

end TopicManager

open TopicManager in
/-- Whatever a broker has been through, and whichever partitions fail: after a
`Reconcile` that returns, every partition that does not fail has its assigned role
exactly if each of them that is listed behind a failing one had it before. -/
theorem failing_partition_isolated_iff (crc : Checksum) (lib : Controller.Stdlib)
    (dataDir : DataDir) (brokerID : Int32) (config : LogConfig) (x₀ : String → OpenFaults)
    (events : List ManagerEvent) (pms : List PartitionMetadata) (hlist : Listing pms)
    (x : String → OpenFaults) (r : Except AssignError Unit) (tm : TopicManager)
    (hrun : (Runs.final (handle crc lib) (newTopicManager crc dataDir brokerID config x₀)
      events).reconcile crc brokerID pms x = (r, tm))
    (hreturns : ∀ topic partition, r ≠ .error (.panics topic partition)) :
    (∀ pm ∈ pms, (Runs.final (handle crc lib) (newTopicManager crc dataDir brokerID config x₀)
        events).fails crc brokerID x pm = false → tm.InRole brokerID pm) ↔
      Unblocked crc brokerID x (Runs.final (handle crc lib)
        (newTopicManager crc dataDir brokerID config x₀) events) pms := by
  obtain ⟨hs, hid, hh⟩ := Runs.invariant (handle crc lib)
    (P := fun tm => tm.Sound ∧ tm.localBrokerID = brokerID ∧ tm.Homed)
    (fun tm e h => ⟨(h.1.handle lib e).1, (h.1.handle lib e).2.trans h.2.1, h.2.2.handle h.1 lib e⟩)
    ⟨sound_new crc dataDir brokerID config x₀, rfl, homed_new crc dataDir brokerID config x₀⟩ events
  obtain ⟨r', tm', he, -, hout⟩ := reconcile_outcome crc hs hid hh hlist x
  obtain ⟨rfl, rfl⟩ := Prod.mk.inj (he.symm.trans hrun)
  exact hout.holds_iff hreturns

namespace TopicManager

/-- Broker 1 after it has adopted the leadership of `t/0`. -/
def leadingT : TopicManager :=
  Runs.final (handle crc32c Controller.sampleLib) sampleManager
    [.reconcile ((Controller.sampleLogs.take 3).map .apply) fun _ => .none]

/-- One directory cannot be made. -/
def blockedDir (dir : String) : String → OpenFaults :=
  fun name => if name = dir then ⟨some .mkdir, .none⟩ else .none

/-- Broker 2 takes over `t/0`. -/
def handover : PartitionMetadata := ⟨"t", 0, 2, 1, 1, [1, 2], [2]⟩

end TopicManager

open TopicManager in
theorem failing_partition_isolated_iff_handover :
    (leadingT.reconcile crc32c 1 [handover, ⟨"z", 0, 1, 0, 0, [1], [1]⟩] (blockedDir "z-0")).1 =
        .error (.openLog "z" 0 .mkdir) ∧
      (leadingT.reconcile crc32c 1 [handover, ⟨"z", 0, 1, 0, 0, [1], [1]⟩]
        (blockedDir "z-0")).2.InRole 1 handover := by
  have herr : (leadingT.reconcile crc32c 1 [handover, ⟨"z", 0, 1, 0, 0, [1], [1]⟩]
      (blockedDir "z-0")).1 = .error (.openLog "z" 0 .mkdir) := by decide +kernel
  have hfine : leadingT.fails crc32c 1 (blockedDir "z-0") handover = false := by decide +kernel
  have hlist : Listing [handover, ⟨"z", 0, 1, 0, 0, [1], [1]⟩] :=
    ⟨by decide, by decide, by decide⟩
  refine ⟨herr, (failing_partition_isolated_iff crc32c Controller.sampleLib ∅ 1 Log.tightConfig
    (fun _ => .none) _ _ hlist _ _ _ Prod.mk.eta.symm ?_).mpr ?_ handover (by simp) hfine⟩
  · intro topic partition he
    cases herr.symm.trans he
  · intro pre bad post hsplit hbad pm hpm
    rcases pre with _ | ⟨q, _ | ⟨q', pre⟩⟩
    · obtain ⟨rfl, -⟩ := List.cons.inj hsplit
      exact absurd hbad (Bool.eq_false_iff.mp hfine)
    · obtain ⟨-, hrest⟩ := List.cons.inj hsplit
      obtain ⟨-, rfl⟩ := List.cons.inj hrest
      cases hpm
    · simp at hsplit

/-- The same failure on `a/0`, which is listed first, leaves broker 1 the leader of
`t/0` in its old epoch. -/
theorem failing_partition_keeps_stale_leader :
    (TopicManager.leadingT.reconcile crc32c 1
        [⟨"a", 0, 1, 0, 0, [1], [1]⟩, TopicManager.handover] (TopicManager.blockedDir "a-0")).1 =
      .error (.openLog "a" 0 .mkdir) ∧
    TopicManager.leadingT.fails crc32c 1 (TopicManager.blockedDir "a-0") TopicManager.handover =
      false ∧
    ((TopicManager.leadingT.reconcile crc32c 1
        [⟨"a", 0, 1, 0, 0, [1], [1]⟩, TopicManager.handover]
        (TopicManager.blockedDir "a-0")).2.slot "t" 0).map
          (fun p => (p.partition.isLeader, p.partition.leaderID, p.partition.leaderEpoch)) =
      some (true, 1, 0) := by
  refine ⟨by decide +kernel, by decide +kernel, by decide +kernel⟩

end MessageBroker.Broker
