import MessageBroker.Controller.Replay

/-!
# A command is applied whole, to what it names, and once

Rejections lie before and between the writes of a handler; none leaves a trace.
An accepted command touches the entries it names: that a new topic overwrites no
partition rests on the invariant that partitions exist only under topics. A
repeated registration is accepted without effect, since normalised endpoints do
not depend on the order or the letter case in which they were sent.
-/
namespace MessageBroker.Controller

open Std Lib Lib.Maps

/-! ## What an accepted command may change -/

def OnlyBroker (id : Int32) (s s' : ControllerState) : Prop :=
  s'.topics = s.topics ∧ s'.partitions = s.partitions ∧
    ∀ other, other ≠ id → s'.brokers[other]? = s.brokers[other]?

def OnlyPartition (key : TopicPartitionKey) (s s' : ControllerState) : Prop :=
  s'.brokers = s.brokers ∧ s'.topics = s.topics ∧
    ∀ other, other ≠ key → s'.partitions[other]? = s.partitions[other]?

/-- The topic is new, none of its partitions was there, and those listed are now. -/
structure AddsTopic (cmd : CreateTopicCommand) (s s' : ControllerState) : Prop where
  brokers_eq : s'.brokers = s.brokers
  topic_new : s.topics[cmd.topic]? = none
  topic_added : s'.topics[cmd.topic]? = some ⟨cmd.topic⟩
  topics_kept : ∀ name, name ≠ cmd.topic → s'.topics[name]? = s.topics[name]?
  partition_new : ∀ p : Int32, s.partitions[(⟨cmd.topic, p⟩ : TopicPartitionKey)]? = none
  partition_added : ∀ (p : Int32) (st : PartitionState),
    s'.partitions[(⟨cmd.topic, p⟩ : TopicPartitionKey)]? = some st ↔
      ∃ spec ∈ cmd.partitions, spec.partition = p ∧ spec.initial = st
  partitions_kept : ∀ key : TopicPartitionKey, key.topic ≠ cmd.topic →
    s'.partitions[key]? = s.partitions[key]?

def Local : Command → ControllerState → ControllerState → Prop
  | .registerBroker cmd => OnlyBroker cmd.id
  | .unfenceBroker cmd => OnlyBroker cmd.brokerId
  | .createTopic cmd => AddsTopic cmd
  | .updatePartition cmd => OnlyPartition ⟨cmd.topic, cmd.partition⟩

theorem onlyBroker_refl (id : Int32) (s : ControllerState) : OnlyBroker id s s :=
  ⟨rfl, rfl, fun _ _ => rfl⟩

theorem onlyBroker_insert (s : ControllerState) (id : Int32) (b : BrokerInfo) :
    OnlyBroker id s { s with brokers := s.brokers.insert id b } :=
  ⟨rfl, rfl, fun _ hne => lookup_insert_ne _ hne.symm _⟩

theorem registerBroker_local (lib : Stdlib) (s : ControllerState) (cmd : RegisterBrokerCommand)
    (index : UInt64) : OnlyBroker cmd.id s (registerBroker lib s cmd index).2 := by
  rcases registerBroker_cases lib s cmd index with hs | ⟨es, -, -, -, -, -, hr⟩
  · rw [hs]
    exact onlyBroker_refl cmd.id s
  · rw [hr]
    exact onlyBroker_insert s cmd.id _

theorem unfenceBroker_local (s : ControllerState) (cmd : UnfenceBrokerCommand) :
    OnlyBroker cmd.brokerId s (unfenceBroker s cmd).2 := by
  rcases unfenceBroker_cases s cmd with hs | ⟨b, -, hr⟩
  · rw [hs]
    exact onlyBroker_refl cmd.brokerId s
  · rw [hr]
    exact onlyBroker_insert s cmd.brokerId _

theorem createTopic_local {s : ControllerState} (h : Inv s) {cmd : CreateTopicCommand}
    (hok : (createTopic s cmd).1 = .ok ()) : AddsTopic cmd s (createTopic s cmd).2 := by
  rcases createTopic_cases s cmd with ⟨⟨e, he⟩, -⟩ | ⟨-, hnew, -, hn, -, -, hr⟩
  · rw [he] at hok
    cases hok
  have hfresh : ∀ p : Int32, s.partitions[(⟨cmd.topic, p⟩ : TopicPartitionKey)]? = none :=
    fun p => ExtTreeMap.getElem?_eq_none fun hp => hnew (h.partition_topic _ hp)
  rw [hr]
  refine ⟨rfl, ExtTreeMap.getElem?_eq_none hnew, ExtTreeMap.getElem?_insert_self,
    fun name hne => lookup_insert_ne _ hne.symm _, hfresh, fun p st => ?_, fun key hne => ?_⟩
  · rcases lookup_insertSpecs hn s.partitions ⟨cmd.topic, p⟩ with ⟨spec, hs, hk, hv⟩ | ⟨hk, hv⟩
    · rw [hv, Option.some_inj]
      constructor
      · exact fun hst => ⟨spec, hs, (TopicPartitionKey.mk.inj hk).2.symm, hst⟩
      · rintro ⟨spec', hs', hp, rfl⟩
        -- two specifications with the same number are the same one
        have : spec = spec' := List.inj_on_of_nodup_map hn hs hs'
          ((TopicPartitionKey.mk.inj hk).2.symm.trans hp.symm)
        rw [this]
    · rw [hv, hfresh]
      constructor
      · intro hst
        cases hst
      · rintro ⟨spec, hs, rfl, -⟩
        exact absurd rfl (hk spec hs)
  · rcases lookup_insertSpecs hn s.partitions key with ⟨spec, -, hk, -⟩ | ⟨-, hv⟩
    · exact absurd (congrArg TopicPartitionKey.topic hk) hne
    · exact hv

theorem updatePartition_local (s : ControllerState) (cmd : UpdatePartitionCommand) :
    OnlyPartition ⟨cmd.topic, cmd.partition⟩ s (updatePartition s cmd).2 := by
  rcases updatePartition_cases s cmd with ⟨-, hs⟩ | ⟨current, -, -, -, -, hr⟩
  · rw [hs]
    exact ⟨rfl, rfl, fun _ _ => rfl⟩
  · rw [hr]
    exact ⟨rfl, rfl, fun _ hne => lookup_insert_ne _ hne.symm _⟩

/-- An accepted command changes what it names. -/
theorem apply_local {lib : Stdlib} {s : ControllerState} (h : Inv s) {log : Option RaftLog}
    {cmd : Command} {index : UInt64} (hd : decodeCommand lib log = .ok (cmd, index))
    (hok : (apply lib s log).1 = .ok ()) : Local cmd s (apply lib s log).2 := by
  simp only [apply, hd] at hok ⊢
  cases cmd with
  | registerBroker cmd =>
    simp only [applyCommand, wrap_snd]
    exact registerBroker_local lib s cmd index
  | unfenceBroker cmd =>
    simp only [applyCommand, wrap_snd]
    exact unfenceBroker_local s cmd
  | createTopic cmd =>
    simp only [applyCommand, wrap_snd]
    exact createTopic_local h (wrap_ok.mp hok)
  | updatePartition cmd =>
    simp only [applyCommand, wrap_snd]
    exact updatePartition_local s cmd

/-! ## Rejections -/

theorem wrap_error {ε : Type} {f : ε → ApplyError} {r : Except ε Unit × ControllerState}
    {e : ApplyError} (h : (wrap f r).1 = .error e) : r.1 ≠ .ok () := by
  intro hok
  rw [wrap_ok.mpr hok] at h
  cases h

/-- A rejected entry leaves the state as it was. -/
theorem apply_error {lib : Stdlib} {s : ControllerState} {log : Option RaftLog} {e : ApplyError}
    (h : (apply lib s log).1 = .error e) : (apply lib s log).2 = s := by
  unfold apply at h ⊢
  split at h
  · rfl
  rename_i cmd index _
  cases cmd with
  | registerBroker cmd =>
    simp only [applyCommand, wrap_snd] at h ⊢
    rcases registerBroker_cases lib s cmd index with hs | ⟨_, _, _, _, _, _, hr⟩
    · exact hs
    · exact absurd (congrArg Prod.fst hr) (wrap_error h)
  | unfenceBroker cmd =>
    simp only [applyCommand, wrap_snd] at h ⊢
    rcases unfenceBroker_cases s cmd with hs | ⟨_, _, hr⟩
    · exact hs
    · exact absurd (congrArg Prod.fst hr) (wrap_error h)
  | createTopic cmd =>
    simp only [applyCommand, wrap_snd] at h ⊢
    rcases createTopic_cases s cmd with ⟨-, hs⟩ | ⟨_, _, _, _, _, _, hr⟩
    · exact hs
    · exact absurd (congrArg Prod.fst hr) (wrap_error h)
  | updatePartition cmd =>
    simp only [applyCommand, wrap_snd] at h ⊢
    rcases updatePartition_cases s cmd with ⟨-, hs⟩ | ⟨_, _, _, _, _, hr⟩
    · exact hs
    · exact absurd (congrArg Prod.fst hr) (wrap_error h)

/-! ## Endpoints, whatever their order and letter case -/

/-- An endpoint as the loop of `normalizeEndpoints` leaves it. -/
def BrokerEndpoint.clean (lib : Stdlib) (e : BrokerEndpoint) : BrokerEndpoint :=
  { e with name := lib.toUpper (lib.trimSpace e.name), host := lib.trimSpace e.host }

/-- What the loop checks of a cleaned endpoint. -/
structure Usable (e : BrokerEndpoint) : Prop where
  name_ne : e.name ≠ ""
  host_ne : e.host ≠ ""
  port_ne : e.port ≠ 0
  plaintext : e.securityProtocol = securityProtocolPlaintext

/-- The loop accepts usable endpoints with distinct names, and only cleans them. -/
theorem normalizeLoop_iff {lib : Stdlib} {es : List BrokerEndpoint} :
    ∀ {seen : List String} {out : List BrokerEndpoint}, normalizeLoop lib seen es = .ok out ↔
      out = es.map (·.clean lib) ∧ (∀ e ∈ out, Usable e ∧ e.name ∉ seen) ∧
        (out.map (·.name)).Nodup := by
  induction es with
  | nil =>
    intro seen out
    constructor
    · intro h
      cases h
      simp
    · rintro ⟨rfl, -⟩
      rfl
  | cons e es ih =>
    intro seen out
    constructor
    · intro h
      unfold normalizeLoop at h
      simp only at h
      split_ifs at h with hname hhost hport hproto hseen
      split at h
      · cases h
      rename_i rest hrest
      cases h
      obtain ⟨rfl, hall, hn⟩ := ih.mp hrest
      refine ⟨rfl, fun x hx => ?_, ?_⟩
      · rcases List.mem_cons.mp hx with rfl | hx
        · exact ⟨⟨hname, hhost, hport, not_not.mp hproto⟩, hseen⟩
        · exact ⟨(hall x hx).1, fun hm => (hall x hx).2 (List.mem_cons_of_mem _ hm)⟩
      · rw [List.map_cons, List.nodup_cons]
        refine ⟨fun hm => ?_, hn⟩
        obtain ⟨x, hx, he⟩ := List.mem_map.mp hm
        exact (hall x hx).2 (by rw [he]; exact List.mem_cons_self)
    · rintro ⟨rfl, hall, hn⟩
      rw [List.map_cons, List.map_cons, List.nodup_cons] at hn
      obtain ⟨⟨hname, hhost, hport, hproto⟩, hseen⟩ := hall (e.clean lib) List.mem_cons_self
      have hrest : normalizeLoop lib ((e.clean lib).name :: seen) es =
          .ok (es.map (·.clean lib)) := by
        refine ih.mpr ⟨rfl, fun x hx => ⟨(hall x (List.mem_cons_of_mem _ hx)).1, fun hm => ?_⟩,
          hn.2⟩
        rcases List.mem_cons.mp hm with he | hm
        · exact hn.1 (he ▸ List.mem_map_of_mem hx)
        · exact (hall x (List.mem_cons_of_mem _ hx)).2 hm
      simp only [BrokerEndpoint.clean] at hname hhost hport hproto hseen hrest
      unfold normalizeLoop
      simp only [if_neg hname, if_neg hhost, if_neg hport, if_neg (not_not.mpr hproto),
        if_neg hseen, hrest, List.map_cons, BrokerEndpoint.clean]

/-- Sorting by distinct names forgets the order. -/
theorem sortEndpoints_of_perm {a b : List BrokerEndpoint} (h : a.Perm b)
    (hn : (a.map (·.name)).Nodup) : sortEndpoints a = sortEndpoints b := by
  have ha : (sortEndpoints a).Perm a := List.perm_insertionSort _ a
  have hb : (sortEndpoints b).Perm b := List.perm_insertionSort _ b
  refine List.Perm.eq_of_pairwise (fun x y hx hy hxy hyx => ?_) (sortEndpoints_sorted a)
    (sortEndpoints_sorted b) ((ha.trans h).trans hb.symm)
  exact List.inj_on_of_nodup_map hn (ha.mem_iff.mp hx) (h.mem_iff.mpr (hb.mem_iff.mp hy))
    (Std.le_antisymm hxy hyx)

/-- The endpoint with its name in upper case. -/
def BrokerEndpoint.upper (lib : Stdlib) (e : BrokerEndpoint) : BrokerEndpoint :=
  { e with name := lib.toUpper e.name }

/-- The same endpoints, in any order and with names in any letter case. -/
def SameEndpoints (lib : Stdlib) (a b : List BrokerEndpoint) : Prop :=
  (a.map (·.upper lib)).Perm (b.map (·.upper lib))

section Repeats

variable {lib : Stdlib}

/-- Upper-casing leaves the white space around a name where it is. -/
def TrimsUpper (lib : Stdlib) : Prop :=
  ∀ s, lib.trimSpace (lib.toUpper s) = lib.toUpper (lib.trimSpace s)

/-- Letter case does not survive cleaning, and the order is left as it is. -/
theorem SameEndpoints.clean (ht : TrimsUpper lib) {a b : List BrokerEndpoint}
    (h : SameEndpoints lib a b) : (a.map (·.clean lib)).Perm (b.map (·.clean lib)) := by
  let trim (e : BrokerEndpoint) : BrokerEndpoint :=
    { e with name := lib.trimSpace e.name, host := lib.trimSpace e.host }
  have hclean : ∀ es : List BrokerEndpoint,
      es.map (·.clean lib) = (es.map (·.upper lib)).map trim := by
    intro es
    rw [List.map_map]
    refine List.map_congr_left fun e _ => ?_
    simp only [BrokerEndpoint.clean, Function.comp_apply, BrokerEndpoint.upper, trim, ht e.name]
  rw [hclean, hclean]
  exact List.Perm.map trim h

theorem normalizeEndpoints_same (ht : TrimsUpper lib) {a b out : List BrokerEndpoint}
    (h : SameEndpoints lib a b) (ha : normalizeEndpoints lib a = .ok out) :
    normalizeEndpoints lib b = .ok out := by
  unfold normalizeEndpoints at ha ⊢
  split at ha
  · cases ha
  rename_i hne
  split at ha
  · cases ha
  rename_i loop hloop
  cases ha
  obtain ⟨rfl, hall, hn⟩ := normalizeLoop_iff.mp hloop
  have hperm := h.clean ht
  have hloop' : normalizeLoop lib [] b = .ok (b.map (·.clean lib)) :=
    normalizeLoop_iff.mpr ⟨rfl, fun e he => hall e (hperm.mem_iff.mpr he),
      (hperm.map (·.name)).nodup_iff.mp hn⟩
  have hne' : b ≠ [] := by
    rintro rfl
    exact hne (List.map_eq_nil_iff.mp hperm.eq_nil)
  rw [if_neg hne', hloop']
  simp only [sortEndpoints_of_perm hperm hn]

end Repeats

/-! ## Registering again -/

/-- The broker is registered under the incarnation, with endpoints that the
controller takes to be the given ones. -/
def Registered (id : Int32) (incarnation : String) (endpoints : List BrokerEndpoint)
    (s : ControllerState) : Prop :=
  ∃ b, s.brokers[id]? = some b ∧ b.incarnationId = incarnation ∧
    endpointsEqual b.endpoints endpoints = true

theorem endpointsEqual_self (es : List BrokerEndpoint) : endpointsEqual es es = true := by
  simp [endpointsEqual]

/-- What an accepted registration checked, and what it leaves registered. -/
theorem registerBroker_ok {lib : Stdlib} {s : ControllerState} {cmd : RegisterBrokerCommand}
    {index : UInt64} (hok : (registerBroker lib s cmd index).1 = .ok ()) :
    ¬ cmd.id < 0 ∧ cmd.incarnationId ≠ "" ∧
    ∃ endpoints, normalizeEndpoints lib cmd.endpoints = .ok endpoints ∧
      Registered cmd.id cmd.incarnationId endpoints (registerBroker lib s cmd index).2 := by
  unfold registerBroker at hok ⊢
  split_ifs at hok with hid hinc hidx
  rw [if_neg hid, if_neg hinc, if_neg hidx]
  cases hn : normalizeEndpoints lib cmd.endpoints with
  | error e =>
    rw [hn] at hok
    cases hok
  | ok endpoints =>
    refine ⟨hid, hinc, endpoints, rfl, ?_⟩
    simp only [hn] at hok
    cases hb : s.brokers[cmd.id]? with
    | none => exact ⟨_, ExtTreeMap.getElem?_insert_self, rfl, endpointsEqual_self endpoints⟩
    | some b =>
      simp only [hb] at hok ⊢
      split_ifs at hok ⊢ with hsame hequal hactive
      · exact ⟨b, hb, hsame, hequal⟩
      · exact ⟨_, ExtTreeMap.getElem?_insert_self, rfl, endpointsEqual_self endpoints⟩

/-- A registration that is in place is accepted and changes nothing. -/
theorem registerBroker_again {lib : Stdlib} {s : ControllerState} {cmd : RegisterBrokerCommand}
    {index : UInt64} {endpoints : List BrokerEndpoint} (hid : ¬ cmd.id < 0)
    (hinc : cmd.incarnationId ≠ "") (hidx : index ≠ 0)
    (hn : normalizeEndpoints lib cmd.endpoints = .ok endpoints)
    (h : Registered cmd.id cmd.incarnationId endpoints s) :
    registerBroker lib s cmd index = (.ok (), s) := by
  obtain ⟨b, hb, hsame, hequal⟩ := h
  simp only [registerBroker, if_neg hid, if_neg hinc, if_neg hidx, hn, hb, if_pos hsame,
    if_pos hequal]

/-- After the call the incarnation is still the registered one; a snapshot that
is installed holds its endpoints. -/
def Keeps (lib : Stdlib) (id : Int32) (incarnation : String) (s : ControllerState)
    (e : Event) : Prop :=
  (∃ b, (fsmStep lib s e).2.brokers[id]? = some b ∧ b.incarnationId = incarnation) ∧
    ∀ src, e = .restore src →
      (fsmStep lib s e).2.brokers[id]?.map (·.endpoints) = s.brokers[id]?.map (·.endpoints)

/-- Commands write endpoints only together with a new incarnation. -/
theorem apply_endpoints {lib : Stdlib} {s : ControllerState} {log : Option RaftLog} {id : Int32}
    {b b' : BrokerInfo} (hb : s.brokers[id]? = some b)
    (hb' : (apply lib s log).2.brokers[id]? = some b')
    (hsame : b'.incarnationId = b.incarnationId) : b'.endpoints = b.endpoints := by
  have hkept : ∀ {s' : ControllerState}, s'.brokers[id]? = some b' → s'.brokers = s.brokers →
      b'.endpoints = b.endpoints := by
    intro s' hs' he
    rw [he, hb] at hs'
    cases hs'
    rfl
  unfold apply at hb'
  split at hb'
  · exact hkept hb' rfl
  rename_i cmd index _
  cases cmd with
  | registerBroker cmd =>
    simp only [applyCommand, wrap_snd] at hb'
    rcases registerBroker_cases lib s cmd index with hs | ⟨es, -, -, -, -, hold, hr⟩
    · exact hkept hb' (by rw [hs])
    · rw [hr] at hb'
      simp only [lookup_insert] at hb'
      split_ifs at hb' with hid
      · -- the entry overwritten had another incarnation
        cases hb'
        subst hid
        rcases hold with hnone | ⟨x, hx, -, hne, -⟩
        · rw [hb] at hnone
          cases hnone
        · rw [hb] at hx
          cases hx
          exact absurd hsame.symm hne
      · rw [hb] at hb'
        cases hb'
        rfl
  | unfenceBroker cmd =>
    simp only [applyCommand, wrap_snd] at hb'
    rcases unfenceBroker_cases s cmd with hs | ⟨x, hx, hr⟩
    · exact hkept hb' (by rw [hs])
    · rw [hr] at hb'
      simp only [lookup_insert] at hb'
      split_ifs at hb' with hid
      · cases hb'
        subst hid
        rw [hb] at hx
        cases hx
        rfl
      · rw [hb] at hb'
        cases hb'
        rfl
  | createTopic cmd =>
    simp only [applyCommand, wrap_snd] at hb'
    rcases createTopic_cases s cmd with ⟨-, hs⟩ | ⟨-, -, -, -, -, -, hr⟩
    · exact hkept hb' (by rw [hs])
    · exact hkept hb' (by rw [hr])
  | updatePartition cmd =>
    simp only [applyCommand, wrap_snd] at hb'
    exact hkept hb' (updatePartition_local s cmd).1

theorem fsmStep_registered {lib : Stdlib} {id : Int32} {incarnation : String}
    {endpoints : List BrokerEndpoint} {s : ControllerState} {e : Event}
    (h : Registered id incarnation endpoints s) (hkeep : Keeps lib id incarnation s e) :
    Registered id incarnation endpoints (fsmStep lib s e).2 := by
  obtain ⟨b, hb, hinc, hequal⟩ := h
  obtain ⟨⟨b', hb', hinc'⟩, hrestore⟩ := hkeep
  have hsame : b'.endpoints = b.endpoints := by
    cases e with
    | apply log => exact apply_endpoints hb hb' (hinc'.trans hinc.symm)
    | restore src =>
      have hend := hrestore src rfl
      rw [hb, hb'] at hend
      exact Option.some_inj.mp hend
  exact ⟨b', hb', hinc', by rw [hsame]; exact hequal⟩

/-- The command of a broker that registers again: the same process, the same
endpoints. -/
structure Repeats (lib : Stdlib) (cmd cmd' : RegisterBrokerCommand) : Prop where
  id_eq : cmd'.id = cmd.id
  incarnation_eq : cmd'.incarnationId = cmd.incarnationId
  endpoints : SameEndpoints lib cmd.endpoints cmd'.endpoints

/-! ## Commands over every reachable state -/

theorem controller_commands_atomic_and_local (lib : Stdlib) (ht : TrimsUpper lib)
    (events : List Event) (log : Option RaftLog) :
    let s := Runs.final (fsmStep lib) newControllerState events
    (∀ e, (apply lib s log).1 = .error e → (apply lib s log).2 = s) ∧
    (∀ cmd index, decodeCommand lib log = .ok (cmd, index) → (apply lib s log).1 = .ok () →
      Local cmd s (apply lib s log).2) ∧
    ∀ cmd index, decodeCommand lib log = .ok (.registerBroker cmd, index) →
      (apply lib s log).1 = .ok () →
      ∀ later : List Event,
        Runs.Guarded (fsmStep lib) (Keeps lib cmd.id cmd.incarnationId) (apply lib s log).2 later →
      ∀ log' cmd' index', decodeCommand lib log' = .ok (.registerBroker cmd', index') →
        index' ≠ 0 → Repeats lib cmd cmd' →
        apply lib (Runs.final (fsmStep lib) (apply lib s log).2 later) log' =
          (.ok (), Runs.final (fsmStep lib) (apply lib s log).2 later) := by
  have hinv := Runs.invariant (fsmStep lib) (fun s e h => fsmStep_inv lib s e h) inv_new events
  refine ⟨fun e he => apply_error he, fun cmd index hd hok => apply_local hinv hd hok, ?_⟩
  intro cmd index hd hok later hkeep log' cmd' index' hd' hidx ⟨hid, hinc, hsame⟩
  generalize Runs.final (fsmStep lib) newControllerState events = s at hok hkeep ⊢
  simp only [apply, hd, applyCommand, wrap_snd, wrap_ok] at hok hkeep ⊢
  obtain ⟨hpos, hne, endpoints, hn, hreg⟩ := registerBroker_ok hok
  have hreg' := Runs.invariant_guarded (fsmStep lib)
    (P := Registered cmd.id cmd.incarnationId endpoints)
    (fun _ _ h hk => fsmStep_registered h hk) hreg later hkeep
  rw [← hid, ← hinc] at hreg'
  simp only [hd', wrap,
    registerBroker_again (hid ▸ hpos) (hinc ▸ hne) hidx (normalizeEndpoints_same ht hsame hn) hreg']

/-! ## A registration sent again after unfencing, in another letter case -/

def againText : String :=
  "\x7b\"id\":1,\"incarnation_id\":\"a\",\"endpoints\":[" ++
    "\x7b\"name\":\"Plaintext\",\"host\":\"h\",\"port\":9092,\"security_protocol\":0\x7d]\x7d"

/-- The decoders of the sample, which also know the second registration. -/
def repeatLib : Stdlib :=
  { sampleLib with
    unmarshalEnvelope := knownTexts
      [(envelopeText "RegisterBroker" registerText, ⟨1, .registerBroker, textBytes registerText⟩),
       (envelopeText "RegisterBroker" againText, ⟨1, .registerBroker, textBytes againText⟩),
       (envelopeText "UnfenceBroker" unfenceText, ⟨1, .unfenceBroker, textBytes unfenceText⟩)]
    unmarshalRegisterBroker := knownTexts
      [(registerText, ⟨1, "a", [⟨"plaintext", "h", 9092, 0⟩]⟩),
       (againText, ⟨1, "a", [⟨"Plaintext", "h", 9092, 0⟩]⟩)] }

def registerLog : Option RaftLog :=
  some ⟨1, textBytes (envelopeText "RegisterBroker" registerText)⟩

def unfenceLog : Option RaftLog :=
  some ⟨2, textBytes (envelopeText "UnfenceBroker" unfenceText)⟩

def againLog : Option RaftLog :=
  some ⟨3, textBytes (envelopeText "RegisterBroker" againText)⟩

theorem controller_commands_atomic_and_local_repeat :
    let s := Runs.final (fsmStep repeatLib) (apply repeatLib newControllerState registerLog).2
      [.apply unfenceLog]
    apply repeatLib s againLog = (.ok (), s) := by
  have hall := controller_commands_atomic_and_local repeatLib Ascii.trim_upper [] registerLog
  simp only [Runs.final_nil] at hall
  obtain ⟨-, -, hrepeat⟩ := hall
  have hkeep : Keeps repeatLib 1 "a" (apply repeatLib newControllerState registerLog).2
      (.apply unfenceLog) :=
    ⟨⟨⟨1, "a", 1, [⟨"PLAINTEXT", "h", 9092, 0⟩], false⟩, by decide +kernel, rfl⟩,
      fun src h => by cases h⟩
  refine hrepeat ⟨1, "a", [⟨"plaintext", "h", 9092, 0⟩]⟩ 1 (by decide +kernel) (by decide +kernel)
    [.apply unfenceLog] ⟨hkeep, trivial⟩ againLog ⟨1, "a", [⟨"Plaintext", "h", 9092, 0⟩]⟩ 3
    (by decide +kernel) (by decide) ⟨rfl, rfl, ?_⟩
  have hupper : Ascii.upper "plaintext" = Ascii.upper "Plaintext" := by decide +kernel
  simp only [SameEndpoints, List.map_cons, List.map_nil, BrokerEndpoint.upper]
  exact List.Perm.of_eq (by rw [show repeatLib.toUpper = Ascii.upper from rfl, hupper])

end MessageBroker.Controller
