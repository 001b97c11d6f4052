import MessageBroker.Controller.Fencing

/-!
# When a restarted broker can register again

A new process comes with a new incarnation id, and the state machine takes it
over only from a fenced entry. Only `RegisterBroker` writes a fenced entry and
only over a free or a fenced one, so the fence, once cleared, never comes back.
-/
namespace MessageBroker.Controller

open Std Lib Lib.Maps

/-- No ISR holds a fenced broker, so a fenced broker is in no active partition. -/
theorem brokerInActivePartition_of_fenced {s : ControllerState} (h : Inv s) {id : Int32}
    {b : BrokerInfo} (hb : s.brokers[id]? = some b) (hf : b.fenced = true) :
    brokerInActivePartition s.partitions id = false := by
  have hna : ¬ Active s.brokers id := by
    rintro ⟨x, hx, hxf⟩
    rw [hb] at hx
    cases hx
    rw [hf] at hxf
    cases hxf
  unfold brokerInActivePartition
  rw [List.any_eq_false]
  intro e he
  have hspec := h.partition_spec e.1 e.2 (ExtTreeMap.mem_toList_iff_getElem?_eq_some.mp he)
  have hisr : id ∉ e.2.isr := fun hm => hna (hspec.isr_active id hm)
  have hleader : e.2.leaderBrokerId ≠ id := fun heq => hisr (heq ▸ hspec.leader_isr)
  simp [hleader, hisr]

/-- A new incarnation takes over a fenced entry. -/
theorem registerBroker_over_fenced {lib : Stdlib} {s : ControllerState} (h : Inv s)
    {cmd : RegisterBrokerCommand} {b : BrokerInfo} (hb : s.brokers[cmd.id]? = some b)
    (hf : b.fenced = true) (hinc : cmd.incarnationId ≠ "")
    (hfresh : cmd.incarnationId ≠ b.incarnationId) {endpoints : List BrokerEndpoint}
    (hn : normalizeEndpoints lib cmd.endpoints = .ok endpoints) {index : UInt64}
    (hidx : index ≠ 0) : (registerBroker lib s cmd index).1 = .ok () := by
  have h0 : ¬ cmd.id < 0 := by have := (h.broker cmd.id b hb).id_nonneg; grind
  unfold registerBroker
  rw [if_neg h0, if_neg hinc, if_neg hidx, hn]
  simp only [hb, if_neg (Ne.symm hfresh), hf, brokerInActivePartition_of_fenced h hb hf]
  rfl

/-- No new incarnation takes over an unfenced entry. -/
theorem registerBroker_over_unfenced {lib : Stdlib} {s : ControllerState}
    {cmd : RegisterBrokerCommand} {b : BrokerInfo} (hb : s.brokers[cmd.id]? = some b)
    (hf : b.fenced = false) (hfresh : cmd.incarnationId ≠ b.incarnationId) (index : UInt64) :
    (registerBroker lib s cmd index).1 ≠ .ok () := by
  unfold registerBroker
  split
  · simp
  split
  · simp
  split
  · simp
  split
  · simp
  · simp only [hb, if_neg (Ne.symm hfresh), hf]
    simp

/-- The broker is registered, unfenced, and under the given incarnation. -/
def Holds (id : Int32) (incarnation : String) (s : ControllerState) : Prop :=
  ∃ b, s.brokers[id]? = some b ∧ b.fenced = false ∧ b.incarnationId = incarnation

/-- An unfenced entry keeps its incarnation and stays unfenced. -/
theorem apply_holds (lib : Stdlib) {id : Int32} {incarnation : String} {s : ControllerState}
    (h : Holds id incarnation s) (log : Option RaftLog) :
    Holds id incarnation (apply lib s log).2 := by
  obtain ⟨b, hb, hf, hi⟩ := h
  unfold apply
  split
  · exact ⟨b, hb, hf, hi⟩
  rename_i cmd index _
  cases cmd with
  | registerBroker cmd =>
    simp only [applyCommand, wrap_snd]
    rcases registerBroker_cases lib s cmd index with hs | ⟨es, -, -, -, -, hold, hr⟩
    · rw [hs]; exact ⟨b, hb, hf, hi⟩
    · rw [hr]
      -- the overwritten entry was free or fenced, so it was another broker's
      have hne : cmd.id ≠ id := by
        rintro rfl
        rcases hold with hnone | ⟨x, hx, hxf, -⟩
        · rw [hb] at hnone; cases hnone
        · rw [hb] at hx
          cases hx
          rw [hf] at hxf
          cases hxf
      exact ⟨b, by rw [lookup_insert_ne _ hne]; exact hb, hf, hi⟩
  | unfenceBroker cmd =>
    simp only [applyCommand, wrap_snd]
    rcases unfenceBroker_cases s cmd with hs | ⟨x, hx, hr⟩
    · rw [hs]; exact ⟨b, hb, hf, hi⟩
    · rw [hr]
      by_cases hne : cmd.brokerId = id
      · subst hne
        rw [hb] at hx
        cases hx
        exact ⟨_, ExtTreeMap.getElem?_insert_self, rfl, hi⟩
      · exact ⟨b, by rw [lookup_insert_ne _ hne]; exact hb, hf, hi⟩
  | createTopic cmd =>
    simp only [applyCommand, wrap_snd]
    rcases createTopic_cases s cmd with ⟨-, hs⟩ | ⟨-, -, -, -, -, -, hr⟩
    · rw [hs]; exact ⟨b, hb, hf, hi⟩
    · rw [hr]; exact ⟨b, hb, hf, hi⟩
  | updatePartition cmd =>
    simp only [applyCommand, wrap_snd]
    rcases updatePartition_cases s cmd with ⟨-, hs⟩ | ⟨_, _, _, _, _, hr⟩
    · rw [hs]; exact ⟨b, hb, hf, hi⟩
    · rw [hr]; exact ⟨b, hb, hf, hi⟩

/-- The registration that a new process of broker `id` submits, after the
controller has applied some entries, is accepted. -/
def Rejoins (lib : Stdlib) (s : ControllerState) (cmd : RegisterBrokerCommand)
    (index : UInt64) : Prop :=
  ∃ logs : List (Option RaftLog),
    (applyCommand lib (Runs.final (apply lib) s logs) (.registerBroker cmd) index).1 = .ok ()

/-- Whatever is applied, an unfenced broker cannot come back as a new process. -/
theorem not_rejoins {lib : Stdlib} {s : ControllerState} {cmd : RegisterBrokerCommand}
    {incarnation : String} (h : Holds cmd.id incarnation s)
    (hfresh : cmd.incarnationId ≠ incarnation)
    (index : UInt64) : ¬ Rejoins lib s cmd index := by
  rintro ⟨logs, hok⟩
  obtain ⟨b, hb, hf, hi⟩ := Runs.invariant (apply lib) (P := Holds cmd.id incarnation)
    (fun _ log hs => apply_holds lib hs log) h logs
  exact registerBroker_over_unfenced hb hf (hi ▸ hfresh) index (wrap_ok.mp hok)

/-- In every reachable state, a registered broker can come back under a fresh
incarnation exactly if it is fenced. -/
theorem rejoins_iff_fenced (lib : Stdlib) (events : List Event) (cmd : RegisterBrokerCommand)
    (b : BrokerInfo)
    (hb : (Runs.final (fsmStep lib) newControllerState events).brokers[cmd.id]? = some b)
    (hinc : cmd.incarnationId ≠ "") (hfresh : cmd.incarnationId ≠ b.incarnationId)
    (endpoints : List BrokerEndpoint) (hn : normalizeEndpoints lib cmd.endpoints = .ok endpoints)
    (index : UInt64) (hidx : index ≠ 0) :
    Rejoins lib (Runs.final (fsmStep lib) newControllerState events) cmd index ↔
      b.fenced = true := by
  have hinv : Inv (Runs.final (fsmStep lib) newControllerState events) :=
    Runs.invariant (fsmStep lib) (fun s e h => fsmStep_inv lib s e h) inv_new events
  constructor
  · intro hr
    by_contra hf
    exact not_rejoins ⟨b, hb, by simpa using hf, rfl⟩ hfresh index hr
  · intro hf
    exact ⟨[], wrap_ok.mpr (registerBroker_over_fenced hinv hb hf hinc hfresh hn hidx)⟩

/-- A broker that registered and was never unfenced can be replaced. -/
theorem rejoins_iff_fenced_sample :
    Rejoins sampleLib (Runs.final (fsmStep sampleLib) newControllerState
      ((sampleLogs.take 1).map .apply)) ⟨1, "b", [⟨"plaintext", "h", 9092, 0⟩]⟩ 2 :=
  (rejoins_iff_fenced sampleLib _ ⟨1, "b", [⟨"plaintext", "h", 9092, 0⟩]⟩
    ⟨1, "a", 1, [⟨"PLAINTEXT", "h", 9092, 0⟩], true⟩ (by decide +kernel) (by decide) (by decide)
    [⟨"PLAINTEXT", "h", 9092, 0⟩] (by decide +kernel) 2 (by decide)).mpr rfl

/-- After `RegisterBroker` and `UnfenceBroker` the broker is registered, and no
later entries make the controller accept its next process. -/
theorem restarted_broker_locked_out :
    (Runs.final (fsmStep sampleLib) newControllerState
      ((sampleLogs.take 2).map .apply)).brokers[(1 : Int32)]? =
        some ⟨1, "a", 1, [⟨"PLAINTEXT", "h", 9092, 0⟩], false⟩ ∧
    ¬ Rejoins sampleLib (Runs.final (fsmStep sampleLib) newControllerState
      ((sampleLogs.take 2).map .apply)) ⟨1, "b", [⟨"plaintext", "h", 9092, 0⟩]⟩ 3 := by
  have hb : (Runs.final (fsmStep sampleLib) newControllerState
      ((sampleLogs.take 2).map .apply)).brokers[(1 : Int32)]? =
        some ⟨1, "a", 1, [⟨"PLAINTEXT", "h", 9092, 0⟩], false⟩ := by decide +kernel
  generalize Runs.final (fsmStep sampleLib) newControllerState ((sampleLogs.take 2).map .apply) = s
    at hb ⊢
  have hfresh : "b" ≠ "a" := by decide
  exact ⟨hb, not_rejoins ⟨_, hb, rfl, rfl⟩ hfresh 3⟩

end MessageBroker.Controller
