import MessageBroker.Controller.Invariant
import MessageBroker.Lib.Ascii

/-!
# Partition epochs as a fence between writers

Any number of clients submit `UpdatePartition` commands; raft orders them. One
command moves a partition only from the epoch it expects to the next one, so the
accepted updates of a partition are numbered by the epochs they expected. What
one command can do to one partition is stated once, for all four commands.
-/
namespace MessageBroker.Controller

open Std Lib Lib.Maps

/-- The update of the partition that an entry carries, if the state machine
accepts it. -/
def acceptedUpdate (lib : Stdlib) (key : TopicPartitionKey) (s : ControllerState)
    (log : Option RaftLog) : Option UpdatePartitionCommand :=
  match decodeCommand lib log with
  | .ok (.updatePartition cmd, _) =>
      if (⟨cmd.topic, cmd.partition⟩ : TopicPartitionKey) = key then
        match (apply lib s log).1 with
        | .ok () => some cmd
        | .error _ => none
      else none
  | _ => none

/-- The updates of a partition accepted along a run, in order. -/
def acceptedUpdates (lib : Stdlib) (key : TopicPartitionKey) (s : ControllerState)
    (logs : List (Option RaftLog)) : List UpdatePartitionCommand :=
  Runs.collect (apply lib) (acceptedUpdate lib key) s logs

/-- What one entry can do to one partition: nothing, create it, or move it on
from the epoch the accepted update expected. -/
theorem apply_partition_cases (lib : Stdlib) {s : ControllerState} (hs : Inv s)
    (log : Option RaftLog) (key : TopicPartitionKey) :
    ((apply lib s log).2.partitions[key]? = s.partitions[key]? ∧
      acceptedUpdate lib key s log = none) ∨
    (∃ spec : CreateTopicPartitionSpec, s.partitions[key]? = none ∧
      (apply lib s log).2.partitions[key]? = some spec.initial ∧
      acceptedUpdate lib key s log = none) ∨
    ∃ current cmd, s.partitions[key]? = some current ∧
      acceptedUpdate lib key s log = some cmd ∧
      cmd.expectedPartitionEpoch = current.partitionEpoch ∧
      (apply lib s log).2.partitions[key]? = some (current.updated cmd) := by
  unfold acceptedUpdate apply
  cases hd : decodeCommand lib log with
  | error e => exact .inl ⟨rfl, rfl⟩
  | ok c =>
    obtain ⟨cmd, index⟩ := c
    cases cmd with
    | registerBroker cmd =>
      simp only [applyCommand, wrap_snd]
      rcases registerBroker_cases lib s cmd index with h | ⟨_, _, _, _, _, _, h⟩ <;>
        exact .inl ⟨by rw [h], trivial⟩
    | unfenceBroker cmd =>
      simp only [applyCommand, wrap_snd]
      rcases unfenceBroker_cases s cmd with h | ⟨_, _, h⟩ <;> exact .inl ⟨by rw [h], trivial⟩
    | createTopic cmd =>
      simp only [applyCommand, wrap_snd]
      rcases createTopic_cases s cmd with ⟨-, h⟩ | ⟨-, hnew, -, hn, -, -, h⟩
      · exact .inl ⟨by rw [h], trivial⟩
      · rw [h]
        rcases lookup_insertSpecs hn s.partitions key with ⟨spec, -, hk, hv⟩ | ⟨-, hv⟩
        · refine .inr (.inl ⟨spec, ?_, hv, trivial⟩)
          -- a partition under the new name would have had its topic
          rw [hk]
          exact ExtTreeMap.getElem?_eq_none fun hm => hnew (hs.partition_topic _ hm)
        · exact .inl ⟨hv, trivial⟩
    | updatePartition cmd =>
      simp only [applyCommand, wrap_snd]
      rcases updatePartition_cases s cmd with ⟨⟨e, he⟩, h⟩ | ⟨current, hc, hexp, -, -, h⟩
      · refine .inl ⟨by rw [h], ?_⟩
        simp [wrap, he]
      · rw [h]
        simp only [wrap, lookup_insert]
        by_cases hk : (⟨cmd.topic, cmd.partition⟩ : TopicPartitionKey) = key
        · subst hk
          exact .inr (.inr ⟨current, cmd, hc, by simp, hexp, by simp⟩)
        · exact .inl ⟨by simp [hk], by simp [hk]⟩

/-! ## Epochs count the accepted updates -/

/-- The partition's epoch is the number of accepted updates, each of which
expected the number of those before it; the leader epoch lags behind. -/
structure Tracked (key : TopicPartitionKey) (s : ControllerState)
    (acc : List UpdatePartitionCommand) : Prop where
  expected : acc.map (·.expectedPartitionEpoch.toInt) = (List.range acc.length).map Int.ofNat
  absent : s.partitions[key]? = none → acc = []
  epoch : ∀ p, s.partitions[key]? = some p → p.partitionEpoch.toInt = acc.length
  leader : ∀ p, s.partitions[key]? = some p →
    0 ≤ p.leaderEpoch.toInt ∧ p.leaderEpoch.toInt ≤ acc.length

theorem toInt_add_one {e : Int32} (h0 : 0 ≤ e.toInt) (h : e.toInt + 1 < 2 ^ 31) :
    (e + 1).toInt = e.toInt + 1 := by
  rw [Int32.toInt_add, Int32.toInt_one, Int.bmod_eq_of_le] <;> omega

/-- An update never moves the leader epoch back, and moves it on with the leader. -/
theorem updated_leader {current : PartitionState} (cmd : UpdatePartitionCommand)
    (h0 : 0 ≤ current.leaderEpoch.toInt) (h : current.leaderEpoch.toInt + 1 < 2 ^ 31) :
    current.leaderEpoch.toInt ≤ (current.updated cmd).leaderEpoch.toInt ∧
    (current.updated cmd).leaderEpoch.toInt ≤ current.leaderEpoch.toInt + 1 ∧
    ((current.updated cmd).leaderEpoch.toInt = current.leaderEpoch.toInt →
      (current.updated cmd).leaderBrokerId = current.leaderBrokerId) := by
  have hadd := toInt_add_one h0 h
  unfold PartitionState.updated
  by_cases hl : cmd.leaderBrokerId = current.leaderBrokerId
  · simp [hl]
  · simp only [ne_eq, hl, not_false_eq_true, if_true, hadd]
    exact ⟨by omega, by omega, fun he => by omega⟩

theorem tracked_new (key : TopicPartitionKey) : Tracked key newControllerState [] where
  expected := rfl
  absent _ := rfl
  epoch p h := by simp [newControllerState] at h
  leader p h := by simp [newControllerState] at h

/-- One entry keeps the numbering, as long as the count fits an epoch. -/
theorem apply_tracked (lib : Stdlib) {s : ControllerState} (hs : Inv s) (log : Option RaftLog)
    {key : TopicPartitionKey} {acc : List UpdatePartitionCommand} (h : Tracked key s acc)
    (hlen : (acc ++ (acceptedUpdate lib key s log).toList).length < 2 ^ 31) :
    Tracked key (apply lib s log).2 (acc ++ (acceptedUpdate lib key s log).toList) := by
  rcases apply_partition_cases lib hs log key with
    ⟨hp, ha⟩ | ⟨spec, hnone, hp, ha⟩ | ⟨current, cmd, hc, ha, hexp, hp⟩
  · rw [ha, Option.toList_none, List.append_nil]
    exact ⟨h.expected, by rw [hp]; exact h.absent, by rw [hp]; exact h.epoch,
      by rw [hp]; exact h.leader⟩
  · rw [ha, Option.toList_none, List.append_nil, h.absent hnone]
    refine ⟨rfl, fun _ => rfl, fun p hp' => ?_, fun p hp' => ?_⟩ <;>
      rw [hp] at hp' <;> cases hp' <;> simp [CreateTopicPartitionSpec.initial]
  · rw [ha, Option.toList_some] at hlen ⊢
    have he := h.epoch current hc
    obtain ⟨h0, hle⟩ := h.leader current hc
    rw [List.length_append, List.length_singleton] at hlen
    refine ⟨?_, fun hn => ?_, fun p hp' => ?_, fun p hp' => ?_⟩
    · rw [List.map_append, h.expected, List.length_append, List.length_singleton, List.range_succ,
        List.map_append]
      simp [hexp, he]
    · rw [hp] at hn; cases hn
    · rw [hp] at hp'
      cases hp'
      have hadd := toInt_add_one (e := current.partitionEpoch) (by omega) (by omega)
      simp only [PartitionState.updated, hadd, he, List.length_append, List.length_singleton]
      rfl
    · rw [hp] at hp'
      cases hp'
      obtain ⟨hlo, hhi, -⟩ := updated_leader cmd h0 (by omega)
      rw [List.length_append, List.length_singleton]
      exact ⟨by omega, by omega⟩

/-- Between two states of a run the leader epoch has not gone back, and if it is
the same then so is the leader. -/
def LeaderFenced (p q : PartitionState) : Prop :=
  p.leaderEpoch.toInt ≤ q.leaderEpoch.toInt ∧
    (p.leaderEpoch.toInt = q.leaderEpoch.toInt → p.leaderBrokerId = q.leaderBrokerId)

theorem apply_leaderFenced (lib : Stdlib) {s : ControllerState} (hs : Inv s)
    (log : Option RaftLog) {key : TopicPartitionKey} {acc : List UpdatePartitionCommand}
    (h : Tracked key s acc)
    (hlen : (acc ++ (acceptedUpdate lib key s log).toList).length < 2 ^ 31) {p : PartitionState}
    (hp : ∃ q, s.partitions[key]? = some q ∧ LeaderFenced p q) :
    ∃ q, (apply lib s log).2.partitions[key]? = some q ∧ LeaderFenced p q := by
  obtain ⟨q, hq, hle, heq⟩ := hp
  rcases apply_partition_cases lib hs log key with
    ⟨hu, -⟩ | ⟨spec, hnone, -⟩ | ⟨current, cmd, hc, ha, -, hu⟩
  · exact ⟨q, by rw [hu]; exact hq, hle, heq⟩
  · rw [hq] at hnone; cases hnone
  · rw [hq] at hc
    cases hc
    rw [ha, Option.toList_some, List.length_append, List.length_singleton] at hlen
    obtain ⟨h0, hl⟩ := h.leader q hq
    obtain ⟨hlo, -, hsame⟩ := updated_leader cmd h0 (by omega)
    refine ⟨_, hu, by omega, fun he => ?_⟩
    rw [hsame (by omega)]
    exact heq (by omega)

/-! ## Whole runs -/

/-- The state after the first `k` entries. -/
def stateAt (lib : Stdlib) (logs : List (Option RaftLog)) (k : Nat) : ControllerState :=
  Runs.final (apply lib) newControllerState (logs.take k)

theorem inv_stateAt (lib : Stdlib) (logs : List (Option RaftLog)) (k : Nat) :
    Inv (stateAt lib logs k) :=
  Runs.invariant (apply lib) (P := Inv) (fun _ log h => apply_inv h log) inv_new _

/-- The numbering along a run, while the count fits an epoch. -/
theorem run_tracked (lib : Stdlib) (key : TopicPartitionKey) (logs : List (Option RaftLog))
    (hlen : (acceptedUpdates lib key newControllerState logs).length < 2 ^ 31) :
    Tracked key (Runs.final (apply lib) newControllerState logs)
      (acceptedUpdates lib key newControllerState logs) := by
  refine (Runs.invariant_collect (apply lib) (f := acceptedUpdate lib key)
    (P := fun s acc => Inv s ∧ (acc.length < 2 ^ 31 → Tracked key s acc))
    (fun s log acc h => ⟨apply_inv h.1 log, fun hl => ?_⟩)
    ⟨inv_new, fun _ => tracked_new key⟩ logs).2 hlen
  refine apply_tracked lib h.1 log (h.2 ?_) hl
  rw [List.length_append] at hl
  omega

/-- The accepted updates of a shorter run are a prefix of those of a longer one. -/
theorem acceptedUpdates_take_le (lib : Stdlib) (key : TopicPartitionKey)
    (logs : List (Option RaftLog)) (k : Nat) :
    (acceptedUpdates lib key newControllerState (logs.take k)).length ≤
      (acceptedUpdates lib key newControllerState logs).length := by
  conv_rhs => rw [← List.take_append_drop k logs, acceptedUpdates, Runs.collect_append]
  rw [List.length_append]
  exact Nat.le_add_right _ _

theorem run_leaderFenced (lib : Stdlib) (key : TopicPartitionKey)
    (logs more : List (Option RaftLog))
    (hlen : (acceptedUpdates lib key newControllerState (logs ++ more)).length < 2 ^ 31)
    {p : PartitionState}
    (hp : (Runs.final (apply lib) newControllerState logs).partitions[key]? = some p) :
    ∃ q, (Runs.final (apply lib) newControllerState (logs ++ more)).partitions[key]? = some q ∧
      LeaderFenced p q := by
  rw [acceptedUpdates, Runs.collect_append] at hlen
  rw [Runs.final_append]
  have hl := hlen
  rw [List.length_append] at hl
  refine ((Runs.invariant_collect (apply lib) (f := acceptedUpdate lib key)
    (P := fun s acc => Inv s ∧ (acc.length < 2 ^ 31 → Tracked key s acc ∧
      ∃ q, s.partitions[key]? = some q ∧ LeaderFenced p q))
    (fun s log acc h => ⟨apply_inv h.1 log, fun hl => ?_⟩)
    ⟨Runs.invariant (apply lib) (P := Inv) (fun _ log h => apply_inv h log) inv_new logs,
      fun _ => ⟨run_tracked lib key logs (by unfold acceptedUpdates; omega), p, hp, Int.le_refl _,
        fun _ => rfl⟩⟩ more).2 hlen).2
  have hacc : acc.length < 2 ^ 31 := by rw [List.length_append] at hl; omega
  obtain ⟨ht, hq⟩ := h.2 hacc
  exact ⟨apply_tracked lib h.1 log ht hl, apply_leaderFenced lib h.1 log ht hl hq⟩

/-- A partition that takes fewer than `2^31` updates is fenced by its epochs: no
two accepted updates expected the same epoch, the epoch counts them, and the
leader epoch identifies the leader and never goes back. -/
theorem partition_fenced_by_epochs (lib : Stdlib) (key : TopicPartitionKey)
    (logs : List (Option RaftLog))
    (hcount : (acceptedUpdates lib key newControllerState logs).length < 2 ^ 31) :
    ((acceptedUpdates lib key newControllerState logs).map (·.expectedPartitionEpoch)).Nodup ∧
    (∀ k p, (stateAt lib logs k).partitions[key]? = some p →
      p.partitionEpoch.toInt = (acceptedUpdates lib key newControllerState (logs.take k)).length) ∧
    (∀ i j p q, i ≤ j → (stateAt lib logs i).partitions[key]? = some p →
      (stateAt lib logs j).partitions[key]? = some q →
      p.leaderEpoch ≤ q.leaderEpoch ∧
        (p.leaderEpoch = q.leaderEpoch → p.leaderBrokerId = q.leaderBrokerId)) := by
  refine ⟨?_, fun k p hp => ?_, fun i j p q hij hp hq => ?_⟩
  · have h := (run_tracked lib key logs hcount).expected
    have hn : ((acceptedUpdates lib key newControllerState logs).map
        (·.expectedPartitionEpoch.toInt)).Nodup := by
      rw [h]
      exact List.nodup_range.map Int.ofNat_injective
    have hcomp : (fun c : UpdatePartitionCommand => c.expectedPartitionEpoch.toInt) =
      Int32.toInt ∘ UpdatePartitionCommand.expectedPartitionEpoch := rfl
    rw [hcomp, ← List.map_map] at hn
    exact hn.of_map _
  · have hk := acceptedUpdates_take_le lib key logs k
    exact (run_tracked lib key (logs.take k) (by omega)).epoch p hp
  · have hj := acceptedUpdates_take_le lib key logs j
    obtain ⟨more, hmore⟩ : ∃ more, logs.take j = logs.take i ++ more := by
      have h := List.take_append_drop i (logs.take j)
      rw [List.take_take, Nat.min_eq_left hij] at h
      exact ⟨_, h.symm⟩
    unfold stateAt at hp hq
    rw [hmore] at hj hq
    obtain ⟨q', hq', hle, heq⟩ := run_leaderFenced lib key (logs.take i) more (by omega) hp
    rw [hq] at hq'
    cases hq'
    exact ⟨Int32.le_iff_toInt_le.mpr hle, fun he => heq (by rw [he])⟩

/-! ## A small cluster in JSON

One broker, one topic and one update, as `EncodeCommand` writes them. The
decoders know these texts and the snapshot after the topic was created. -/

def textBytes (s : String) : List UInt8 := s.toUTF8.data.toList

/-- A decoder that knows some texts. -/
def knownTexts {α : Type} (rows : List (String × α)) (raw : List UInt8) : Option α :=
  (rows.find? fun r => textBytes r.1 == raw).map (·.2)

def envelopeText (type payload : String) : String :=
  "\x7b\"version\":1,\"type\":\"" ++ type ++ "\",\"payload\":" ++ payload ++ "\x7d"

def registerText : String :=
  "\x7b\"id\":1,\"incarnation_id\":\"a\",\"endpoints\":[\x7b\"name\":\"plaintext\"," ++
    "\"host\":\"h\",\"port\":9092,\"security_protocol\":0\x7d]\x7d"

def unfenceText : String := "\x7b\"broker_id\":1,\"broker_epoch\":1\x7d"

def createText : String :=
  "\x7b\"topic\":\"t\",\"partitions\":[\x7b\"partition\":0,\"leader_broker_id\":1," ++
    "\"replicas\":[1],\"isr\":[1]\x7d]\x7d"

def updateText : String :=
  "\x7b\"topic\":\"t\",\"partition\":0,\"expected_partition_epoch\":0,\"leader_broker_id\":1," ++
    "\"replicas\":[1],\"isr\":[1],\"allow_unclean_election\":false\x7d"

def snapshotText : String :=
  "\x7b\"version\":2,\"brokers\":[\x7b\"id\":1,\"incarnation_id\":\"a\",\"broker_epoch\":1," ++
    "\"endpoints\":[\x7b\"name\":\"PLAINTEXT\",\"host\":\"h\",\"port\":9092," ++
    "\"security_protocol\":0\x7d],\"fenced\":false\x7d],\"topics\":[\x7b\"name\":\"t\"\x7d]," ++
    "\"partitions\":[\x7b\"topic\":\"t\",\"partition\":0,\"leader_broker_id\":1," ++
    "\"leader_epoch\":0,\"partition_epoch\":0,\"replicas\":[1],\"isr\":[1]\x7d]\x7d"

def sampleSnapshot : SnapshotData where
  version := 2
  brokers := [⟨1, "a", 1, [⟨"PLAINTEXT", "h", 9092, 0⟩], false⟩]
  topics := [⟨"t"⟩]
  partitions := [⟨"t", 0, 1, 0, 0, [1], [1]⟩]

def sampleLib : Stdlib where
  unmarshalEnvelope := knownTexts
    [(envelopeText "RegisterBroker" registerText, ⟨1, .registerBroker, textBytes registerText⟩),
     (envelopeText "UnfenceBroker" unfenceText, ⟨1, .unfenceBroker, textBytes unfenceText⟩),
     (envelopeText "CreateTopic" createText, ⟨1, .createTopic, textBytes createText⟩),
     (envelopeText "UpdatePartition" updateText, ⟨1, .updatePartition, textBytes updateText⟩)]
  unmarshalRegisterBroker := knownTexts [(registerText, ⟨1, "a", [⟨"plaintext", "h", 9092, 0⟩]⟩)]
  unmarshalUnfenceBroker := knownTexts [(unfenceText, ⟨1, 1⟩)]
  unmarshalCreateTopic := knownTexts [(createText, ⟨"t", [⟨0, 1, [1], [1]⟩]⟩)]
  unmarshalUpdatePartition := knownTexts [(updateText, ⟨"t", 0, 0, 1, [1], [1], false⟩)]
  marshalSnapshot data := if data = sampleSnapshot then some (textBytes snapshotText) else none
  unmarshalSnapshot := knownTexts [(snapshotText, sampleSnapshot)]
  toUpper := Ascii.upper
  trimSpace := Ascii.trim

/-- Register, unfence, create, and the same update submitted twice. -/
def sampleLogs : List (Option RaftLog) :=
  [some ⟨1, textBytes (envelopeText "RegisterBroker" registerText)⟩,
   some ⟨2, textBytes (envelopeText "UnfenceBroker" unfenceText)⟩,
   some ⟨3, textBytes (envelopeText "CreateTopic" createText)⟩,
   some ⟨4, textBytes (envelopeText "UpdatePartition" updateText)⟩,
   some ⟨5, textBytes (envelopeText "UpdatePartition" updateText)⟩]

theorem partition_fenced_by_epochs_sample :
    (acceptedUpdates sampleLib ⟨"t", 0⟩ newControllerState sampleLogs).length = 1 ∧
    ∃ p q, (stateAt sampleLib sampleLogs 3).partitions[(⟨"t", 0⟩ : TopicPartitionKey)]? = some p ∧
      (stateAt sampleLib sampleLogs 5).partitions[(⟨"t", 0⟩ : TopicPartitionKey)]? = some q ∧
      q.partitionEpoch.toInt = 1 ∧ p.leaderEpoch ≤ q.leaderEpoch := by
  have hlen : (acceptedUpdates sampleLib ⟨"t", 0⟩ newControllerState sampleLogs).length = 1 := by
    decide +kernel
  have hp : (stateAt sampleLib sampleLogs 3).partitions[(⟨"t", 0⟩ : TopicPartitionKey)]? =
      some ⟨1, 0, 0, [1], [1]⟩ := by decide +kernel
  have hq : (stateAt sampleLib sampleLogs 5).partitions[(⟨"t", 0⟩ : TopicPartitionKey)]? =
      some ⟨1, 0, 1, [1], [1]⟩ := by decide +kernel
  obtain ⟨-, hepoch, hleader⟩ := partition_fenced_by_epochs sampleLib ⟨"t", 0⟩ sampleLogs
    (by rw [hlen]; decide)
  refine ⟨hlen, _, _, hp, hq, ?_, (hleader 3 5 _ _ (by decide) hp hq).1⟩
  have htake : sampleLogs.take 5 = sampleLogs := rfl
  rw [hepoch 5 _ hq, htake, hlen]
  rfl

end MessageBroker.Controller
