import MessageBroker.Controller.Snapshot

/-!
# What the validation loops accept

Every loop of the controller that walks a list with a set of elements already
seen is characterised once: when it accepts, and which set it returns. The
handlers' proofs then speak about `ValidSpec` and never about the loops.
-/
namespace MessageBroker.Controller

open Std Lib.Maps

/-- Registered and not fenced. -/
def Active (brokers : BrokerMap) (id : Int32) : Prop :=
  ∃ b, brokers[id]? = some b ∧ b.fenced = false

theorem fencedOrUnknown_eq_false {brokers : BrokerMap} {id : Int32} :
    fencedOrUnknown brokers id = false ↔ Active brokers id := by
  unfold fencedOrUnknown Active
  cases h : brokers[id]? with
  | none => simp
  | some b => simp

theorem scanReplicas_ok {brokers : BrokerMap} {rs : List Int32} :
    ∀ {seen out : List Int32}, scanReplicas brokers seen rs = .ok out ↔
      (rs.Nodup ∧ (∀ r ∈ rs, r ∉ seen) ∧ ∀ r ∈ rs, r ∈ brokers) ∧
        out = rs.reverse ++ seen := by
  induction rs with
  | nil =>
    intro seen out
    simp only [scanReplicas, Except.ok.injEq, List.nodup_nil, List.not_mem_nil, false_imp_iff,
      implies_true, and_self, true_and, List.reverse_nil, List.nil_append]
    exact eq_comm
  | cons r rs ih =>
    intro seen out
    unfold scanReplicas
    by_cases hseen : r ∈ seen
    · simp [hseen]
    · by_cases hreg : brokers[r]?.isNone
      · have hnone : r ∉ brokers := by simpa using hreg
        simp [hseen, hnone]
      · have hsome : r ∈ brokers := by simpa using hreg
        rw [if_neg hseen, if_neg hreg, ih]
        simp only [List.nodup_cons, List.mem_cons, List.reverse_cons, List.append_assoc,
          List.cons_append, List.nil_append, forall_eq_or_imp, hseen, hsome, true_and,
          not_false_eq_true, not_or]
        constructor
        · rintro ⟨⟨hn, hm, hb⟩, rfl⟩
          exact ⟨⟨⟨fun h => (hm r h).1 rfl, hn⟩, fun x hx => (hm x hx).2, hb⟩, rfl⟩
        · rintro ⟨⟨⟨hr, hn⟩, hm, hb⟩, rfl⟩
          exact ⟨⟨hn, fun x hx => ⟨fun he => hr (he ▸ hx), hm x hx⟩, hb⟩, rfl⟩

theorem scanIsr_ok {brokers : BrokerMap} {replicas replicaSet ms : List Int32} :
    ∀ {seen out : List Int32}, scanIsr brokers replicas replicaSet seen ms = .ok out ↔
      (ms.Nodup ∧ (∀ m ∈ ms, m ∉ seen) ∧ ∀ m ∈ ms, m ∈ replicaSet ∧ Active brokers m) ∧
        out = ms.reverse ++ seen := by
  induction ms with
  | nil =>
    intro seen out
    simp only [scanIsr, Except.ok.injEq, List.nodup_nil, List.not_mem_nil, false_imp_iff,
      implies_true, and_self, true_and, List.reverse_nil, List.nil_append]
    exact eq_comm
  | cons m ms ih =>
    intro seen out
    unfold scanIsr
    by_cases hseen : m ∈ seen
    · simp [hseen]
    · by_cases hrep : m ∈ replicaSet
      · by_cases hact : fencedOrUnknown brokers m = true
        · have hna : ¬ Active brokers m := fun h => by
            rw [fencedOrUnknown_eq_false.mpr h] at hact
            cases hact
          simp [hseen, hrep, hact, hna]
        · have ha : Active brokers m := fencedOrUnknown_eq_false.mp (by simpa using hact)
          rw [if_neg hseen, if_neg (not_not_intro hrep), if_neg hact, ih]
          simp only [List.nodup_cons, List.mem_cons, List.reverse_cons, List.append_assoc,
            List.cons_append, List.nil_append, forall_eq_or_imp, hseen, hrep, ha, true_and,
            not_false_eq_true, not_or, and_self]
          constructor
          · rintro ⟨⟨hn, hm, hb⟩, rfl⟩
            exact ⟨⟨⟨fun h => (hm m h).1 rfl, hn⟩, fun x hx => (hm x hx).2, hb⟩, rfl⟩
          · rintro ⟨⟨⟨hr, hn⟩, hm, hb⟩, rfl⟩
            exact ⟨⟨hn, fun x hx => ⟨fun he => hr (he ▸ hx), hm x hx⟩, hb⟩, rfl⟩
      · simp [hseen, hrep]

/-- An assignment the controller accepts against the registered brokers. -/
structure ValidSpec (brokers : BrokerMap) (leader : Int32) (replicas isr : List Int32) : Prop where
  nonempty : replicas ≠ []
  replicas_nodup : replicas.Nodup
  registered : ∀ r ∈ replicas, r ∈ brokers
  isr_nodup : isr.Nodup
  isr_replicas : ∀ m ∈ isr, m ∈ replicas
  isr_active : ∀ m ∈ isr, Active brokers m
  leader_isr : leader ∈ isr

theorem validatePartitionSpec_ok {brokers : BrokerMap} {leader : Int32}
    {replicas isr : List Int32} :
    validatePartitionSpec brokers leader replicas isr = .ok () ↔
      ValidSpec brokers leader replicas isr := by
  unfold validatePartitionSpec
  constructor
  · intro h
    by_cases hne : replicas = []
    · simp [hne] at h
    rw [if_neg hne] at h
    cases hr : scanReplicas brokers [] replicas with
    | error e => simp [hr] at h
    | ok replicaSet =>
      obtain ⟨⟨hrn, -, hreg⟩, rfl⟩ := scanReplicas_ok.mp hr
      simp only [hr, List.append_nil, List.mem_reverse] at h
      split at h
      · cases h
      cases hi : scanIsr brokers replicas replicas.reverse [] isr with
      | error e => simp [hi] at h
      | ok isrSet =>
        obtain ⟨⟨hin, -, hact⟩, rfl⟩ := scanIsr_ok.mp hi
        simp only [hi, List.append_nil, List.mem_reverse] at h hact
        split at h
        · cases h
        · rename_i hleader
          exact ⟨hne, hrn, hreg, hin, fun m hm => (hact m hm).1, fun m hm => (hact m hm).2,
            by simpa using hleader⟩
  · intro h
    have hr : scanReplicas brokers [] replicas = .ok (replicas.reverse ++ []) :=
      scanReplicas_ok.mpr ⟨⟨h.replicas_nodup, by simp, h.registered⟩, rfl⟩
    have hi : scanIsr brokers replicas replicas.reverse [] isr = .ok (isr.reverse ++ []) :=
      scanIsr_ok.mpr ⟨⟨h.isr_nodup, by simp,
        fun m hm => ⟨List.mem_reverse.mpr (h.isr_replicas m hm), h.isr_active m hm⟩⟩, rfl⟩
    have hrep : leader ∈ replicas := h.isr_replicas leader h.leader_isr
    have hf : fencedOrUnknown brokers leader = false :=
      fencedOrUnknown_eq_false.mpr (h.isr_active leader h.leader_isr)
    simp only [List.append_nil] at hr hi
    simp [h.nonempty, hr, hi, hrep, h.leader_isr, hf]

/-- Validity only looks at which brokers are registered and which are active. -/
theorem ValidSpec.mono {brokers brokers' : BrokerMap} {leader : Int32} {replicas isr : List Int32}
    (h : ValidSpec brokers leader replicas isr)
    (hreg : ∀ r ∈ replicas, r ∈ brokers → r ∈ brokers')
    (hact : ∀ m ∈ isr, Active brokers m → Active brokers' m) :
    ValidSpec brokers' leader replicas isr where
  nonempty := h.nonempty
  replicas_nodup := h.replicas_nodup
  registered r hr := hreg r hr (h.registered r hr)
  isr_nodup := h.isr_nodup
  isr_replicas := h.isr_replicas
  isr_active m hm := hact m hm (h.isr_active m hm)
  leader_isr := h.leader_isr

theorem scanSpecs_ok {brokers : BrokerMap} {specs : List CreateTopicPartitionSpec} :
    ∀ {seen out : List Int32}, scanSpecs brokers seen specs = .ok out →
      ((specs.map (·.partition)).Nodup ∧ ∀ spec ∈ specs, 0 ≤ spec.partition ∧
        spec.partition ∉ seen ∧ ValidSpec brokers spec.leaderBrokerId spec.replicas spec.isr) ∧
        out = (specs.map (·.partition)).reverse ++ seen := by
  induction specs with
  | nil =>
    intro seen out h
    simp only [scanSpecs, Except.ok.injEq] at h
    simp [h]
  | cons spec specs ih =>
    intro seen out h
    unfold scanSpecs at h
    split at h
    · cases h
    · rename_i hneg
      split at h
      · cases h
      · rename_i hseen
        cases hv : validatePartitionSpec brokers spec.leaderBrokerId spec.replicas spec.isr with
        | error e => simp [hv] at h
        | ok u =>
          simp only [hv] at h
          obtain ⟨⟨hn, hall⟩, rfl⟩ := ih h
          refine ⟨⟨?_, ?_⟩, by simp⟩
          · rw [List.map_cons, List.nodup_cons]
            refine ⟨fun hm => ?_, hn⟩
            obtain ⟨x, hx, he⟩ := List.mem_map.mp hm
            exact (hall x hx).2.1 (by simp [he])
          · intro x hx
            rcases List.mem_cons.mp hx with rfl | hx
            · exact ⟨by grind, hseen, validatePartitionSpec_ok.mp hv⟩
            · obtain ⟨h0, hs, hval⟩ := hall x hx
              exact ⟨h0, fun hm => hs (List.mem_cons_of_mem _ hm), hval⟩

/-- A scan that accepts its specifications returns the ids it walked. -/
theorem mem_scanSpecs {brokers : BrokerMap} {specs : List CreateTopicPartitionSpec}
    {out : List Int32} (h : scanSpecs brokers [] specs = .ok out) (p : Int32) :
    p ∈ out ↔ p ∈ specs.map (·.partition) := by
  obtain ⟨-, rfl⟩ := scanSpecs_ok h
  simp

/-! ## Contiguous ranges of 32-bit ids -/

theorem mem_int32Range {count p : Int32} :
    p ∈ int32Range count ↔ 0 ≤ p.toInt ∧ p.toInt < count.toInt := by
  unfold int32Range
  have hc := Int32.toInt_lt count
  simp only [List.mem_map, List.mem_range]
  constructor
  · rintro ⟨n, hn, rfl⟩
    rw [Int32.toInt_ofNat_of_lt (by omega)]
    omega
  · rintro ⟨h0, hlt⟩
    refine ⟨p.toInt.toNat, by omega, ?_⟩
    apply Int32.toInt_inj.mp
    rw [Int32.toInt_ofNat_of_lt (by omega)]
    omega

/-- Distinct non-negative ids are distinct naturals below `2^31`. -/
theorem subperm_range {ids : List Int32} (hn : ids.Nodup) (h0 : ∀ p ∈ ids, 0 ≤ p.toInt) :
    (ids.map fun p => p.toInt.toNat).Subperm (List.range (2 ^ 31)) := by
  apply List.subperm_of_subset
  · refine hn.map_on fun a ha b hb he => ?_
    have h1 := h0 a ha
    have h2 := h0 b hb
    exact Int32.toInt_inj.mp (by omega)
  · intro n hm
    obtain ⟨p, -, rfl⟩ := List.mem_map.mp hm
    have := Int32.toInt_lt p
    exact List.mem_range.mpr (by omega)

/-- Distinct non-negative ids that cover `0..length-1`, tested with a wrapping
counter, are exactly these. At `2^31` ids the counter wraps and tests nothing,
but then there is no room for any other id. -/
theorem contiguous_ids {ids : List Int32} (hn : ids.Nodup) (h0 : ∀ p ∈ ids, 0 ≤ p.toInt)
    (hc : ∀ p ∈ int32Range (Int32.ofNat ids.length), p ∈ ids) (p : Int32) :
    p ∈ ids ↔ 0 ≤ p.toInt ∧ p.toInt < ids.length := by
  have hsub := subperm_range hn h0
  have hlen : ids.length ≤ 2 ^ 31 := by simpa using hsub.length_le
  have key : ∀ q : Int32, 0 ≤ q.toInt → q.toInt < ids.length → q ∈ ids := by
    rcases Nat.lt_or_ge ids.length (2 ^ 31) with hlt | hge
    · intro q hq0 hq
      apply hc
      rw [mem_int32Range, Int32.toInt_ofNat_of_lt hlt]
      exact ⟨hq0, hq⟩
    · have hperm := hsub.perm_of_length_le (by rw [List.length_map, List.length_range]; omega)
      intro q hq0 _
      have hq := Int32.toInt_lt q
      have hm : q.toInt.toNat ∈ ids.map fun p => p.toInt.toNat :=
        hperm.mem_iff.mpr (List.mem_range.mpr (by omega))
      obtain ⟨x, hx, he⟩ := List.mem_map.mp hm
      have hx0 := h0 x hx
      have : x = q := Int32.toInt_inj.mp (by omega)
      exact this ▸ hx
  refine ⟨fun hp => ⟨h0 p hp, ?_⟩, fun h => key p h.1 h.2⟩
  -- a member at or above the count would leave the list longer than itself
  by_contra hge
  have hrange : ((List.range ids.length).map Int32.ofNat).Nodup := by
    refine List.nodup_range.map_on fun a ha b hb he => ?_
    have h1 := List.mem_range.mp ha
    have h2 := List.mem_range.mp hb
    have h3 := congrArg Int32.toInt he
    rw [Int32.toInt_ofNat_of_lt (by omega), Int32.toInt_ofNat_of_lt (by omega)] at h3
    omega
  have hcons : (p :: (List.range ids.length).map Int32.ofNat).Nodup := by
    refine List.nodup_cons.mpr ⟨fun hm => ?_, hrange⟩
    obtain ⟨n, hn', rfl⟩ := List.mem_map.mp hm
    have h1 := List.mem_range.mp hn'
    rw [Int32.toInt_ofNat_of_lt (by omega)] at hge
    omega
  have hsub : p :: (List.range ids.length).map Int32.ofNat ⊆ ids := by
    intro q hq
    rcases List.mem_cons.mp hq with rfl | hq
    · exact hp
    · obtain ⟨n, hn', rfl⟩ := List.mem_map.mp hq
      have h1 := List.mem_range.mp hn'
      apply key <;> rw [Int32.toInt_ofNat_of_lt (by omega)] <;> omega
  have hlen' := (List.subperm_of_subset hcons hsub).length_le
  simp at hlen'

end MessageBroker.Controller
