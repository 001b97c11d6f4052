import Mathlib

/-!
# Binary heaps through exchanges

A heap algorithm that reads its array by comparing two positions and changes it by
exchanging two positions only. It is given by the exchanges it makes, as a function of
the keys at the positions, so that whatever else an exchange does to the array is up to
the user. The parent of position `i` is `(i - 1) / 2`, and the least key is at
position 0.
-/
namespace MessageBroker.Lib.Heap

/-- The keys after an exchange. -/
def exchange {β : Type*} (k : Nat → β) (x : Nat × Nat) : Nat → β :=
  fun i => k (Equiv.swap x.1 x.2 i)

section Exchange

variable {β : Type*} (k : Nat → β) (i j : Nat)

@[simp] theorem exchange_left : exchange k (i, j) i = k j := by
  rw [exchange, Equiv.swap_apply_left]

@[simp] theorem exchange_right : exchange k (i, j) j = k i := by
  rw [exchange, Equiv.swap_apply_right]

theorem exchange_of_ne {x : Nat} (hi : x ≠ i) (hj : x ≠ j) : exchange k (i, j) x = k x := by
  rw [exchange, Equiv.swap_apply_of_ne_of_ne hi hj]

end Exchange

variable {β : Type*} [LinearOrder β]

def parent (i : Nat) : Nat := (i - 1) / 2

theorem parent_lt {i : Nat} (h : 0 < i) : parent i < i := by
  unfold parent
  omega

/-- Every one of the first `n` keys is at least its parent's. -/
def Ordered (k : Nat → β) (n : Nat) : Prop := ∀ i, 0 < i → i < n → k (parent i) ≤ k i

theorem Ordered.root_le {k : Nat → β} {n : Nat} (h : Ordered k n) {i : Nat} (hi : i < n) :
    k 0 ≤ k i := by
  induction i using Nat.strongRecOn with
  | ind i ih =>
    by_cases h0 : i = 0
    · rw [h0]
    · have hp := parent_lt (Nat.pos_of_ne_zero h0)
      exact (ih (parent i) hp (hp.trans hi)).trans (h i (Nat.pos_of_ne_zero h0) hi)

/-! ## Carrying a key up -/

/-- The exchanges that carry the key at `j` up. -/
def up : Nat → (Nat → β) → Nat → List (Nat × Nat)
  | 0, _, _ => []
  | fuel + 1, k, j =>
      let i := parent j
      if i = j ∨ ¬ k j < k i then [] else (i, j) :: up fuel (exchange k (i, j)) i

/-- All is in order but `j` and its parent, also with `j` left out. -/
structure UpOrder (k : Nat → β) (n j : Nat) : Prop where
  except : ∀ i, 0 < i → i < n → i ≠ j → k (parent i) ≤ k i
  grand : 0 < j → ∀ c, 0 < c → c < n → parent c = j → k (parent j) ≤ k c

theorem UpOrder.move {k : Nat → β} {n j : Nat} (h : UpOrder k n j) (hj : 0 < j) (hn : j < n)
    (hlt : k j < k (parent j)) : UpOrder (exchange k (parent j, j)) n (parent j) := by
  have hp := parent_lt hj
  have habove : ∀ c, 0 < c → c < n → parent c = parent j → c ≠ j → k (parent j) ≤ k c := by
    intro c hc hcn hpc hne
    have hc' := h.except c hc hcn hne
    rwa [hpc] at hc'
  constructor
  · intro i hi hin hne
    by_cases hij : i = j
    · rw [hij, exchange_left, exchange_right]
      exact hlt.le
    rw [exchange_of_ne k _ _ hne hij]
    by_cases hpp : parent i = parent j
    · rw [hpp, exchange_left]
      exact hlt.le.trans (habove i hi hin hpp hij)
    by_cases hpj : parent i = j
    · rw [hpj, exchange_right]
      exact h.grand hj i hi hin hpj
    rw [exchange_of_ne k _ _ hpp hpj]
    exact h.except i hi hin hij
  · intro hpos c hc hcn hpc
    have hpp := parent_lt hpos
    have htop : k (parent (parent j)) ≤ k (parent j) :=
      h.except (parent j) hpos (hp.trans hn) hp.ne
    rw [exchange_of_ne k _ _ hpp.ne (hpp.trans hp).ne]
    by_cases hcj : c = j
    · rw [hcj, exchange_right]
      exact htop
    have hcp : c ≠ parent j := by
      intro heq
      have hlt' := parent_lt hc
      omega
    rw [exchange_of_ne k _ _ hcp hcj]
    exact htop.trans (habove c hc hcn hpc hcj)

theorem up_ordered {fuel n j : Nat} {k : Nat → β} (hfuel : j < fuel) (hn : j < n)
    (h : UpOrder k n j) : Ordered ((up fuel k j).foldl exchange k) n := by
  induction fuel generalizing k j with
  | zero => omega
  | succ fuel ih =>
    rw [up]
    by_cases hstop : parent j = j ∨ ¬ k j < k (parent j)
    · rw [if_pos hstop]
      intro i hi hin
      by_cases hij : i = j
      · subst hij
        rcases hstop with hroot | hle
        · exact absurd hroot (parent_lt hi).ne
        · exact not_lt.mp hle
      · exact h.except i hi hin hij
    · rw [if_neg hstop]
      rw [not_or, not_not] at hstop
      have hj : 0 < j := by
        rcases Nat.eq_zero_or_pos j with h0 | h0
        · exact absurd (by rw [h0]; rfl) hstop.1
        · exact h0
      have hp := parent_lt hj
      exact ih (by omega) (hp.trans hn) (h.move hj hn hstop.2)

/-! ## Carrying a key down -/

/-- The child of `i` with the lesser key among the first `n` positions. -/
def lesserChild (n : Nat) (k : Nat → β) (i : Nat) : Nat :=
  if 2 * i + 2 < n ∧ k (2 * i + 2) < k (2 * i + 1) then 2 * i + 2 else 2 * i + 1

/-- The exchanges that carry the key at `i` down within the first `n` positions. -/
def down (n : Nat) : Nat → (Nat → β) → Nat → List (Nat × Nat)
  | 0, _, _ => []
  | fuel + 1, k, i =>
      if n ≤ 2 * i + 1 then []
      else
        let j := lesserChild n k i
        if ¬ k j < k i then [] else (i, j) :: down n fuel (exchange k (i, j)) j

section Down

variable {n fuel i : Nat} {k : Nat → β}

theorem down_of_leaf (h : n ≤ 2 * i + 1) : down n (fuel + 1) k i = [] := by
  rw [down, if_pos h]

theorem down_of_le (h : k i ≤ k (lesserChild n k i)) : down n (fuel + 1) k i = [] := by
  rw [down]
  split
  · rfl
  · exact if_pos (not_lt.mpr h)

theorem down_of_lt (hleaf : ¬ n ≤ 2 * i + 1) (h : k (lesserChild n k i) < k i) :
    down n (fuel + 1) k i = (i, lesserChild n k i) ::
      down n fuel (exchange k (i, lesserChild n k i)) (lesserChild n k i) := by
  rw [down, if_neg hleaf]
  exact if_neg (not_not.mpr h)

end Down

section LesserChild

variable {n i : Nat} (k : Nat → β)

theorem parent_lesserChild : parent (lesserChild n k i) = i := by
  unfold lesserChild parent
  split <;> omega

theorem lt_lesserChild : i < lesserChild n k i := by
  unfold lesserChild
  split <;> omega

theorem lesserChild_lt (h : ¬ n ≤ 2 * i + 1) : lesserChild n k i < n := by
  unfold lesserChild
  split <;> omega

theorem lesserChild_le {c : Nat} (hc : 0 < c) (hcn : c < n) (hpc : parent c = i) :
    k (lesserChild n k i) ≤ k c := by
  have hcases : c = 2 * i + 1 ∨ c = 2 * i + 2 := by
    unfold parent at hpc
    omega
  unfold lesserChild
  split
  · rename_i hless
    rcases hcases with rfl | rfl
    · exact hless.2.le
    · exact le_refl _
  · rename_i hless
    rcases hcases with rfl | rfl
    · exact le_refl _
    · rw [not_and, not_lt] at hless
      exact hless hcn

end LesserChild

/-- All is in order but `i` and its children, also with `i` left out. -/
structure DownOrder (k : Nat → β) (n i : Nat) : Prop where
  except : ∀ c, 0 < c → c < n → parent c ≠ i → k (parent c) ≤ k c
  grand : 0 < i → ∀ c, 0 < c → c < n → parent c = i → k (parent i) ≤ k c

/-- After an exchange with the lesser child, only this child may be out of order; whether
`i` was in order with its parent does not matter. -/
theorem DownOrder.move {k : Nat → β} {n i : Nat}
    (hexcept : ∀ c, 0 < c → c < n → parent c ≠ i → c ≠ i → k (parent c) ≤ k c)
    (hgrand : 0 < i → ∀ c, 0 < c → c < n → parent c = i → k (parent i) ≤ k c)
    (hn : ¬ n ≤ 2 * i + 1) (hlt : k (lesserChild n k i) < k i) :
    DownOrder (exchange k (i, lesserChild n k i)) n (lesserChild n k i) := by
  have hchild := parent_lesserChild (n := n) (i := i) k
  have hgt := lt_lesserChild (n := n) (i := i) k
  have hjn := lesserChild_lt k hn
  have hle : ∀ c, 0 < c → c < n → parent c = i → k (lesserChild n k i) ≤ k c :=
    fun c hc hcn hpc => lesserChild_le k hc hcn hpc
  generalize lesserChild n k i = j at hchild hgt hjn hlt hle ⊢
  constructor
  · intro c hc hcn hpc
    by_cases hci : c = i
    · subst hci
      have hp := parent_lt hc
      rw [exchange_left, exchange_of_ne k _ _ hp.ne (hp.trans hgt).ne]
      exact hgrand hc j (hc.trans hgt) hjn hchild
    by_cases hcj : c = j
    · rw [hcj, hchild, exchange_left, exchange_right]
      exact hlt.le
    rw [exchange_of_ne k _ _ hci hcj]
    by_cases hpi : parent c = i
    · rw [hpi, exchange_left]
      exact hle c hc hcn hpi
    · rw [exchange_of_ne k _ _ hpi hpc]
      exact hexcept c hc hcn hpi hci
  · intro hj c hc hcn hpc
    have hp := parent_lt hc
    have hcj := hexcept c hc hcn (by omega) (by omega)
    rw [hchild, exchange_left, exchange_of_ne k _ _ (by omega) (by omega)]
    rwa [hpc] at hcj

theorem down_ordered {fuel n i : Nat} {k : Nat → β} (hfuel : n - i < fuel)
    (h : DownOrder k n i) : Ordered ((down n fuel k i).foldl exchange k) n := by
  induction fuel generalizing k i with
  | zero => omega
  | succ fuel ih =>
    by_cases hleaf : n ≤ 2 * i + 1
    · rw [down_of_leaf hleaf]
      intro c hc hcn
      exact h.except c hc hcn (by unfold parent; omega)
    rcases lt_or_ge (k (lesserChild n k i)) (k i) with hlt | hle
    · have hgt := lt_lesserChild (n := n) (i := i) k
      have hjn := lesserChild_lt k hleaf
      rw [down_of_lt hleaf hlt, List.foldl_cons]
      exact ih (by omega)
        (DownOrder.move (fun c hc hcn hpc _ => h.except c hc hcn hpc) h.grand hleaf hlt)
    · rw [down_of_le hle]
      intro c hc hcn
      by_cases hpc : parent c = i
      · rw [hpc]
        exact hle.trans (lesserChild_le k hc hcn hpc)
      · exact h.except c hc hcn hpc

/-! ## Pushing, popping and removing -/

/-- The exchanges after an element was put at the end of a heap of `n` elements. -/
def pushExchanges (k : Nat → β) (n : Nat) : List (Nat × Nat) := up (n + 1) k n

/-- The exchanges that take the root of `n + 1` elements to the end. -/
def popExchanges (k : Nat → β) (n : Nat) : List (Nat × Nat) :=
  (0, n) :: down n (n + 1) (exchange k (0, n)) 0

/-- The exchanges that take the element at `i` of `n + 1` elements to the end. -/
def removeExchanges (k : Nat → β) (n i : Nat) : List (Nat × Nat) :=
  if n = i then []
  else
    let k' := exchange k (i, n)
    (i, n) :: if down n (n + 1) k' i = [] then up (n + 1) k' i else down n (n + 1) k' i

theorem push_ordered {k : Nat → β} {n : Nat} (h : Ordered k n) :
    Ordered ((pushExchanges k n).foldl exchange k) (n + 1) := by
  refine up_ordered (Nat.lt_succ_self n) (Nat.lt_succ_self n) ⟨?_, ?_⟩
  · intro i hi hin hne
    exact h i hi (by omega)
  · intro hn c hc hcn hpc
    have := parent_lt hc
    omega

theorem pop_ordered {k : Nat → β} {n : Nat} (h : Ordered k (n + 1)) :
    Ordered ((popExchanges k n).foldl exchange k) n := by
  rw [popExchanges, List.foldl_cons]
  refine down_ordered (by omega) ⟨?_, fun h0 => absurd h0 (lt_irrefl 0)⟩
  intro c hc hcn hpc
  have hp := parent_lt hc
  rw [exchange_of_ne k _ _ hpc (by omega), exchange_of_ne k _ _ hc.ne' (by omega)]
  exact h c hc (by omega)

theorem remove_ordered {k : Nat → β} {n i : Nat} (h : Ordered k (n + 1)) (hi : i ≤ n) :
    Ordered ((removeExchanges k n i).foldl exchange k) n := by
  unfold removeExchanges
  by_cases hlast : n = i
  · rw [if_pos hlast]
    exact fun c hc hcn => h c hc (by omega)
  rw [if_neg hlast, List.foldl_cons]
  have hin : i < n := by omega
  have hkept : ∀ x, x < n → x ≠ i → exchange k (i, n) x = k x :=
    fun x hx hne => exchange_of_ne k _ _ hne hx.ne
  -- the key that comes from the end may be out of order on either side
  have hexcept : ∀ c, 0 < c → c < n → parent c ≠ i → c ≠ i →
      exchange k (i, n) (parent c) ≤ exchange k (i, n) c := by
    intro c hc hcn hpc hci
    rw [hkept c hcn hci, hkept (parent c) ((parent_lt hc).trans hcn) hpc]
    exact h c hc (by omega)
  have hgrand : 0 < i → ∀ c, 0 < c → c < n → parent c = i →
      exchange k (i, n) (parent i) ≤ exchange k (i, n) c := by
    intro hpos c hc hcn hpc
    have hp := parent_lt hpos
    have hgt := parent_lt hc
    rw [hkept (parent i) (hp.trans hin) hp.ne, hkept c hcn (by omega)]
    have hcp := h c hc (by omega)
    rw [hpc] at hcp
    exact (h i hpos (by omega)).trans hcp
  generalize exchange k (i, n) = k' at hexcept hgrand ⊢
  by_cases hleaf : n ≤ 2 * i + 1
  · rw [if_pos (down_of_leaf hleaf)]
    refine up_ordered (by omega) hin ⟨fun c hc hcn hci => ?_, hgrand⟩
    exact hexcept c hc hcn (by unfold parent; omega) hci
  rcases lt_or_ge (k' (lesserChild n k' i)) (k' i) with hlt | hle
  · have hgt := lt_lesserChild (n := n) (i := i) k'
    have hmoves : down n (n + 1) k' i = _ := down_of_lt hleaf hlt
    rw [if_neg (by rw [hmoves]; exact List.cons_ne_nil _ _), hmoves, List.foldl_cons]
    exact down_ordered (by omega) (DownOrder.move hexcept hgrand hleaf hlt)
  · rw [if_pos (down_of_le hle)]
    refine up_ordered (by omega) hin ⟨fun c hc hcn hci => ?_, hgrand⟩
    by_cases hpc : parent c = i
    · rw [hpc]
      exact hle.trans (lesserChild_le k' hc hcn hpc)
    · exact hexcept c hc hcn hpc hci

/-! ## Where the exchanges are -/

theorem up_lt {fuel n j : Nat} {k : Nat → β} (hj : j < n) :
    ∀ x ∈ up fuel k j, x.1 < n ∧ x.2 < n := by
  induction fuel generalizing k j with
  | zero => exact fun x hx => absurd hx List.not_mem_nil
  | succ fuel ih =>
    intro x hx
    rw [up] at hx
    have hp : parent j ≤ j := by
      unfold parent
      omega
    split at hx
    · exact absurd hx List.not_mem_nil
    · rcases List.mem_cons.mp hx with rfl | hx
      · exact ⟨by omega, hj⟩
      · exact ih (by omega) x hx

theorem down_lt {fuel n i : Nat} {k : Nat → β} :
    ∀ x ∈ down n fuel k i, x.1 < n ∧ x.2 < n := by
  induction fuel generalizing k i with
  | zero => exact fun x hx => absurd hx List.not_mem_nil
  | succ fuel ih =>
    intro x hx
    rw [down] at hx
    split at hx
    · exact absurd hx List.not_mem_nil
    rename_i hleaf
    have hjn := lesserChild_lt k hleaf
    simp only at hx
    split at hx
    · exact absurd hx List.not_mem_nil
    · rcases List.mem_cons.mp hx with rfl | hx
      · exact ⟨by omega, hjn⟩
      · exact ih x hx

theorem pushExchanges_lt (k : Nat → β) (n : Nat) :
    ∀ x ∈ pushExchanges k n, x.1 < n + 1 ∧ x.2 < n + 1 :=
  up_lt (Nat.lt_succ_self n)

/-- After the first exchange, the popped element stays where it is. -/
theorem popExchanges_tail_lt (k : Nat → β) (n : Nat) :
    ∀ x ∈ (popExchanges k n).tail, x.1 < n ∧ x.2 < n :=
  down_lt

theorem removeExchanges_tail_lt (k : Nat → β) {n i : Nat} (hi : i ≤ n) :
    ∀ x ∈ (removeExchanges k n i).tail, x.1 < n ∧ x.2 < n := by
  unfold removeExchanges
  split
  · exact fun x hx => absurd hx List.not_mem_nil
  · rw [List.tail_cons]
    split
    · exact up_lt (by omega)
    · exact down_lt

end MessageBroker.Lib.Heap
