import Mathlib

/-!
# Binary search

`sortSearch` is the usual search for the first index at which a monotone test
holds, `lastLE` the closed-interval search for the last entry not above a
target. Both run on fuel; the index range is enough of it.
-/
namespace MessageBroker.Lib.Search

/-- The loop over `[i, j)`. -/
def searchLoop (f : Nat → Bool) : Nat → Nat → Nat → Nat
  | 0, i, _ => i
  | fuel + 1, i, j =>
      if i < j then
        let h := (i + j) / 2
        if f h then searchLoop f fuel i h else searchLoop f fuel (h + 1) j
      else i

def sortSearch (n : Nat) (f : Nat → Bool) : Nat := searchLoop f n 0 n

theorem searchLoop_le (f : Nat → Bool) : ∀ (fuel : Nat) {i j : Nat}, i ≤ j →
    searchLoop f fuel i j ≤ j := by
  intro fuel
  induction fuel with
  | zero => intro i j hij; exact hij
  | succ fuel ih =>
    intro i j hij
    unfold searchLoop
    simp only
    split
    · split
      · exact (ih (by omega)).trans (by omega)
      · exact ih (by omega)
    · exact hij

/-- Whatever the test, the search stays in its range. -/
theorem sortSearch_le (n : Nat) (f : Nat → Bool) : sortSearch n f ≤ n :=
  searchLoop_le f n (Nat.zero_le n)

/-- The loop keeps the test false below its range and true from its end on. -/
theorem searchLoop_spec {f : Nat → Bool} {n : Nat} :
    ∀ (fuel i j : Nat), i ≤ j → j ≤ n → j - i ≤ fuel →
      (∀ k, k < i → f k = false) → (∀ k, j ≤ k → k < n → f k = true) →
      (∀ a b, a ≤ b → b < n → f a = true → f b = true) →
      let r := searchLoop f fuel i j
      r ≤ n ∧ (∀ k, k < r → f k = false) ∧ ∀ k, r ≤ k → k < n → f k = true := by
  intro fuel
  induction fuel with
  | zero =>
    intro i j hij hjn hfuel hlo hhi hmono
    have : i = j := by omega
    subst this
    exact ⟨hjn, hlo, hhi⟩
  | succ fuel ih =>
    intro i j hij hjn hfuel hlo hhi hmono
    unfold searchLoop
    by_cases h : i < j
    · simp only [h, if_true]
      by_cases hf : f ((i + j) / 2) = true
      · rw [if_pos hf]
        exact ih i _ (by omega) (by omega) (by omega) hlo
          (fun k hk hkn => hmono _ k hk hkn hf) hmono
      · rw [if_neg hf]
        refine ih _ j (by omega) (by omega) (by omega) (fun k hk => ?_) hhi hmono
        -- below the probe nothing can hold, or the probe would
        by_contra hk'
        exact hf (hmono k _ (by omega) (by omega) (by simpa using hk'))
    · simp only [h, if_false]
      have : i = j := by omega
      subst this
      exact ⟨hjn, hlo, hhi⟩

/-- For a monotone test, the first index at which it holds. -/
theorem sortSearch_spec {f : Nat → Bool} {n : Nat}
    (hmono : ∀ a b, a ≤ b → b < n → f a = true → f b = true) :
    sortSearch n f ≤ n ∧ (∀ k, k < sortSearch n f → f k = false) ∧
      ∀ k, sortSearch n f ≤ k → k < n → f k = true :=
  searchLoop_spec n 0 n (Nat.zero_le n) (Nat.le_refl n) (by omega)
    (fun k hk => absurd hk (Nat.not_lt_zero k)) (fun k hk hkn => absurd hkn (by omega)) hmono

/-- The loop over the closed interval `[low, high]` with the best index so far. -/
def lastLELoop (key : Nat → Nat) (target : Nat) : Nat → Int → Int → Nat → Nat
  | 0, _, _, result => result
  | fuel + 1, low, high, result =>
      if low ≤ high then
        let mid := (low + high) / 2
        if key mid.toNat ≤ target then lastLELoop key target fuel (mid + 1) high mid.toNat
        else lastLELoop key target fuel low (mid - 1) result
      else result

def lastLE (key : Nat → Nat) (target n : Nat) : Nat := lastLELoop key target n 0 ((n : Int) - 1) 0

theorem lastLELoop_spec {key : Nat → Nat} {target n : Nat} :
    ∀ (fuel : Nat) (low high : Int) (result : Nat), 0 ≤ low → high < n →
      (result = 0 ∨ (result < n ∧ key result ≤ target)) →
      let r := lastLELoop key target fuel low high result
      r = 0 ∨ (r < n ∧ key r ≤ target) := by
  intro fuel
  induction fuel with
  | zero => intro low high result _ _ h; exact h
  | succ fuel ih =>
    intro low high result hlow hhigh h
    unfold lastLELoop
    by_cases hle : low ≤ high
    · simp only [hle, if_true]
      by_cases hk : key ((low + high) / 2).toNat ≤ target
      · rw [if_pos hk]
        exact ih _ _ _ (by omega) hhigh (.inr ⟨by omega, hk⟩)
      · rw [if_neg hk]
        exact ih _ _ _ hlow (by omega) h
    · simp only [hle, if_false]
      exact h

/-- The index returned is the first one or one whose key is not above the target. -/
theorem lastLE_spec (key : Nat → Nat) (target n : Nat) :
    lastLE key target n = 0 ∨ (lastLE key target n < n ∧ key (lastLE key target n) ≤ target) :=
  lastLELoop_spec n 0 _ 0 (by omega) (by omega) (.inl rfl)

end MessageBroker.Lib.Search
