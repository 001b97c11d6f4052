import Mathlib

/-!
# Decimal numerals behind a separator

Splitting a text at the last occurrence of a separator, and reading a signed
64-bit decimal numeral. A text that ends in a separator and a numeral is taken
apart in one way only, whatever stands before the separator.
-/
namespace MessageBroker.Lib.Decimal

/-- What stands before and after the last occurrence of the separator. -/
def splitLast (sep : Char) : List Char → Option (List Char × List Char)
  | [] => none
  | c :: cs =>
      match splitLast sep cs with
      | some (before, after) => some (c :: before, after)
      | none => if c = sep then some ([], cs) else none

theorem splitLast_of_notMem {sep : Char} {s : List Char} (h : sep ∉ s) :
    splitLast sep s = none := by
  induction s with
  | nil => rfl
  | cons c cs ih =>
    rw [List.mem_cons, not_or] at h
    rw [splitLast, ih h.2]
    exact if_neg (Ne.symm h.1)

theorem splitLast_append {sep : Char} (s : List Char) {t : List Char} (h : sep ∉ t) :
    splitLast sep (s ++ sep :: t) = some (s, t) := by
  induction s with
  | nil => simp [splitLast, splitLast_of_notMem h]
  | cons c s ih => rw [List.cons_append, splitLast, ih]

/-- The value of a non-empty string of digits. -/
def parseDigits (s : List Char) : Option Nat :=
  if s ≠ [] ∧ s.all Char.isDigit then some (Nat.ofDigitChars 10 s 0) else none

theorem parseDigits_toDigits (n : Nat) : parseDigits (Nat.toDigits 10 n) = some n := by
  have hdigits : (Nat.toDigits 10 n).all Char.isDigit = true :=
    List.all_eq_true.mpr fun c hc => Nat.isDigit_of_mem_toDigits (by decide) (by decide) hc
  rw [parseDigits, if_pos ⟨Nat.toDigits_ne_nil, hdigits⟩, Nat.ofDigitChars_ten_toDigits]

def int64? (v : Int) : Option Int := if -2 ^ 63 ≤ v ∧ v < 2 ^ 63 then some v else none

/-- A decimal numeral with an optional sign, in the range of 64-bit integers. -/
def atoi : List Char → Option Int
  | '+' :: s => (parseDigits s).bind fun n => int64? n
  | '-' :: s => (parseDigits s).bind fun n => int64? (-n)
  | s => (parseDigits s).bind fun n => int64? n

theorem notMem_toDigits {c : Char} (hc : c.isDigit = false) (n : Nat) : c ∉ Nat.toDigits 10 n := by
  intro h
  rw [Nat.isDigit_of_mem_toDigits (by decide) (by decide) h] at hc
  cases hc

theorem atoi_unsigned (n : Nat) : atoi (Nat.toDigits 10 n) = int64? n := by
  have hunsigned : atoi (Nat.toDigits 10 n) =
      (parseDigits (Nat.toDigits 10 n)).bind fun n => int64? n := by
    unfold atoi
    split
    · rename_i s hs
      exact absurd (hs ▸ List.mem_cons_self) (notMem_toDigits (c := '+') (by decide) n)
    · rename_i s hs
      exact absurd (hs ▸ List.mem_cons_self) (notMem_toDigits (c := '-') (by decide) n)
    · rfl
  rw [hunsigned, parseDigits_toDigits, Option.bind_some]

theorem atoi_toDigits {n : Nat} (h : n < 2 ^ 63) : atoi (Nat.toDigits 10 n) = some (n : Int) := by
  rw [atoi_unsigned, int64?, if_pos ⟨by omega, by omega⟩]

/-- A numeral that is read is read as its number. -/
theorem eq_of_atoi_toDigits {n : Nat} {v : Int} (h : atoi (Nat.toDigits 10 n) = some v) :
    v = n := by
  rw [atoi_unsigned, int64?] at h
  split at h
  · exact (Option.some.inj h).symm
  · cases h

end MessageBroker.Lib.Decimal
