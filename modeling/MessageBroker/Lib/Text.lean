import MessageBroker.Lib.Decimal

/-!
# Lines and fields of a text

A text is read line by line through a buffer of bounded size, and a line is taken
apart at its white space. Lines of numerals that a writer ends with a newline
come back one by one, and a numeral alone or two of them with a blank between
come back as fields.
-/
namespace MessageBroker.Lib.Text

open Decimal

/-- White space as Unicode has it. -/
def isSpace (c : Char) : Bool :=
  c == ' ' || (0x09 ≤ c.toNat && c.toNat ≤ 0x0d) || (0x2000 ≤ c.toNat && c.toNat ≤ 0x200a) ||
    [0x85, 0xa0, 0x1680, 0x2028, 0x2029, 0x202f, 0x205f, 0x3000].contains c.toNat

def trimSpace (s : List Char) : List Char := (s.dropWhile isSpace).rdropWhile isSpace

/-- The runs of a line between white space. -/
def fields (s : List Char) : List (List Char) := (s.splitOnP isSpace).filter (· ≠ [])

/-- The longest line the buffer holds, in bytes, is one below. -/
def maxTokenSize : Nat := 64 * 1024

inductive Scanned
  | done
  | tooLong
  | line (text rest : List Char)
  deriving DecidableEq

def dropCR (line : List Char) : List Char :=
  if line.getLast? = some '\r' then line.dropLast else line

/-- The next line of a text, without its end, and what follows it. The last line
needs no end. -/
def scanLine (text : List Char) : Scanned :=
  if text = [] then .done
  else
    let line := text.takeWhile (· ≠ '\n')
    if maxTokenSize ≤ (line.map Char.utf8Size).sum then .tooLong
    else .line (dropCR line) (text.drop (line.length + 1))

theorem utf8Size_sum_le (s : List Char) : (s.map Char.utf8Size).sum ≤ 4 * s.length := by
  induction s with
  | nil => exact Nat.le_refl _
  | cons c s ih =>
    have := Char.utf8Size_le_four c
    rw [List.map_cons, List.sum_cons, List.length_cons]
    omega

/-- A short line is read back, whatever follows it. -/
theorem scanLine_append {line : List Char} (hnl : '\n' ∉ line) (hcr : '\r' ∉ line)
    (hlen : line.length ≤ 1000) (rest : List Char) :
    scanLine (line ++ '\n' :: rest) = .line line rest := by
  have htake : (line ++ '\n' :: rest).takeWhile (· ≠ '\n') = line := by
    rw [List.takeWhile_append_of_pos, List.takeWhile_cons_of_neg (by simp), List.append_nil]
    intro c hc
    simpa using fun he : c = '\n' => hnl (he ▸ hc)
  have hsize : ¬ maxTokenSize ≤ (line.map Char.utf8Size).sum := by
    have := utf8Size_sum_le line
    unfold maxTokenSize
    omega
  have hdrop : dropCR line = line := if_neg fun h => hcr (List.mem_of_getLast? h)
  have hrest : (line ++ '\n' :: rest).drop (line.length + 1) = rest := by
    rw [← List.drop_drop, List.drop_left, List.drop_one, List.tail_cons]
  simp only [scanLine, htake, if_neg hsize, hdrop, hrest]
  rw [if_neg (by simp)]

/-! ## Numerals -/

theorem isSpace_eq_false_of_isDigit {c : Char} (h : c.isDigit = true) : isSpace c = false := by
  have hrange : 48 ≤ c.toNat ∧ c.toNat ≤ 57 := by
    simp only [Char.isDigit, Bool.and_eq_true, decide_eq_true_eq] at h
    exact ⟨h.1, h.2⟩
  have hblank : c ≠ ' ' := by
    rintro rfl
    exact absurd hrange.1 (by decide)
  simp only [isSpace, Bool.or_eq_false_iff, beq_eq_false_iff_ne, Bool.and_eq_false_iff,
    decide_eq_false_iff_not]
  refine ⟨⟨⟨hblank, by omega⟩, by omega⟩, ?_⟩
  simp only [List.contains_eq_mem, decide_eq_false_iff_not, List.mem_cons, List.not_mem_nil,
    or_false]
  omega

/-- The decimal numeral of a number. -/
def digits (n : Nat) : List Char := Nat.toDigits 10 n

theorem notSpace_of_mem_digits {n : Nat} {c : Char} (h : c ∈ digits n) : isSpace c = false :=
  isSpace_eq_false_of_isDigit (Nat.isDigit_of_mem_toDigits (by decide) (by decide) h)

theorem trimSpace_digits (n : Nat) : trimSpace (digits n) = digits n := by
  have hne : digits n ≠ [] := Nat.toDigits_ne_nil
  have hdrop : (digits n).dropWhile isSpace = digits n := by
    rw [List.dropWhile_eq_self_iff]
    intro hl
    rw [notSpace_of_mem_digits (List.getElem_mem hl)]
    decide
  rw [trimSpace, hdrop, List.rdropWhile_eq_self_iff]
  intro h
  rw [notSpace_of_mem_digits (List.getLast_mem h)]
  decide

/-- Two numerals with a blank between are the fields of their line. -/
theorem fields_digits (m n : Nat) :
    fields (digits m ++ ' ' :: digits n) = [digits m, digits n] := by
  have hm : digits m ≠ [] := Nat.toDigits_ne_nil
  have hn : digits n ≠ [] := Nat.toDigits_ne_nil
  rw [fields, List.splitOnP_append_cons_of_forall_mem (fun _ => notSpace_of_mem_digits) ' '
    (by decide), List.splitOnP_eq_singleton fun _ => notSpace_of_mem_digits]
  simp [hm, hn]

theorem length_digits {n k : Nat} (hk : 0 < k) (h : n < 10 ^ k) : (digits n).length ≤ k :=
  Nat.toDigits_length 10 n k hk h

end MessageBroker.Lib.Text
