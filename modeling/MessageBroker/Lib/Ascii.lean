import Mathlib

/-!
# Upper case and blanks of ASCII text

Executable versions of the two usual string normalisers, on the characters of
the text. Upper-casing touches no blank, so the two commute and each is a
projection.
-/
namespace MessageBroker.Lib.Ascii

def upper (s : String) : String := String.ofList (s.toList.map Char.toUpper)

def trim (s : String) : String :=
  String.ofList ((s.toList.dropWhile Char.isWhitespace).rdropWhile Char.isWhitespace)

theorem upper_upper (s : String) : upper (upper s) = upper s := by
  simp [upper, Function.comp_def]

/-- Both ends of a trimmed list stay where they are. -/
theorem trim_chars (p : Char → Bool) (l : List Char) :
    (((l.dropWhile p).rdropWhile p).dropWhile p).rdropWhile p = (l.dropWhile p).rdropWhile p := by
  have hfix : ((l.dropWhile p).rdropWhile p).dropWhile p = (l.dropWhile p).rdropWhile p := by
    rw [List.dropWhile_eq_self_iff]
    intro hpos
    have hpre : (l.dropWhile p).rdropWhile p <+: l.dropWhile p := List.rdropWhile_prefix p _
    have hlen := hpre.length_le
    have hhead := List.dropWhile_eq_self_iff.mp (List.dropWhile_idempotent p l) (by omega)
    rwa [hpre.getElem hpos]
  rw [hfix, List.rdropWhile_idempotent]

theorem trim_trim (s : String) : trim (trim s) = trim s := by
  simp only [trim, String.toList_ofList, trim_chars]

theorem isWhitespace_toUpper (c : Char) : c.toUpper.isWhitespace = c.isWhitespace := by
  by_cases h : c.isLower
  · have hc : c.isWhitespace = false := by
      by_contra hw
      simp only [Char.isWhitespace, Bool.not_eq_false, Bool.or_eq_true, decide_eq_true_eq] at hw
      rcases hw with ((rfl | rfl) | rfl) | rfl <;> exact absurd h (by decide)
    have hu : c.toUpper.isWhitespace = false := by
      by_contra hw
      have hup : c.toUpper.isUpper = true := by simp [Char.isAlpha, h]
      simp only [Char.isWhitespace, Bool.not_eq_false, Bool.or_eq_true, decide_eq_true_eq] at hw
      rcases hw with ((hw | hw) | hw) | hw <;> rw [hw] at hup <;> exact absurd hup (by decide)
    rw [hc, hu]
  · rw [Char.toUpper_eq_of_not_isLower h]

theorem trim_upper (s : String) : trim (upper s) = upper (trim s) := by
  have hp : Char.isWhitespace ∘ Char.toUpper = Char.isWhitespace := funext isWhitespace_toUpper
  simp only [trim, upper, String.toList_ofList, List.dropWhile_map, List.rdropWhile,
    ← List.map_reverse, hp]

end MessageBroker.Lib.Ascii
