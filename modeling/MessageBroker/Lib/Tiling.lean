import Mathlib

/-!
# Half-open intervals laid end to end

A list of items, each covering `[lo x, hi x)`, tiles a range when the items are
non-empty and each starts where the one before ends. The lemmas cut such a list
at a boundary, glue two of them, and find the item over a point.
-/
namespace MessageBroker.Lib.Tiling

variable {α : Type*} {lo hi : α → Nat}

def Tiles (lo hi : α → Nat) : Nat → Nat → List α → Prop
  | a, b, [] => a = b
  | a, b, x :: xs => lo x = a ∧ a < hi x ∧ Tiles lo hi (hi x) b xs

theorem Tiles.le {a b : Nat} {xs : List α} (h : Tiles lo hi a b xs) : a ≤ b := by
  induction xs generalizing a with
  | nil => exact Nat.le_of_eq h
  | cons x xs ih =>
    have := ih h.2.2
    have := h.2.1
    omega

theorem Tiles.lt_of_ne_nil {a b : Nat} {xs : List α} (h : Tiles lo hi a b xs) (hne : xs ≠ []) :
    a < b := by
  cases xs with
  | nil => exact absurd rfl hne
  | cons x xs => exact h.2.1.trans_le h.2.2.le

theorem tiles_append {a c : Nat} {xs ys : List α} :
    Tiles lo hi a c (xs ++ ys) ↔ ∃ b, Tiles lo hi a b xs ∧ Tiles lo hi b c ys := by
  induction xs generalizing a with
  | nil => exact ⟨fun h => ⟨a, rfl, h⟩, fun ⟨b, hab, h⟩ => hab ▸ h⟩
  | cons x xs ih =>
    constructor
    · rintro ⟨hx, hlt, h⟩
      obtain ⟨b, hb, hc⟩ := ih.mp h
      exact ⟨b, ⟨hx, hlt, hb⟩, hc⟩
    · rintro ⟨b, ⟨hx, hlt, hb⟩, hc⟩
      exact ⟨hx, hlt, ih.mpr ⟨b, hb, hc⟩⟩

theorem Tiles.append {a b c : Nat} {xs ys : List α} (h : Tiles lo hi a b xs)
    (h' : Tiles lo hi b c ys) : Tiles lo hi a c (xs ++ ys) :=
  tiles_append.mpr ⟨b, h, h'⟩

theorem tiles_end_unique {a b b' : Nat} {xs : List α} (h : Tiles lo hi a b xs)
    (h' : Tiles lo hi a b' xs) : b = b' := by
  induction xs generalizing a with
  | nil => exact Eq.trans (Eq.symm h) h'
  | cons x xs ih => exact ih h.2.2 h'.2.2

theorem Tiles.end_eq_getLast {a b : Nat} {xs : List α} (h : Tiles lo hi a b xs) (hne : xs ≠ []) :
    b = hi (xs.getLast hne) := by
  rw [← List.dropLast_append_getLast hne] at h
  obtain ⟨m, -, -, -, hb⟩ := tiles_append.mp h
  exact Eq.symm hb

/-- Every item lies inside the range. -/
theorem Tiles.mem {a b : Nat} {xs : List α} (h : Tiles lo hi a b xs) {x : α} (hx : x ∈ xs) :
    a ≤ lo x ∧ lo x < hi x ∧ hi x ≤ b := by
  obtain ⟨pre, post, rfl⟩ := List.append_of_mem hx
  obtain ⟨m, hpre, hm, hlt, hpost⟩ := tiles_append.mp h
  have h1 := hpre.le
  have h2 := hpost.le
  omega

/-- Every point of the range is in some item. -/
theorem Tiles.find {a b : Nat} {xs : List α} (h : Tiles lo hi a b xs) {o : Nat} (ha : a ≤ o)
    (hb : o < b) : ∃ pre x post, xs = pre ++ x :: post ∧ lo x ≤ o ∧ o < hi x := by
  induction xs generalizing a with
  | nil =>
    have hab : a = b := h
    omega
  | cons x xs ih =>
    obtain ⟨hx, hlt, hrest⟩ := h
    by_cases ho : o < hi x
    · exact ⟨[], x, xs, rfl, by omega, ho⟩
    · obtain ⟨pre, y, post, rfl, h1, h2⟩ := ih hrest (by omega)
      exact ⟨x :: pre, y, post, rfl, h1, h2⟩

/-- The items wholly below a boundary are those before it. -/
theorem Tiles.filter_hi_le {a b c : Nat} {xs ys : List α} (h : Tiles lo hi a b xs)
    (h' : Tiles lo hi b c ys) : (xs ++ ys).filter (fun x => decide (hi x ≤ b)) = xs := by
  rw [List.filter_append]
  have h1 : xs.filter (fun x => decide (hi x ≤ b)) = xs :=
    List.filter_eq_self.mpr fun x hx => by simpa using (h.mem hx).2.2
  have h2 : ys.filter (fun x => decide (hi x ≤ b)) = [] := by
    rw [List.filter_eq_nil_iff]
    intro x hx
    have := h'.mem hx
    simp only [decide_eq_true_eq]
    omega
  rw [h1, h2, List.append_nil]

/-- Each item ends before every later one starts. -/
theorem Tiles.pairwise {a b : Nat} {xs : List α} (h : Tiles lo hi a b xs) :
    xs.Pairwise fun x y => hi x ≤ lo y := by
  induction xs generalizing a with
  | nil => exact List.Pairwise.nil
  | cons x xs ih => exact List.pairwise_cons.mpr ⟨fun y hy => (h.2.2.mem hy).1, ih h.2.2⟩

theorem trichotomy_of_pairwise {r : α → α → Prop} {xs : List α} (h : xs.Pairwise r) {x y : α}
    (hx : x ∈ xs) (hy : y ∈ xs) : x = y ∨ r x y ∨ r y x := by
  have : Std.Symm fun x y => r x y ∨ r y x := ⟨fun _ _ => Or.symm⟩
  have heither : xs.Pairwise fun x y => r x y ∨ r y x := h.imp Or.inl
  by_cases hxy : x = y
  · exact .inl hxy
  · exact .inr (heither.forall hx hy hxy)

theorem Tiles.trichotomy {a b : Nat} {xs : List α} (h : Tiles lo hi a b xs) {x y : α}
    (hx : x ∈ xs) (hy : y ∈ xs) : x = y ∨ hi x ≤ lo y ∨ hi y ≤ lo x :=
  trichotomy_of_pairwise h.pairwise hx hy

/-- Of two first parts of a list, the one that reaches less far is a first part of
the other. -/
theorem Tiles.prefix_of_le {a b c : Nat} {xs ys zs : List α} (h : Tiles lo hi a b xs)
    (h' : Tiles lo hi a c ys) (hx : xs <+: zs) (hy : ys <+: zs) (hle : b ≤ c) : xs <+: ys := by
  rcases List.prefix_or_prefix_of_prefix hx hy with hp | ⟨rest, rfl⟩
  · exact hp
  · obtain ⟨m, hm, hrest⟩ := tiles_append.mp h
    rw [tiles_end_unique hm h'] at hrest
    cases rest with
    | nil => simp
    | cons r rest =>
      have := hrest.lt_of_ne_nil (by simp)
      omega

/-! ## Tests that fail from some item on -/

section Initial

variable {p q : α → Bool} {xs : List α}

theorem filter_append_filter_not (hp : xs.Pairwise fun x y => p y = true → p x = true) :
    xs.filter p ++ xs.filter (fun x => !p x) = xs := by
  induction xs with
  | nil => rfl
  | cons x xs ih =>
    obtain ⟨hx, htail⟩ := List.pairwise_cons.mp hp
    cases hpx : p x with
    | true => simp [hpx, ih htail]
    | false =>
      have hnone : ∀ y ∈ xs, p y = false := by
        intro y hy
        cases hpy : p y with
        | false => rfl
        | true => rw [hx y hy hpy] at hpx; cases hpx
      have h1 : xs.filter p = [] := List.filter_eq_nil_iff.mpr fun y hy => by simp [hnone y hy]
      have h2 : xs.filter (fun x => !p x) = xs :=
        List.filter_eq_self.mpr fun y hy => by simp [hnone y hy]
      simp [hpx, h1, h2]

/-- Two successive stretches are selected by either test. -/
theorem filter_or (hp : xs.Pairwise fun x y => p y = true → p x = true)
    (hq : ∀ x ∈ xs, q x = true → p x = false) :
    xs.filter (fun x => p x || q x) = xs.filter p ++ xs.filter q := by
  conv_lhs => rw [← filter_append_filter_not hp]
  rw [List.filter_append, List.filter_filter, List.filter_filter]
  congr 1
  · exact List.filter_congr fun x _ => by cases p x <;> simp
  · refine List.filter_congr fun x hx => ?_
    cases hqx : q x with
    | false => cases p x <;> simp
    | true => simp [hq x hx hqx]

end Initial

/-! ## Possibly empty items -/

/-- As `Tiles`, but an item may be empty. -/
def Linked (lo hi : α → Nat) : Nat → Nat → List α → Prop
  | a, b, [] => a = b
  | a, b, x :: xs => lo x = a ∧ a ≤ hi x ∧ Linked lo hi (hi x) b xs

theorem Linked.le {a b : Nat} {xs : List α} (h : Linked lo hi a b xs) : a ≤ b := by
  induction xs generalizing a with
  | nil => exact Nat.le_of_eq h
  | cons x xs ih => exact h.2.1.trans (ih h.2.2)

theorem linked_append {a c : Nat} {xs ys : List α} :
    Linked lo hi a c (xs ++ ys) ↔ ∃ b, Linked lo hi a b xs ∧ Linked lo hi b c ys := by
  induction xs generalizing a with
  | nil => exact ⟨fun h => ⟨a, rfl, h⟩, fun ⟨b, hab, h⟩ => hab ▸ h⟩
  | cons x xs ih =>
    constructor
    · rintro ⟨hx, hle, h⟩
      obtain ⟨b, hb, hc⟩ := ih.mp h
      exact ⟨b, ⟨hx, hle, hb⟩, hc⟩
    · rintro ⟨b, ⟨hx, hle, hb⟩, hc⟩
      exact ⟨hx, hle, ih.mpr ⟨b, hb, hc⟩⟩

theorem Linked.mem {a b : Nat} {xs : List α} (h : Linked lo hi a b xs) {x : α} (hx : x ∈ xs) :
    a ≤ lo x ∧ lo x ≤ hi x ∧ hi x ≤ b := by
  obtain ⟨pre, post, rfl⟩ := List.append_of_mem hx
  obtain ⟨m, hpre, hm, hle, hpost⟩ := linked_append.mp h
  have h1 := hpre.le
  have h2 := hpost.le
  omega

theorem linked_map {β : Type*} {f : β → α} {a b : Nat} {xs : List β} :
    Linked lo hi a b (xs.map f) ↔ Linked (fun x => lo (f x)) (fun x => hi (f x)) a b xs := by
  induction xs generalizing a with
  | nil => exact Iff.rfl
  | cons x xs ih => exact and_congr_right fun _ => and_congr_right fun _ => ih

/-- The starts never decrease. -/
theorem Linked.pairwise {a b : Nat} {xs : List α} (h : Linked lo hi a b xs) :
    xs.Pairwise fun x y => hi x ≤ lo y := by
  induction xs generalizing a with
  | nil => exact List.Pairwise.nil
  | cons x xs ih =>
    obtain ⟨-, -, hrest⟩ := h
    exact List.Pairwise.cons (fun y hy => (hrest.mem hy).1) (ih hrest)

/-- Items that are themselves tiled make one tiling. -/
theorem Linked.flatMap {β : Type*} {lo' hi' : β → Nat} {parts : α → List β} {a b : Nat}
    {xs : List α} (h : Linked lo hi a b xs)
    (hp : ∀ x ∈ xs, Tiles lo' hi' (lo x) (hi x) (parts x)) :
    Tiles lo' hi' a b (xs.flatMap parts) := by
  induction xs generalizing a with
  | nil => exact h
  | cons x xs ih =>
    obtain ⟨hx, -, hrest⟩ := h
    have hhead := hp x List.mem_cons_self
    rw [hx] at hhead
    exact hhead.append (ih hrest fun y hy => hp y (List.mem_cons_of_mem _ hy))

end MessageBroker.Lib.Tiling
