import Mathlib

/-!
# Finite maps compared by their keys

Extensional tree maps stand for unordered finite maps: two maps with the same
lookups are equal, and `toList` is one fixed order of their entries. The lemmas
restate insertion with an equality test in place of a three-way comparison and
rebuild a map from a list of entries with distinct keys.
-/
namespace MessageBroker.Lib.Maps

open Std

variable {κ β : Type*} {cmp : κ → κ → Ordering} [TransCmp cmp] [LawfulEqCmp cmp]

theorem lookup_insert [DecidableEq κ] (m : ExtTreeMap κ β cmp) (k a : κ) (v : β) :
    (m.insert k v)[a]? = if k = a then some v else m[a]? := by
  rw [ExtTreeMap.getElem?_insert]
  by_cases h : k = a
  · rw [if_pos h, if_pos (LawfulEqCmp.compare_eq_iff_eq.mpr h)]
  · rw [if_neg h, if_neg (fun he => h (LawfulEqCmp.compare_eq_iff_eq.mp he))]

theorem lookup_insert_ne (m : ExtTreeMap κ β cmp) {k a : κ} (h : k ≠ a) (v : β) :
    (m.insert k v)[a]? = m[a]? := by
  rw [ExtTreeMap.getElem?_insert, if_neg (fun he => h (LawfulEqCmp.compare_eq_iff_eq.mp he))]

theorem notMem_insert {m : ExtTreeMap κ β cmp} {k a : κ} {v : β} (h : k ≠ a) (hm : a ∉ m) :
    a ∉ m.insert k v := by
  intro hi
  rcases ExtTreeMap.mem_insert.mp hi with he | hi
  · exact h (LawfulEqCmp.compare_eq_iff_eq.mp he)
  · exact hm hi

theorem mem_insert {m : ExtTreeMap κ β cmp} {k a : κ} {v : β} :
    a ∈ m.insert k v ↔ k = a ∨ a ∈ m := by
  rw [ExtTreeMap.mem_insert, LawfulEqCmp.compare_eq_iff_eq]

theorem mem_erase {m : ExtTreeMap κ β cmp} {k a : κ} : a ∈ m.erase k ↔ k ≠ a ∧ a ∈ m := by
  rw [ExtTreeMap.mem_erase, ne_eq, LawfulEqCmp.compare_eq_iff_eq]

/-- Writing what is there changes nothing. -/
theorem insert_eq_self {m : ExtTreeMap κ β cmp} {k : κ} {v : β} (h : m[k]? = some v) :
    m.insert k v = m := by
  classical
  refine ExtTreeMap.ext_getElem? fun a => ?_
  rw [lookup_insert]
  split
  · rename_i he
    rw [← he, h]
  · rfl

/-- The entries of a list inserted one after the other. -/
def insertAll (m : ExtTreeMap κ β cmp) (l : List (κ × β)) : ExtTreeMap κ β cmp :=
  l.foldl (fun m e => m.insert e.1 e.2) m

theorem lookup_insertAll_of_notMem {l : List (κ × β)} {k : κ} (h : k ∉ l.map Prod.fst) :
    ∀ m : ExtTreeMap κ β cmp, (insertAll m l)[k]? = m[k]? := by
  induction l with
  | nil => exact fun m => rfl
  | cons e l ih =>
    intro m
    rw [List.map_cons, List.mem_cons, not_or] at h
    have hl := ih h.2 (m.insert e.1 e.2)
    rw [lookup_insert_ne m (Ne.symm h.1)] at hl
    exact hl

theorem lookup_insertAll_of_mem {l : List (κ × β)} (hn : (l.map Prod.fst).Nodup) {e : κ × β}
    (h : e ∈ l) : ∀ m : ExtTreeMap κ β cmp, (insertAll m l)[e.1]? = some e.2 := by
  induction l with
  | nil => exact fun m => absurd h List.not_mem_nil
  | cons x l ih =>
    intro m
    rw [List.map_cons, List.nodup_cons] at hn
    rcases List.mem_cons.mp h with rfl | h
    · have hl := lookup_insertAll_of_notMem hn.1 (m.insert e.1 e.2)
      rw [ExtTreeMap.getElem?_insert_self] at hl
      exact hl
    · exact ih hn.2 h (m.insert x.1 x.2)

omit [LawfulEqCmp cmp] in
theorem nodup_fst_toList (m : ExtTreeMap κ β cmp) : (m.toList.map Prod.fst).Nodup := by
  rw [ExtTreeMap.map_fst_toList_eq_keys]
  exact ExtTreeMap.nodup_keys

/-- A map is rebuilt from its entries in any order. -/
theorem insertAll_of_perm {m : ExtTreeMap κ β cmp} {l : List (κ × β)} (h : l.Perm m.toList) :
    insertAll ∅ l = m := by
  have hn : (l.map Prod.fst).Nodup := (h.map Prod.fst).nodup_iff.mpr (nodup_fst_toList m)
  refine ExtTreeMap.ext_getElem? fun k => ?_
  cases hk : m[k]? with
  | some v =>
    have hm : (k, v) ∈ l := h.mem_iff.mpr (ExtTreeMap.mem_toList_iff_getElem?_eq_some.mpr hk)
    exact lookup_insertAll_of_mem hn hm ∅
  | none =>
    have hm : k ∉ l.map Prod.fst := by
      intro hm
      obtain ⟨e, he, rfl⟩ := List.mem_map.mp hm
      have hv := ExtTreeMap.mem_toList_iff_getElem?_eq_some.mp (h.mem_iff.mp he)
      rw [hk] at hv
      cases hv
    rw [lookup_insertAll_of_notMem hm]
    exact ExtTreeMap.getElem?_empty

omit [LawfulEqCmp cmp] in
/-- A listing of the entries, in any order, that each record can be read back from. -/
theorem map_perm_toList {γ : Type*} {m : ExtTreeMap κ β cmp} {l : List γ} {f : κ × β → γ}
    {g : γ → κ × β} (h : l.Perm (m.toList.map f)) (hg : ∀ e ∈ m.toList, g (f e) = e) :
    (l.map g).Perm m.toList := by
  have hmap := h.map g
  rw [List.map_map] at hmap
  have hid : m.toList.map (g ∘ f) = m.toList.map id := List.map_congr_left hg
  rwa [hid, List.map_id] at hmap

/-! ## Grouping -/

/-- The values of a list collected by their keys, in the order of the list. -/
def group (l : List (κ × β)) : ExtTreeMap κ (List β) cmp :=
  l.foldl (fun m e => m.insert e.1 (m[e.1]?.getD [] ++ [e.2])) ∅

/-- The values a list has under a key. -/
def valuesOf [DecidableEq κ] (l : List (κ × β)) (k : κ) : List β :=
  l.filterMap fun e => if e.1 = k then some e.2 else none

theorem mem_valuesOf [DecidableEq κ] {l : List (κ × β)} {k : κ} {v : β} :
    v ∈ valuesOf l k ↔ (k, v) ∈ l := by
  simp only [valuesOf, List.mem_filterMap, Option.ite_none_right_eq_some, Option.some.injEq]
  constructor
  · rintro ⟨e, he, rfl, rfl⟩
    exact he
  · intro h
    exact ⟨_, h, rfl, rfl⟩

theorem lookup_group [DecidableEq κ] (l : List (κ × β)) (k : κ) :
    (group l : ExtTreeMap κ (List β) cmp)[k]? =
      if valuesOf l k = [] then none else some (valuesOf l k) := by
  induction l using List.reverseRecOn with
  | nil => exact ExtTreeMap.getElem?_empty
  | append_singleton l e ih =>
    unfold group at ih ⊢
    rw [List.foldl_concat, lookup_insert]
    by_cases he : e.1 = k
    · have hv : valuesOf (l ++ [e]) k = valuesOf l k ++ [e.2] := by simp [valuesOf, he]
      rw [if_pos he, hv, if_neg (by simp), he, ih]
      by_cases hl : valuesOf l k = []
      · simp [hl]
      · simp [hl]
    · have hv : valuesOf (l ++ [e]) k = valuesOf l k := by simp [valuesOf, he]
      rw [if_neg he, hv, ih]

end MessageBroker.Lib.Maps
