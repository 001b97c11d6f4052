import MessageBroker.Lib.Tiling
import MessageBroker.Storage.EpochCache

/-!
# Epoch histories as sets of entries

A cache with strictly increasing epochs and offsets is determined by its set of
entries, so what each operation does is said by membership: assigning keeps the
older entries below the offset and adds one, truncating keeps those below the
offset, and a lookup finds the entry with the greatest start at or below it.
-/
namespace MessageBroker.Storage

namespace EpochCache

/-- Epochs and start offsets both strictly increase. -/
def Increasing (c : EpochCache) : Prop :=
  List.Pairwise (fun a b => a.epoch < b.epoch ∧ a.startOffset < b.startOffset) c

theorem increasing_nil : Increasing [] := List.Pairwise.nil

namespace Increasing

variable {c : EpochCache}

theorem trichotomy (h : Increasing c) {a b : EpochEntry} (ha : a ∈ c) (hb : b ∈ c) :
    a = b ∨ (a.epoch < b.epoch ∧ a.startOffset < b.startOffset) ∨
      (b.epoch < a.epoch ∧ b.startOffset < a.startOffset) :=
  Lib.Tiling.trichotomy_of_pairwise h ha hb

/-- Entries are ordered alike by epoch and by offset. -/
theorem lt_iff (h : Increasing c) {a b : EpochEntry} (ha : a ∈ c) (hb : b ∈ c) :
    a.epoch < b.epoch ↔ a.startOffset < b.startOffset := by
  rcases h.trichotomy ha hb with rfl | ⟨h1, h2⟩ | ⟨h1, h2⟩
  · simp
  · exact ⟨fun _ => h2, fun _ => h1⟩
  · exact ⟨fun h3 => absurd h3 (lt_asymm h1), fun h3 => absurd h3 (Nat.lt_asymm h2)⟩

theorem eq_of_epoch (h : Increasing c) {a b : EpochEntry} (ha : a ∈ c) (hb : b ∈ c)
    (he : a.epoch = b.epoch) : a = b := by
  rcases h.trichotomy ha hb with rfl | ⟨h1, -⟩ | ⟨h1, -⟩
  · rfl
  · exact absurd he (ne_of_lt h1)
  · exact absurd he.symm (ne_of_lt h1)

theorem le_iff (h : Increasing c) {a b : EpochEntry} (ha : a ∈ c) (hb : b ∈ c) :
    a.epoch ≤ b.epoch ↔ a.startOffset ≤ b.startOffset := by
  rw [← not_lt, ← Nat.not_lt, h.lt_iff hb ha]

theorem tail {e : EpochEntry} (h : Increasing (e :: c)) : Increasing c :=
  (List.pairwise_cons.mp h).2

theorem head_lt {e x : EpochEntry} (h : Increasing (e :: c)) (hx : x ∈ c) :
    e.epoch < x.epoch ∧ e.startOffset < x.startOffset :=
  (List.pairwise_cons.mp h).1 x hx

/-- The last entry is the greatest. -/
theorem le_last (h : Increasing c) {last : EpochEntry} (hl : c.getLast? = some last)
    {x : EpochEntry} (hx : x ∈ c) : x.epoch ≤ last.epoch := by
  obtain ⟨init, rfl⟩ := List.getLast?_eq_some_iff.mp hl
  rcases List.mem_append.mp hx with hx | hx
  · exact le_of_lt ((List.pairwise_append.mp h).2.2 x hx last (by simp)).1
  · rw [List.mem_singleton.mp hx]

theorem takeWhile (h : Increasing c) (p : EpochEntry → Bool) : Increasing (c.takeWhile p) :=
  List.Pairwise.sublist (List.takeWhile_sublist p) h

/-- A test that fails from some entry on selects a first part of the list. -/
theorem mem_takeWhile (h : Increasing c) {p : EpochEntry → Bool}
    (hp : ∀ a b : EpochEntry, a.epoch < b.epoch → a.startOffset < b.startOffset → p b = true →
      p a = true) {x : EpochEntry} : x ∈ c.takeWhile p ↔ x ∈ c ∧ p x = true := by
  induction c with
  | nil => simp
  | cons e es ih =>
    rw [List.takeWhile_cons]
    cases he : p e with
    | true =>
      simp only [if_true, List.mem_cons, ih h.tail]
      constructor
      · rintro (rfl | ⟨hx, hpx⟩)
        · exact ⟨.inl rfl, he⟩
        · exact ⟨.inr hx, hpx⟩
      · rintro ⟨rfl | hx, hpx⟩
        · exact .inl rfl
        · exact .inr ⟨hx, hpx⟩
    | false =>
      simp only [Bool.false_eq_true, if_false, List.not_mem_nil, false_iff, List.mem_cons]
      rintro ⟨rfl | hx, hpx⟩
      · rw [he] at hpx
        cases hpx
      · obtain ⟨h1, h2⟩ := h.head_lt hx
        rw [hp e x h1 h2 hpx] at he
        cases he

end Increasing

/-! ## Truncation -/

theorem truncateFromEnd_eq_filter {c : EpochCache} (h : Increasing c) (offset : Nat) :
    c.truncateFromEnd offset = c.filter fun e => decide (e.startOffset < offset) := by
  unfold truncateFromEnd
  induction c with
  | nil => rfl
  | cons e es ih =>
    by_cases he : e.startOffset < offset
    · rw [List.takeWhile_cons_of_pos (by simpa using he),
        List.filter_cons_of_pos (by simpa using he), ih h.tail]
    · rw [List.takeWhile_cons_of_neg (by simpa using he),
        List.filter_cons_of_neg (by simpa using he)]
      refine (List.filter_eq_nil_iff.mpr fun x hx => ?_).symm
      have := (h.head_lt hx).2
      simp only [decide_eq_true_eq]
      omega

theorem mem_truncateFromEnd {c : EpochCache} (h : Increasing c) {offset : Nat} {x : EpochEntry} :
    x ∈ c.truncateFromEnd offset ↔ x ∈ c ∧ x.startOffset < offset := by
  unfold truncateFromEnd
  rw [h.mem_takeWhile]
  · simp
  · intro a b _ hab hb
    simp only [decide_eq_true_eq] at hb ⊢
    omega

/-! ## Assignment -/

/-- `Assign` on an increasing history: nothing to do, or the entries that are
older and start earlier, followed by the new one. -/
theorem assign_cases {c c' : EpochCache} (h : Increasing c) {epoch : Int32} {startOffset : Nat}
    {changed : Bool} (ha : c.assign epoch startOffset = .ok (changed, c')) :
    0 ≤ epoch ∧ c'.Increasing ∧
      ((c' = c ∧ ∃ last, c.getLast? = some last ∧ last.epoch = epoch ∧
          last.startOffset ≤ startOffset) ∨
        (c'.getLast? = some ⟨epoch, startOffset⟩ ∧
          (∀ last, c.getLast? = some last → last.epoch = epoch → startOffset < last.startOffset) ∧
          ∀ x, x ∈ c' ↔ x = ⟨epoch, startOffset⟩ ∨
            (x ∈ c ∧ x.epoch < epoch ∧ x.startOffset < startOffset))) := by
  unfold assign at ha
  split at ha
  · cases ha
  rename_i hneg
  refine ⟨not_lt.mp hneg, ?_⟩
  cases hl : c.getLast? with
  | none =>
    rw [hl] at ha
    cases ha
    rw [List.getLast?_eq_none_iff.mp hl]
    exact ⟨List.pairwise_singleton _ _, .inr ⟨rfl, fun last hlast => (by cases hlast), by simp⟩⟩
  | some last =>
    rw [hl] at ha
    simp only at ha
    split at ha
    · rename_i hsame
      cases ha
      exact ⟨h, .inl ⟨rfl, last, rfl, hsame.1.symm, hsame.2⟩⟩
    rename_i hdiff
    have hlast : ∀ last', some last = some last' → last'.epoch = epoch →
        startOffset < last'.startOffset := by
      intro last' he hep
      cases he
      exact Nat.lt_of_not_le fun hle => hdiff ⟨hep.symm, hle⟩
    split at ha
    · rename_i hlater
      cases ha
      have hall : ∀ x ∈ c, x.epoch < epoch ∧ x.startOffset < startOffset := by
        intro x hx
        have hle := h.le_last hl hx
        have hlm : last ∈ c := List.mem_of_getLast? hl
        exact ⟨hle.trans_lt hlater.1, ((h.le_iff hx hlm).mp hle).trans_lt hlater.2⟩
      refine ⟨?_, .inr ⟨by simp, hlast, fun x => ?_⟩⟩
      · refine List.pairwise_append.mpr ⟨h, List.pairwise_singleton _ _, fun x hx y hy => ?_⟩
        rw [List.mem_singleton.mp hy]
        exact hall x hx
      · constructor
        · intro hx
          rcases List.mem_append.mp hx with hx | hx
          · exact .inr ⟨hx, hall x hx⟩
          · exact .inl (List.mem_singleton.mp hx)
        · rintro (rfl | ⟨hx, -⟩)
          · simp
          · exact List.mem_append_left _ hx
    · cases ha
      have hmem : ∀ x, x ∈ c.takeWhile (fun e => !(decide (epoch ≤ e.epoch) ||
          decide (startOffset ≤ e.startOffset))) ↔
          x ∈ c ∧ x.epoch < epoch ∧ x.startOffset < startOffset := by
        intro x
        rw [h.mem_takeWhile]
        · simp
        · intro a b h1 h2 hb
          simp only [Bool.not_eq_true', Bool.or_eq_false_iff, decide_eq_false_iff_not, not_le]
            at hb ⊢
          exact ⟨h1.trans hb.1, by omega⟩
      refine ⟨?_, .inr ⟨by simp, hlast, fun x => ?_⟩⟩
      · refine List.pairwise_append.mpr ⟨h.takeWhile _, List.pairwise_singleton _ _,
          fun x hx y hy => ?_⟩
        rw [List.mem_singleton.mp hy]
        exact ((hmem x).mp hx).2
      · rw [List.mem_append, hmem, List.mem_singleton]
        tauto

theorem assign_later {c : EpochCache} {last : EpochEntry} (hl : c.getLast? = some last)
    {epoch : Int32} {startOffset : Nat} (h0 : 0 ≤ epoch) (he : last.epoch < epoch)
    (hs : last.startOffset < startOffset) :
    c.assign epoch startOffset = .ok (true, c ++ [⟨epoch, startOffset⟩]) := by
  unfold assign
  rw [if_neg (not_lt.mpr h0), hl]
  simp only
  rw [if_neg (fun h => absurd h.1 (ne_of_gt he)), if_pos ⟨he, hs⟩]

/-- Assigning an epoch at the end of a log: the entries below stay if none of
them is newer, or as new without being the last. -/
theorem assign_end {c c' : EpochCache} (h : Increasing c) {epoch : Int32} {n : Nat}
    {changed : Bool} (ha : c.assign epoch n = .ok (changed, c'))
    (hadm : ∀ e ∈ c, e.startOffset < n → e.epoch < epoch ∨
      (e.epoch = epoch ∧ c.getLast? = some e)) :
    c'.Increasing ∧ (∀ x : EpochEntry, x.startOffset < n → (x ∈ c ↔ x ∈ c')) ∧
      0 ≤ epoch ∧ ∃ last, c'.getLast? = some last ∧ last.epoch = epoch ∧ last.startOffset ≤ n := by
  obtain ⟨h0, hinc, ⟨rfl, last, hl, he, hs⟩ | ⟨hl, hnot, hmem⟩⟩ := assign_cases h ha
  · exact ⟨hinc, fun _ _ => Iff.rfl, h0, last, hl, he, hs⟩
  · refine ⟨hinc, fun x hx => ?_, h0, _, hl, rfl, Nat.le_refl _⟩
    rw [hmem]
    constructor
    · intro hxc
      refine .inr ⟨hxc, ?_, hx⟩
      rcases hadm x hxc hx with hlt | ⟨he, hlast⟩
      · exact hlt
      · exact absurd (hnot x hlast he) (Nat.lt_asymm hx)
    · rintro (rfl | ⟨hxc, -⟩)
      · exact absurd hx (Nat.lt_irrefl _)
      · exact hxc

/-! ## Histories -/

/-- The entries of a history. -/
structure Wf (c : EpochCache) : Prop where
  increasing : c.Increasing
  nonneg : ∀ x ∈ c, 0 ≤ x.epoch

theorem wf_nil : Wf [] := ⟨increasing_nil, fun _ hx => absurd hx List.not_mem_nil⟩

theorem Wf.takeWhile {c : EpochCache} (h : c.Wf) (p : EpochEntry → Bool) : Wf (c.takeWhile p) :=
  ⟨h.increasing.takeWhile p, fun x hx => h.nonneg x (List.takeWhile_sublist p |>.subset hx)⟩

theorem Wf.assign {c c' : EpochCache} (h : c.Wf) {epoch : Int32} {startOffset : Nat}
    {changed : Bool} (ha : c.assign epoch startOffset = .ok (changed, c')) : c'.Wf := by
  obtain ⟨h0, hinc, ⟨rfl, -⟩ | ⟨-, -, hmem⟩⟩ := assign_cases h.increasing ha
  · exact h
  · refine ⟨hinc, fun x hx => ?_⟩
    rcases (hmem x).mp hx with rfl | ⟨hx, -⟩
    · exact h0
    · exact h.nonneg x hx

theorem wf_replay {cache : EpochCache} (h : cache.Wf) {l : List EpochEntry} {c : EpochCache}
    (hr : replayEpochEntries cache l = .ok c) : c.Wf := by
  induction l generalizing cache with
  | nil =>
    cases hr
    exact h
  | cons e es ih =>
    rw [replayEpochEntries] at hr
    cases ha : cache.assign e.epoch e.startOffset with
    | error err =>
      rw [ha] at hr
      cases hr
    | ok r =>
      rw [ha] at hr
      exact ih (h.assign ha) hr

/-- The entry after a history is appended to it. -/
theorem assign_snoc {pre : EpochCache} {e : EpochEntry} (h : Wf (pre ++ [e])) :
    pre.assign e.epoch e.startOffset = .ok (true, pre ++ [e]) := by
  have h0 : 0 ≤ e.epoch := h.nonneg e (by simp)
  cases hl : pre.getLast? with
  | none =>
    rw [List.getLast?_eq_none_iff.mp hl]
    exact if_neg (not_lt.mpr h0)
  | some last =>
    obtain ⟨he, hs⟩ := (List.pairwise_append.mp h.increasing).2.2 last
      (List.mem_of_getLast? hl) e (by simp)
    exact assign_later hl h0 he hs

/-- Replaying the rest of a history completes it. -/
theorem replay_append {pre l : EpochCache} (h : Wf (pre ++ l)) :
    replayEpochEntries pre l = .ok (pre ++ l) := by
  induction l generalizing pre with
  | nil => rw [List.append_nil, replayEpochEntries]
  | cons e es ih =>
    rw [List.append_cons] at h ⊢
    have hpre : Wf (pre ++ [e]) :=
      ⟨h.increasing.sublist (List.sublist_append_left _ _),
        fun x hx => h.nonneg x (List.mem_append_left _ hx)⟩
    rw [replayEpochEntries, assign_snoc hpre]
    exact ih h

/-! ## Lookup -/

/-- The entry in force at an offset. -/
def At (c : EpochCache) (offset : Nat) (e : EpochEntry) : Prop :=
  e ∈ c ∧ e.startOffset ≤ offset ∧ ∀ x ∈ c, x.startOffset ≤ offset → x.startOffset ≤ e.startOffset

theorem epochLoop_eq {c : EpochCache} {offset : Nat} (h : Increasing c) :
    ∀ (acc : Option Int32) (epoch : Int32), epochLoop offset acc c = some epoch ↔
      (∃ e, c.At offset e ∧ e.epoch = epoch) ∨
        ((∀ x ∈ c, offset < x.startOffset) ∧ acc = some epoch) := by
  induction c with
  | nil => simp [epochLoop, At]
  | cons e es ih =>
    intro acc epoch
    unfold epochLoop
    split
    · -- all later entries start later still
      rename_i hlt
      have hall : ∀ x ∈ e :: es, offset < x.startOffset := by
        intro x hx
        rcases List.mem_cons.mp hx with rfl | hx
        · exact hlt
        · exact hlt.trans (h.head_lt hx).2
      constructor
      · exact fun ha => .inr ⟨hall, ha⟩
      · rintro (⟨x, ⟨hx, hle, -⟩, -⟩ | ⟨-, ha⟩)
        · exact absurd (hall x hx) (Nat.not_lt.mpr hle)
        · exact ha
    · rename_i hge
      have hle : e.startOffset ≤ offset := Nat.le_of_not_lt hge
      rw [ih h.tail]
      constructor
      · rintro (⟨x, ⟨hx, hxo, hmax⟩, rfl⟩ | ⟨hall, he⟩)
        · refine .inl ⟨x, ⟨List.mem_cons_of_mem _ hx, hxo, fun y hy hyo => ?_⟩, rfl⟩
          rcases List.mem_cons.mp hy with rfl | hy
          · exact Nat.le_of_lt (h.head_lt hx).2
          · exact hmax y hy hyo
        · refine .inl ⟨e, ⟨List.mem_cons_self, hle, fun y hy hyo => ?_⟩, by simpa using he⟩
          rcases List.mem_cons.mp hy with rfl | hy
          · exact Nat.le_refl _
          · exact absurd (hall y hy) (Nat.not_lt.mpr hyo)
      · rintro (⟨x, ⟨hx, hxo, hmax⟩, rfl⟩ | ⟨hall, -⟩)
        · rcases List.mem_cons.mp hx with rfl | hx
          · by_cases hany : ∃ y ∈ es, y.startOffset ≤ offset
            · obtain ⟨y, hy, hyo⟩ := hany
              have h1 := hmax y (List.mem_cons_of_mem _ hy) hyo
              have h2 := (h.head_lt hy).2
              omega
            · exact .inr ⟨fun y hy => Nat.lt_of_not_le fun hyo => hany ⟨y, hy, hyo⟩, rfl⟩
          · exact .inl ⟨x, ⟨hx, hxo, fun y hy hyo => hmax y (List.mem_cons_of_mem _ hy) hyo⟩, rfl⟩
        · exact absurd (hall e List.mem_cons_self) hge

/-- `EpochForOffset` finds the epoch of the entry in force. -/
theorem epochForOffset_eq_some {c : EpochCache} (h : Increasing c) {offset : Nat} {epoch : Int32} :
    c.epochForOffset offset = some epoch ↔ ∃ e, c.At offset e ∧ e.epoch = epoch := by
  unfold epochForOffset
  rw [epochLoop_eq h]
  simp

/-- Histories with the same entries below an offset agree below it. -/
theorem epochForOffset_congr {c c' : EpochCache} (h : Increasing c) (h' : Increasing c') {n : Nat}
    (hmem : ∀ x : EpochEntry, x.startOffset < n → (x ∈ c ↔ x ∈ c')) {offset : Nat}
    (ho : offset < n) : c.epochForOffset offset = c'.epochForOffset offset := by
  have hat : ∀ e, c.At offset e ↔ c'.At offset e := by
    intro e
    unfold At
    constructor
    · rintro ⟨he, hle, hmax⟩
      exact ⟨(hmem e (by omega)).mp he, hle, fun x hx hxo =>
        hmax x ((hmem x (by omega)).mpr hx) hxo⟩
    · rintro ⟨he, hle, hmax⟩
      exact ⟨(hmem e (by omega)).mpr he, hle, fun x hx hxo =>
        hmax x ((hmem x (by omega)).mp hx) hxo⟩
  apply Option.ext
  intro epoch
  rw [epochForOffset_eq_some h, epochForOffset_eq_some h']
  simp only [hat]

/-- From the start of the last entry on, its epoch is in force. -/
theorem epochForOffset_last {c : EpochCache} (h : Increasing c) {last : EpochEntry}
    (hl : c.getLast? = some last) {offset : Nat} (ho : last.startOffset ≤ offset) :
    c.epochForOffset offset = some last.epoch := by
  have hlm : last ∈ c := List.mem_of_getLast? hl
  rw [epochForOffset_eq_some h]
  exact ⟨last, ⟨hlm, ho, fun x hx _ => (h.le_iff hx hlm).mp (h.le_last hl hx)⟩, rfl⟩

/-- At its own start an entry is in force. -/
theorem epochForOffset_start {c : EpochCache} (h : Increasing c) {e : EpochEntry} (he : e ∈ c) :
    c.epochForOffset e.startOffset = some e.epoch :=
  (epochForOffset_eq_some h).mpr ⟨e, ⟨he, Nat.le_refl _, fun _ _ hx => hx⟩, rfl⟩

/-! ## Where an epoch ends -/

/-- The answer to a request for the end of an epoch: the newest epoch not newer
than it, or the epoch itself if all are newer, and the start of the first newer
one, or the end of the log if none is. -/
structure Answers (c : EpochCache) (leo : Nat) (requested : Int32) (a : EpochEndOffset) : Prop where
  epoch : (∃ e ∈ c, e.epoch = a.epoch ∧ e.epoch ≤ requested ∧
      ∀ x ∈ c, x.epoch ≤ requested → x.epoch ≤ e.epoch) ∨
    (a.epoch = requested ∧ ∀ x ∈ c, requested < x.epoch)
  upper : ∀ x ∈ c, requested < x.epoch → a.endOffset ≤ x.startOffset
  attained : (∃ x ∈ c, requested < x.epoch ∧ x.startOffset = a.endOffset) ∨
    (a.endOffset = leo ∧ ∀ x ∈ c, x.epoch ≤ requested)

/-- Two neighbours around the requested epoch give the answer. -/
theorem answers_of_split {pre post : EpochCache} {e e' : EpochEntry} {leo : Nat} {r : Int32}
    (h : Increasing (pre ++ e :: e' :: post)) (hle : e.epoch ≤ r) (hlt : r < e'.epoch) :
    Answers (pre ++ e :: e' :: post) leo r ⟨e.epoch, e'.startOffset⟩ := by
  obtain ⟨-, htail, hpre⟩ := List.pairwise_append.mp h
  have hbelow : ∀ x ∈ pre ++ e :: e' :: post, x.epoch ≤ e.epoch ∨
      (e'.epoch ≤ x.epoch ∧ e'.startOffset ≤ x.startOffset) := by
    intro x hx
    rcases List.mem_append.mp hx with hx | hx
    · exact .inl (le_of_lt (hpre x hx e List.mem_cons_self).1)
    · rcases List.mem_cons.mp hx with rfl | hx
      · exact .inl (le_refl _)
      rcases List.mem_cons.mp hx with rfl | hx
      · exact .inr ⟨le_refl _, Nat.le_refl _⟩
      · obtain ⟨h1, h2⟩ := (Increasing.tail htail).head_lt hx
        exact .inr ⟨h1.le, Nat.le_of_lt h2⟩
  refine ⟨.inl ⟨e, by simp, rfl, hle, fun x hx hxr => ?_⟩, fun x hx hxr => ?_,
    .inl ⟨e', by simp, hlt, rfl⟩⟩
  · rcases hbelow x hx with hx | ⟨hx, -⟩
    · exact hx
    · exact absurd (hx.trans hxr) (not_le.mpr hlt)
  · rcases hbelow x hx with hx | ⟨-, hx⟩
    · exact absurd (hx.trans hle) (not_le.mpr hxr)
    · exact hx

/-- The downward loop stops between two neighbours, or above the first entry. -/
theorem floorLoop_cases {r : Int32} : ∀ {c : EpochCache} {last : EpochEntry},
    c.getLast? = some last → r < last.epoch →
      (floorLoop r c = none ∧ ∀ x, c.head? = some x → r < x.epoch) ∨
      ∃ pre e e' post, c = pre ++ e :: e' :: post ∧ e.epoch ≤ r ∧ r < e'.epoch ∧
        floorLoop r c = some ⟨e.epoch, e'.startOffset⟩
  | [], _, hl, _ => by cases hl
  | [e], last, hl, hlt => by
      cases hl
      exact .inl ⟨rfl, fun x hx => by cases hx; exact hlt⟩
  | e :: e' :: es, last, hl, hlt => by
      rcases floorLoop_cases (c := e' :: es) (by simpa using hl) hlt with
        ⟨hnone, hhead⟩ | ⟨pre, x, x', post, hsplit, hle, hx, hsome⟩
      · rw [floorLoop, hnone]
        by_cases hle : e.epoch ≤ r
        · exact .inr ⟨[], e, e', es, rfl, hle, hhead e' rfl, if_pos hle⟩
        · exact .inl ⟨if_neg hle, fun x hx => by cases hx; exact not_le.mp hle⟩
      · rw [floorLoop, hsome]
        exact .inr ⟨e :: pre, x, x', post, by rw [hsplit]; rfl, hle, hx, rfl⟩

/-- `EndOffsetFor`: an epoch newer than every cached one has no answer. -/
theorem endOffsetFor_cases {c : EpochCache} (h : Increasing c) (r : Int32) (leo : Nat) :
    (c.endOffsetFor r leo = none ∧ (r < 0 ∨ ∀ x ∈ c, x.epoch < r)) ∨
    ∃ a, c.endOffsetFor r leo = some a ∧ c.Answers leo r a ∧ 0 ≤ r ∧ ∃ x ∈ c, r ≤ x.epoch := by
  unfold endOffsetFor
  cases c with
  | nil => exact .inl ⟨rfl, .inr fun x hx => absurd hx List.not_mem_nil⟩
  | cons first rest =>
    obtain ⟨last, hl⟩ : ∃ last, (first :: rest).getLast? = some last :=
      ⟨_, List.getLast?_eq_some_getLast (by simp)⟩
    have hlm := List.mem_of_getLast? hl
    rw [hl]
    simp only [List.head?_cons]
    by_cases hneg : r < 0
    · exact .inl ⟨if_pos hneg, .inl hneg⟩
    rw [if_neg hneg]
    have h0 := not_lt.mp hneg
    by_cases hfirst : r < first.epoch
    · have hle : ∀ x ∈ first :: rest, first.epoch ≤ x.epoch ∧
          first.startOffset ≤ x.startOffset := by
        intro x hx
        rcases List.mem_cons.mp hx with rfl | hx
        · exact ⟨le_refl _, Nat.le_refl _⟩
        · exact ⟨(h.head_lt hx).1.le, Nat.le_of_lt (h.head_lt hx).2⟩
      rw [if_pos hfirst]
      exact .inr ⟨_, rfl, ⟨.inr ⟨rfl, fun x hx => hfirst.trans_le (hle x hx).1⟩,
        fun x hx _ => (hle x hx).2, .inl ⟨first, List.mem_cons_self, hfirst, rfl⟩⟩, h0,
        first, List.mem_cons_self, hfirst.le⟩
    rw [if_neg hfirst]
    by_cases hlast : r = last.epoch
    · rw [if_pos hlast]
      have hle : ∀ x ∈ first :: rest, x.epoch ≤ r := fun x hx => hlast ▸ h.le_last hl hx
      exact .inr ⟨_, rfl, ⟨.inl ⟨last, hlm, rfl, hlast.ge, fun x hx _ => h.le_last hl hx⟩,
        fun x hx hlt => absurd (hle x hx) (not_le.mpr hlt), .inr ⟨rfl, hle⟩⟩, h0, last, hlm,
        hlast.le⟩
    rw [if_neg hlast]
    by_cases hnewer : last.epoch < r
    · rw [if_pos hnewer]
      exact .inl ⟨rfl, .inr fun x hx => (h.le_last hl hx).trans_lt hnewer⟩
    rw [if_neg hnewer]
    have hlt : r < last.epoch := lt_of_le_of_ne (not_lt.mp hnewer) hlast
    rcases floorLoop_cases hl hlt with ⟨-, hhead⟩ | ⟨pre, e, e', post, hsplit, hle, hlt', hsome⟩
    · exact absurd (hhead first rfl) hfirst
    · rw [hsome]
      refine .inr ⟨_, rfl, ?_, h0, last, hlm, hlt.le⟩
      rw [hsplit] at h ⊢
      exact answers_of_split h hle hlt'

theorem answers_of_endOffsetFor {c : EpochCache} (h : Increasing c) {r : Int32} {leo : Nat}
    {a : EpochEndOffset} (ha : c.endOffsetFor r leo = some a) :
    c.Answers leo r a ∧ 0 ≤ r ∧ ∃ x ∈ c, r ≤ x.epoch := by
  rcases endOffsetFor_cases h r leo with ⟨hnone, -⟩ | ⟨a', ha', hans⟩
  · rw [hnone] at ha
    cases ha
  · rw [ha'] at ha
    cases ha
    exact hans

/-- A request for an older epoch ends earlier. -/
theorem Answers.end_le {c : EpochCache} {leo : Nat} {a b : Int32} {x y : EpochEndOffset}
    (hx : c.Answers leo a x) (hy : c.Answers leo b y) (hab : a ≤ b) :
    min x.endOffset leo ≤ y.endOffset := by
  rcases hy.attained with ⟨z, hz, hlt, he⟩ | ⟨he, -⟩
  · have := hx.upper z hz (hab.trans_lt hlt)
    omega
  · omega

theorem Answers.epoch_le {c : EpochCache} {leo : Nat} {a : Int32} {x : EpochEndOffset}
    (hx : c.Answers leo a x) : x.epoch ≤ a := by
  rcases hx.epoch with ⟨e, -, he, hle, -⟩ | ⟨he, -⟩
  · exact he ▸ hle
  · exact he.le

/-- Requests between a cached epoch and one it answers have the same answer. -/
theorem Answers.eq_of_between {c : EpochCache} {leo : Nat} {a b : Int32} {x y : EpochEndOffset}
    (hx : c.Answers leo a x) (hy : c.Answers leo b y) {e : EpochEntry} (he : e ∈ c)
    (hey : e.epoch = y.epoch) (hea : e.epoch ≤ a) (hab : a ≤ b) : x = y := by
  have hmax : ∀ z ∈ c, z.epoch ≤ b → z.epoch ≤ e.epoch := by
    rcases hy.epoch with ⟨e', -, he', -, hmax⟩ | ⟨-, hall⟩
    · rw [hey, ← he']
      exact hmax
    · exact absurd (hall e he) (not_lt.mpr (hea.trans hab))
  have hnewer : ∀ z ∈ c, a < z.epoch → b < z.epoch := fun z hz hlt =>
    not_le.mp fun hle => not_lt.mpr ((hmax z hz hle).trans hea) hlt
  have hepoch : x.epoch = y.epoch := by
    rcases hx.epoch with ⟨e', he', hx', hle, hmax'⟩ | ⟨-, hall⟩
    · rw [← hx', ← hey]
      exact le_antisymm (hmax e' he' (hle.trans hab)) (hmax' e he hea)
    · exact absurd (hall e he) (not_lt.mpr hea)
  have hend : x.endOffset = y.endOffset := by
    rcases hx.attained with ⟨z, hz, hlt, hzx⟩ | ⟨hxl, hall⟩
    · have h1 := hy.upper z hz (hnewer z hz hlt)
      rcases hy.attained with ⟨w, hw, hlt', hwy⟩ | ⟨-, hall⟩
      · have h2 := hx.upper w hw (hab.trans_lt hlt')
        omega
      · exact absurd (hall z hz) (not_le.mpr (hnewer z hz hlt))
    · rcases hy.attained with ⟨w, hw, hlt', -⟩ | ⟨hyl, -⟩
      · exact absurd (hall w hw) (not_le.mpr (hab.trans_lt hlt'))
      · omega
  obtain ⟨xe, xo⟩ := x
  obtain ⟨ye, yo⟩ := y
  simp only at hepoch hend
  rw [hepoch, hend]

end EpochCache

end MessageBroker.Storage
