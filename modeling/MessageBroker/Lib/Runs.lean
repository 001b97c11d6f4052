import Mathlib

/-!
# Finite runs of a step function

A component answers an input with an output and a new state. The file folds
such a step over a list of inputs, keeps the outputs, and packages the one
induction every invariant of a component needs. A guarded run is a run whose
inputs all satisfy a condition in the state in which they are taken.
-/
namespace MessageBroker.Lib.Runs

variable {σ ι ω : Type*} (step : σ → ι → ω × σ)

/-- The state after all inputs. -/
def final : σ → List ι → σ
  | s, [] => s
  | s, i :: is => final (step s i).2 is

/-- One output per input, in order. -/
def outputs : σ → List ι → List ω
  | _, [] => []
  | s, i :: is => (step s i).1 :: outputs (step s i).2 is

/-- Every input meets the condition in the state in which it is taken. -/
def Guarded (G : σ → ι → Prop) : σ → List ι → Prop
  | _, [] => True
  | s, i :: is => G s i ∧ Guarded G (step s i).2 is

/-- The condition holds in every state of a run, the first and the last included. -/
def Always (P : σ → Prop) : σ → List ι → Prop
  | s, [] => P s
  | s, i :: is => P s ∧ Always P (step s i).2 is

/-- What an observer notes along a run, in order. -/
def collect {α : Type*} (f : σ → ι → Option α) : σ → List ι → List α
  | _, [] => []
  | s, i :: is => (f s i).toList ++ collect f (step s i).2 is

@[simp] theorem final_nil (s : σ) : final step s [] = s := rfl

@[simp] theorem final_cons (s : σ) (i : ι) (is : List ι) :
    final step s (i :: is) = final step (step s i).2 is := rfl

theorem final_append (s : σ) (is js : List ι) :
    final step s (is ++ js) = final step (final step s is) js := by
  induction is generalizing s with
  | nil => rfl
  | cons i is ih => exact ih (step s i).2

theorem outputs_append (s : σ) (is js : List ι) :
    outputs step s (is ++ js) = outputs step s is ++ outputs step (final step s is) js := by
  induction is generalizing s with
  | nil => rfl
  | cons i is ih => simp only [List.cons_append, outputs, final_cons, ih]

/-- A condition on the inputs alone guards every run of them. -/
theorem guarded_of_forall {G : ι → Prop} {is : List ι} (h : ∀ i ∈ is, G i) (s : σ) :
    Guarded step (fun _ i => G i) s is := by
  induction is generalizing s with
  | nil => trivial
  | cons i is ih =>
    exact ⟨h i List.mem_cons_self, ih (fun j hj => h j (List.mem_cons_of_mem i hj)) _⟩

/-- What every step preserves holds at the end of every run. -/
theorem invariant {P : σ → Prop} (hstep : ∀ s i, P s → P (step s i).2)
    {s : σ} (hs : P s) (is : List ι) : P (final step s is) := by
  induction is generalizing s with
  | nil => exact hs
  | cons i is ih => exact ih (hstep s i hs)

/-- The same rule when the step preserves the invariant only under a guard. -/
theorem invariant_guarded {P : σ → Prop} {G : σ → ι → Prop}
    (hstep : ∀ s i, P s → G s i → P (step s i).2)
    {s : σ} (hs : P s) (is : List ι) (hg : Guarded step G s is) : P (final step s is) := by
  induction is generalizing s with
  | nil => exact hs
  | cons i is ih => exact ih (hstep s i hs hg.1) hg.2

theorem Always.mono {P Q : σ → Prop} (h : ∀ s, P s → Q s) {s : σ} {is : List ι}
    (hs : Always step P s is) : Always step Q s is := by
  induction is generalizing s with
  | nil => exact h s hs
  | cons i is ih => exact ⟨h s hs.1, ih hs.2⟩

/-- If a step from a good state leads to a good state exactly under a condition,
then a run stays good exactly if its steps all meet the condition. -/
theorem always_iff_guarded {P : σ → Prop} {G C : σ → ι → Prop}
    (hstep : ∀ s i, P s → G s i → (P (step s i).2 ↔ C s i))
    {s : σ} (hs : P s) (is : List ι) (hg : Guarded step G s is) :
    Always step P s is ↔ Guarded step C s is := by
  induction is generalizing s with
  | nil => exact iff_of_true hs trivial
  | cons i is ih =>
    have hi := hstep s i hs hg.1
    constructor
    · rintro ⟨-, hrest⟩
      have hnext : P (step s i).2 := by
        cases is with
        | nil => exact hrest
        | cons j js => exact hrest.1
      exact ⟨hi.mp hnext, (ih hnext hg.2).mp hrest⟩
    · rintro ⟨hc, hrest⟩
      exact ⟨hs, (ih (hi.mpr hc) hg.2).mpr hrest⟩

/-- An invariant holds in every state of a run, and what every step from a good
state does is done by all its steps. -/
theorem always_guarded {P : σ → Prop} {G Q : σ → ι → Prop}
    (hstep : ∀ s i, P s → G s i → P (step s i).2 ∧ Q s i)
    {s : σ} (hs : P s) (is : List ι) (hg : Guarded step G s is) :
    Always step P s is ∧ Guarded step Q s is := by
  induction is generalizing s with
  | nil => exact ⟨hs, trivial⟩
  | cons i is ih =>
    obtain ⟨hnext, hq⟩ := hstep s i hs hg.1
    obtain ⟨ha, hrest⟩ := ih hnext hg.2
    exact ⟨⟨hs, ha⟩, hq, hrest⟩

theorem collect_append {α : Type*} (f : σ → ι → Option α) (s : σ) (is js : List ι) :
    collect step f s (is ++ js) = collect step f s is ++ collect step f (final step s is) js := by
  induction is generalizing s with
  | nil => rfl
  | cons i is ih => simp only [List.cons_append, collect, final_cons, ih, List.append_assoc]

theorem length_collect_le {α : Type*} (f : σ → ι → Option α) (s : σ) (is : List ι) :
    (collect step f s is).length ≤ is.length := by
  induction is generalizing s with
  | nil => exact Nat.le_refl _
  | cons i is ih =>
    have h := ih (step s i).2
    have ho : (f s i).toList.length ≤ 1 := by cases f s i <;> simp
    simp only [collect, List.length_append, List.length_cons]
    omega

/-- An invariant that also speaks about what has been noted so far. -/
theorem invariant_collect_guarded {α : Type*} {f : σ → ι → Option α} {P : σ → List α → Prop}
    {G : σ → ι → Prop}
    (hstep : ∀ s i acc, P s acc → G s i → P (step s i).2 (acc ++ (f s i).toList))
    {s : σ} {acc : List α} (hs : P s acc) (is : List ι) (hg : Guarded step G s is) :
    P (final step s is) (acc ++ collect step f s is) := by
  induction is generalizing s acc with
  | nil => simpa [collect] using hs
  | cons i is ih =>
    have h := ih (hstep s i acc hs hg.1) hg.2
    rwa [List.append_assoc] at h

/-- An invariant that also speaks about the outputs so far. -/
theorem invariant_outputs_guarded {P : σ → List ω → Prop} {G : σ → ι → Prop}
    (hstep : ∀ s i acc, P s acc → G s i → P (step s i).2 (acc ++ [(step s i).1]))
    {s : σ} {acc : List ω} (hs : P s acc) (is : List ι) (hg : Guarded step G s is) :
    P (final step s is) (acc ++ outputs step s is) := by
  induction is generalizing s acc with
  | nil => simpa [outputs] using hs
  | cons i is ih =>
    have h := ih (hstep s i acc hs hg.1) hg.2
    rwa [List.append_assoc] at h

theorem invariant_collect {α : Type*} {f : σ → ι → Option α} {P : σ → List α → Prop}
    (hstep : ∀ s i acc, P s acc → P (step s i).2 (acc ++ (f s i).toList))
    {s : σ} {acc : List α} (hs : P s acc) (is : List ι) :
    P (final step s is) (acc ++ collect step f s is) :=
  invariant_collect_guarded step (fun s i acc h _ => hstep s i acc h) hs is
    (guarded_of_forall step (G := fun _ => True) (fun _ _ => trivial) s)

end MessageBroker.Lib.Runs
