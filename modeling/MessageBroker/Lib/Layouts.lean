import MessageBroker.Lib.Cursors

/-!
# Readers with a sticky error

Two ways to read a structure off some input. A layout stops at the first field it
cannot read. A sticky reader notes the error, goes on with zero values and reports
the error at its end. `Follows` says that the second does what the first one says:
where the layout reads a value so does the reader, and where the layout refuses the
input the reader has noted an error. A layout may also get stuck, where the reader
has no result at all.
-/
namespace MessageBroker.Lib.Layouts

open Lib.Bytes Lib.Cursors

/-- Why a layout stops. -/
inductive Stop (ω : Type) where
  | refused
  | stuck (why : ω)
  deriving DecidableEq

/-- The layout reads or refuses its input. -/
def unstuck {α ω : Type} : Except (Stop ω) α → Bool
  | .error (.stuck _) => false
  | _ => true

/-- A reader over a place `τ` in some input that stops at once. -/
abbrev Layout (τ ω : Type) := StateT τ (Except (Stop ω))

/-- How the states of a sticky reader stand: at a place of the input, or failed. -/
structure Sticky (σ τ : Type) where
  stands : σ → τ → Prop
  failed : σ → Prop

variable {σ τ ω ε α β : Type}

/-- The results of a reader and of a layout. -/
def Agree (c : Sticky σ τ) : Except ε (α × σ) → Except (Stop ω) (α × τ) → Prop
  | .ok (v, s), .ok (v', t) => v = v' ∧ c.stands s t
  | .ok (_, s), .error .refused => c.failed s
  | .error _, .error (.stuck _) => True
  | _, _ => False

/-- A failed reader returns, and stays failed. -/
def StaysFailed (c : Sticky σ τ) (x : StateT σ (Except ε) α) : Prop :=
  ∀ s, c.failed s → ∃ v s', x s = .ok (v, s') ∧ c.failed s'

structure Follows (c : Sticky σ τ) (x : StateT σ (Except ε) α) (l : Layout τ ω α) : Prop where
  agree : ∀ s t, c.stands s t → Agree c (x s) (l t)
  sticky : StaysFailed c x

variable {c : Sticky σ τ} {x : StateT σ (Except ε) α} {l : Layout τ ω α}

/-! ## Sequences of layouts -/

/-! ## The rules -/

theorem follows_pure (v : α) :
    Follows c (pure v : StateT σ (Except ε) α) (pure v : Layout τ ω α) where
  agree _ _ hs := ⟨rfl, hs⟩
  sticky s hs := ⟨v, s, rfl, hs⟩

/-- A reader that returns a value and changes nothing. -/
theorem follows_const {v : α} (h : ∀ s, x s = .ok (v, s)) :
    Follows c x (pure v : Layout τ ω α) where
  agree s _ hs := by
    rw [h s]
    exact ⟨rfl, hs⟩
  sticky s hs := ⟨v, s, h s, hs⟩

/-- A failed read returns `z`, and a read that succeeds leaves value and place as `P`
says. -/
structure Returns (c : Sticky σ τ) (x : StateT σ (Except ε) α) (l : Layout τ ω α) (z : α → Prop)
    (P : α → τ → Prop) : Prop where
  refused : ∀ s t v s', c.stands s t → l t = .error .refused → x s = .ok (v, s') → z v
  failed : ∀ s v s', c.failed s → x s = .ok (v, s') → z v
  read : ∀ s t v t', c.stands s t → l t = .ok (v, t') → P v t'

/-- The rule for a sequence whose second part relies on what the first one returns. -/
theorem Follows.bind_of {f : α → StateT σ (Except ε) β} {g : α → Layout τ ω β} {z : α → Prop}
    {P : α → τ → Prop} (hx : Follows c x l) (hreturns : Returns c x l z P)
    (hagree : ∀ v s t, P v t → c.stands s t → Agree c (f v s) (g v t))
    (hsticky : ∀ v, z v → StaysFailed c (f v)) : Follows c (x >>= f) (l >>= g) where
  sticky s hs := by
    obtain ⟨v, s₁, hrun, hs₁⟩ := hx.sticky s hs
    obtain ⟨u, s₂, hnext, hs₂⟩ := hsticky v (hreturns.failed s v s₁ hs hrun) s₁ hs₁
    exact ⟨u, s₂, (bind_ok hrun).trans hnext, hs₂⟩
  agree s t hs := by
    have hfirst := hx.agree s t hs
    rcases hrun : x s with e | ⟨v, s₁⟩
    · have herror : (x >>= f) s = .error e := by
        show (do let (a, u) ← x s; f a u) = _
        rw [hrun]
        rfl
      rcases hread : l t with stop | ⟨v', t₁⟩
      · rw [hrun, hread] at hfirst
        rw [bind_error hread, herror]
        cases stop with
        | refused => exact hfirst.elim
        | stuck => trivial
      · rw [hrun, hread] at hfirst
        exact hfirst.elim
    · rw [bind_ok hrun]
      rcases hread : l t with stop | ⟨v', t₁⟩
      · rw [hrun, hread] at hfirst
        rw [bind_error hread]
        cases stop with
        | refused =>
          have hz := hreturns.refused s t v s₁ hs hread hrun
          obtain ⟨u, s₂, hnext, hs₂⟩ := hsticky v hz s₁ hfirst
          rw [hnext]
          exact hs₂
        | stuck => exact hfirst.elim
      · rw [hrun, hread] at hfirst
        obtain ⟨rfl, hs₁⟩ := hfirst
        rw [bind_ok hread]
        exact hagree v s₁ t₁ (hreturns.read s t v t₁ hs hread) hs₁

theorem Follows.bind {f : α → StateT σ (Except ε) β} {g : α → Layout τ ω β}
    (hx : Follows c x l) (hf : ∀ v, Follows c (f v) (g v)) :
    Follows c (x >>= f) (l >>= g) :=
  hx.bind_of (z := fun _ => True) (P := fun _ _ => True)
    ⟨fun _ _ _ _ _ _ _ => trivial, fun _ _ _ _ _ => trivial, fun _ _ _ _ _ _ => trivial⟩
    (fun v s t _ hs => (hf v).agree s t hs) fun v _ => (hf v).sticky

/-- The last field of a sequence. -/
theorem Follows.return {f : α → β} (hx : Follows c x l) :
    Follows c (x >>= fun a => pure (f a)) (l >>= fun a => pure (f a)) :=
  hx.bind fun v => follows_pure (f v)

theorem Follows.ite {b : Prop} [Decidable b] {y : StateT σ (Except ε) α} {m : Layout τ ω α}
    (hx : Follows c x l) (hy : Follows c y m) :
    Follows c (if b then x else y) (if b then l else m) := by
  by_cases hb : b
  · rw [if_pos hb, if_pos hb]
    exact hx
  · rw [if_neg hb, if_neg hb]
    exact hy

theorem Follows.rounds {f : Nat → StateT σ (Except ε) α} {g : Nat → Layout τ ω α}
    (h : ∀ i, Follows c (f i) (g i)) (i n : Nat) :
    Follows c (rounds f i n) (rounds g i n) := by
  induction n generalizing i with
  | zero => exact follows_pure []
  | succ n ih => exact (h i).bind fun a => (ih (i + 1)).return

/-- A reader that first looks whether it has failed. -/
theorem Follows.unless {failed : σ → Prop} [DecidablePred failed] (v : α)
    (hx : Follows c x l) (hgood : ∀ s t, c.stands s t → ¬ failed s)
    (hbad : ∀ s, c.failed s → failed s) :
    Follows c (get >>= fun s => if failed s then pure v else x) l where
  agree s t hs := by
    have hget : (get : StateT σ (Except ε) σ) s = .ok (s, s) := rfl
    rw [bind_ok hget, if_neg (hgood s t hs)]
    exact hx.agree s t hs
  sticky s hs := by
    have hget : (get : StateT σ (Except ε) σ) s = .ok (s, s) := rfl
    rw [bind_ok hget, if_pos (hbad s hs)]
    exact ⟨v, s, rfl, hs⟩

/-! ## Layouts that do not get stuck -/

/-- From a good place the layout stops only to refuse, and what it reads is as `Q` says. -/
def Sure (good : τ → Prop) (Q : α → Prop) (l : Layout τ ω α) : Prop :=
  ∀ t, good t → match l t with
    | .ok (v, t') => Q v ∧ good t'
    | .error .refused => True
    | .error (.stuck _) => False

variable {good : τ → Prop} {Q : α → Prop} {R : β → Prop}

theorem sure_pure {v : α} (h : Q v) : Sure good Q (pure v : Layout τ ω α) :=
  fun _ ht => ⟨h, ht⟩

theorem Sure.bind {g : α → Layout τ ω β} (hl : Sure good Q l) (hg : ∀ v, Q v → Sure good R (g v)) :
    Sure good R (l >>= g) := by
  intro t ht
  have hfirst := hl t ht
  rcases hread : l t with stop | ⟨v, t'⟩
  · rw [hread] at hfirst
    rw [bind_error hread]
    cases stop with
    | refused => trivial
    | stuck => exact hfirst
  · rw [hread] at hfirst
    rw [bind_ok hread]
    exact hg v hfirst.1 t' hfirst.2

theorem Sure.return {f : α → β} (hl : Sure good Q l) (hf : ∀ v, Q v → R (f v)) :
    Sure good R (l >>= fun a => pure (f a)) :=
  hl.bind fun v hv => sure_pure (hf v hv)

/-- As many items as there are rounds, each as `Q` says. -/
theorem Sure.rounds {g : Nat → Layout τ ω α} (h : ∀ i, Sure good Q (g i)) (i n : Nat) :
    Sure good (fun as => as.length = n ∧ ∀ a ∈ as, Q a) (rounds g i n) := by
  induction n generalizing i with
  | zero => exact sure_pure ⟨rfl, fun _ ha => absurd ha List.not_mem_nil⟩
  | succ n ih =>
    refine (h i).bind fun a ha => (ih (i + 1)).return fun as has => ?_
    refine ⟨congrArg Nat.succ has.1, fun b hb => ?_⟩
    rcases List.mem_cons.mp hb with rfl | hb
    · exact ha
    · exact has.2 b hb

/-! ## Layouts that go forward -/

section Forward

variable [Preorder τ] {limit : τ}

/-- The layout does not go back. -/
def Keeps (l : Layout τ ω α) : Prop := ∀ t v t', l t = .ok (v, t') → t ≤ t'

/-- The layout goes on, from a place before the limit. -/
def Goes (limit : τ) (l : Layout τ ω α) : Prop :=
  ∀ t v t', l t = .ok (v, t') → t < t' ∧ t < limit

theorem keeps_pure (v : α) : Keeps (pure v : Layout τ ω α) := by
  rintro t u t' ⟨⟩
  exact le_refl t

theorem Goes.keeps (h : Goes limit l) : Keeps l := fun t v t' hl => (h t v t' hl).1.le

theorem Keeps.bind {g : α → Layout τ ω β} (hl : Keeps l) (hg : ∀ v, Keeps (g v)) :
    Keeps (l >>= g) := by
  intro t v t'' h
  obtain ⟨u, t', hlt, hgt⟩ := of_bind_ok h
  exact (hl t u t' hlt).trans (hg u t' v t'' hgt)

theorem Goes.bind {g : α → Layout τ ω β} (hl : Goes limit l) (hg : ∀ v, Keeps (g v)) :
    Goes limit (l >>= g) := by
  intro t v t'' h
  obtain ⟨u, t', hlt, hgt⟩ := of_bind_ok h
  obtain ⟨hlt', hlimit⟩ := hl t u t' hlt
  exact ⟨hlt'.trans_le (hg u t' v t'' hgt), hlimit⟩

end Forward

/-! ## Readers that stop at once -/

/-- The results of a reader that stops at its first error, where some errors are
crashes, and of a layout that is stuck at the crashes. -/
def Matches (S : σ → τ → Prop) (crash : ε → Prop) (V : α → β → Prop) :
    Except ε (α × σ) → Except (Stop ω) (β × τ) → Prop
  | .ok (v, s), .ok (v', t) => V v v' ∧ S s t
  | .error e, .error .refused => ¬ crash e
  | .error e, .error (.stuck _) => crash e
  | _, _ => False

/-- From states that stand as `S` says to states that stand as `S'` says. -/
def Tracks (S S' : σ → τ → Prop) (crash : ε → Prop) (V : α → β → Prop)
    (x : StateT σ (Except ε) α) (l : Layout τ ω β) : Prop :=
  ∀ s t, S s t → Matches S' crash V (x s) (l t)

section Tracks

variable {γ δ : Type} {S S' S'' : σ → τ → Prop} {crash : ε → Prop} {V : α → β → Prop}
  {W : γ → δ → Prop} {m : Layout τ ω β}

theorem tracks_pure {v : α} {v' : β} (h : V v v') :
    Tracks S S crash V (pure v : StateT σ (Except ε) α) (pure v' : Layout τ ω β) :=
  fun _ _ hs => ⟨h, hs⟩

theorem Tracks.bind {f : α → StateT σ (Except ε) γ} {g : β → Layout τ ω δ}
    (hx : Tracks S S' crash V x m) (hf : ∀ v v', V v v' → Tracks S' S'' crash W (f v) (g v')) :
    Tracks S S'' crash W (x >>= f) (m >>= g) := by
  intro s t hs
  have hfirst := hx s t hs
  rcases hrun : x s with e | ⟨v, s₁⟩
  · have herror : (x >>= f) s = .error e := by
      show (do let (a, u) ← x s; f a u) = _
      rw [hrun]
      rfl
    rcases hread : m t with stop | ⟨v', t₁⟩
    · rw [hrun, hread] at hfirst
      rw [bind_error hread, herror]
      cases stop with
      | refused => exact hfirst
      | stuck why => exact hfirst
    · rw [hrun, hread] at hfirst
      exact hfirst.elim
  · rcases hread : m t with stop | ⟨v', t₁⟩
    · rw [hrun, hread] at hfirst
      exact hfirst.elim
    · rw [hrun, hread] at hfirst
      rw [bind_ok hrun, bind_ok hread]
      exact hf v v' hfirst.1 s₁ t₁ hfirst.2

end Tracks

/-! ## Layouts over the bytes still to come -/

/-- The next `n` bytes. -/
def takeBytes (n : Nat) : Layout ByteString Empty ByteString := fun rest =>
  if n ≤ rest.length then .ok (rest.take n, rest.drop n) else .error .refused

theorem takeBytes_ok {n : Nat} {rest : ByteString} (h : n ≤ rest.length) :
    takeBytes n rest = .ok (rest.take n, rest.drop n) := if_pos h

theorem takeBytes_refused {n : Nat} {rest : ByteString} (h : rest.length < n) :
    takeBytes n rest = .error .refused := if_neg (Nat.not_le.mpr h)

end MessageBroker.Lib.Layouts
