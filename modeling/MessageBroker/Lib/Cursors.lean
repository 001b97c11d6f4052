import MessageBroker.Lib.Bytes

/-!
# Readers that take exactly what was written

A reader is a fallible computation over a state that stands at a position of some
input. `Reads` is the half of a round trip that composes: in front of the bytes `w`
the reader answers `v` and stands behind them, whatever follows. Positions are
numbers of bounded size, so the rule holds below a limit.
-/
namespace MessageBroker.Lib.Cursors

open Lib.Bytes

section Steps

variable {σ ε α β : Type} {x : StateT σ (Except ε) α} {f : α → StateT σ (Except ε) β}

/-- A step that returns hands its value and state on. -/
theorem bind_ok {s s' : σ} {v : α} (h : x s = .ok (v, s')) : (x >>= f) s = f v s' := by
  show (do let (a, t) ← x s; f a t) = f v s'
  rw [h]
  rfl

theorem bind_error {s : σ} {e : ε} (h : x s = .error e) : (x >>= f) s = .error e := by
  show (do let (a, t) ← x s; f a t) = .error e
  rw [h]
  rfl

/-- A sequence that returns has returned from its first step. -/
theorem of_bind_ok {s s'' : σ} {v : β} (h : (x >>= f) s = .ok (v, s'')) :
    ∃ u s', x s = .ok (u, s') ∧ f u s' = .ok (v, s'') := by
  rcases hx : x s with e | ⟨u, s'⟩
  · rw [bind_error hx] at h
    cases h
  · rw [bind_ok hx] at h
    exact ⟨u, s', rfl, h⟩

end Steps

/-- How the states of a reader stand in their input: at a position, before the
bytes still to come. -/
structure Cursor (σ : Type) where
  stands : σ → Nat → ByteString → Prop
  limit : Nat

/-- `f` for `n` rounds from round `i` on, with the results in order. -/
def rounds {m : Type → Type} [Monad m] {α : Type} (f : Nat → m α) : Nat → Nat → m (List α)
  | _, 0 => pure []
  | i, n + 1 => do
      let a ← f i
      let as ← rounds f (i + 1) n
      return a :: as

/-- Rounds whose results are mapped one by one. -/
theorem rounds_bind_pure {m : Type → Type} [Monad m] [LawfulMonad m] {α β : Type} (f : Nat → m α)
    (g : α → β) (i n : Nat) :
    rounds (fun j => f j >>= fun a => pure (g a)) i n =
      rounds f i n >>= fun as => pure (as.map g) := by
  induction n generalizing i with
  | zero => simp only [rounds, pure_bind, List.map_nil]
  | succ n ih => simp only [rounds, ih, bind_assoc, pure_bind, List.map_cons]

/-- The items of a list, written one after the other from number `i` on. -/
def writeAll {α : Type} (write : Nat → α → ByteString) : Nat → List α → ByteString
  | _, [] => []
  | i, a :: as => write i a ++ writeAll write (i + 1) as

namespace Cursor

variable {σ ε α β : Type}

def Reads (c : Cursor σ) (x : StateT σ (Except ε) α) (w : ByteString) (v : α) : Prop :=
  ∀ s p rest, c.stands s p (w ++ rest) → p + w.length < c.limit →
    ∃ s', x s = .ok (v, s') ∧ c.stands s' (p + w.length) rest

variable {c : Cursor σ} {x : StateT σ (Except ε) α} {w w' : ByteString} {v : α} {u : β}

theorem reads_pure (v : α) : c.Reads (pure v : StateT σ (Except ε) α) [] v :=
  fun s _ _ hs _ => ⟨s, rfl, hs⟩

theorem Reads.of_eq (h : c.Reads x w v) (hw : w' = w) : c.Reads x w' v := hw ▸ h

theorem Reads.bind {f : α → StateT σ (Except ε) β} (hx : c.Reads x w v)
    (hf : c.Reads (f v) w' u) : c.Reads (x >>= f) (w ++ w') u := by
  intro s p rest hs hlt
  rw [List.append_assoc] at hs
  rw [List.length_append] at hlt ⊢
  obtain ⟨s₁, h1, hs₁⟩ := hx s p _ hs (by omega)
  obtain ⟨s₂, h2, hs₂⟩ := hf s₁ _ rest hs₁ (by omega)
  exact ⟨s₂, (bind_ok h1).trans h2, by rwa [Nat.add_assoc] at hs₂⟩

/-- The last read of a sequence. -/
theorem Reads.return {f : α → β} (hx : c.Reads x w v) :
    c.Reads (x >>= fun a => pure (f a)) w (f v) :=
  (hx.bind (reads_pure (f v))).of_eq (List.append_nil w).symm

/-- A step that only looks: it may rely on all the bytes its sequence is to read. -/
theorem Reads.look {f : α → StateT σ (Except ε) β}
    (hx : ∀ s p rest, c.stands s p (w ++ rest) → p + w.length < c.limit → x s = .ok (v, s))
    (hf : c.Reads (f v) w u) : c.Reads (x >>= f) w u := by
  intro s p rest hs hlt
  obtain ⟨s', h, hs'⟩ := hf s p rest hs hlt
  exact ⟨s', (bind_ok (hx s p rest hs hlt)).trans h, hs'⟩

/-- The state itself, where every state that stands before the bytes goes on alike. -/
theorem Reads.get {f : σ → StateT σ (Except ε) β} {y : StateT σ (Except ε) β}
    (hf : ∀ s p rest, c.stands s p (w ++ rest) → f s = y) (hy : c.Reads y w u) :
    c.Reads (get >>= f) w u := by
  intro s p rest hs hlt
  obtain ⟨s', h, hs'⟩ := hy s p rest hs hlt
  have hget : (MonadState.get : StateT σ (Except ε) σ) s = .ok (s, s) := rfl
  exact ⟨s', by rw [bind_ok hget, hf s p rest hs, h], hs'⟩

/-- What is read is shorter than the limit. -/
theorem Reads.bounded (h : w.length < c.limit → c.Reads x w v) : c.Reads x w v := by
  intro s p rest hs hlt
  exact h (by omega) s p rest hs hlt

/-- A field that only some versions have: where it is absent it keeps a default. -/
theorem Reads.ite (b : Prop) [Decidable b] (z : α) (hx : c.Reads x w v) :
    c.Reads (if b then x else pure z) (if b then w else []) (if b then v else z) := by
  by_cases hb : b
  · rw [if_pos hb, if_pos hb, if_pos hb]
    exact hx
  · rw [if_neg hb, if_neg hb, if_neg hb]
    exact reads_pure z

/-- Rounds that read each written item as its image. -/
theorem Reads.rounds_map {f : Nat → StateT σ (Except ε) β} {write : Nat → α → ByteString}
    {g : α → β} {as : List α} (h : ∀ i, ∀ a ∈ as, c.Reads (f i) (write i a) (g a)) (i : Nat) :
    c.Reads (rounds f i as.length) (writeAll write i as) (as.map g) := by
  induction as generalizing i with
  | nil => exact reads_pure []
  | cons a as ih =>
    have hrest := ih (fun j b hb => h j b (List.mem_cons_of_mem a hb)) (i + 1)
    exact (h i a List.mem_cons_self).bind hrest.return

theorem Reads.rounds {f : Nat → StateT σ (Except ε) α} {write : Nat → α → ByteString}
    {as : List α} (h : ∀ i, ∀ a ∈ as, c.Reads (f i) (write i a) a) (i : Nat) :
    c.Reads (rounds f i as.length) (writeAll write i as) as := by
  have hmap := Reads.rounds_map (g := id) h i
  rwa [List.map_id] at hmap

end Cursor

end MessageBroker.Lib.Cursors
