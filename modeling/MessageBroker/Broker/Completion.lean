import MessageBroker.Broker.Goroutines

/-!
# Completing the producers that wait

A producer that waits for the high watermark is completed by whoever moves the
watermark, failed by whoever takes the leadership away or closes the partition, or gives
up when its request expires. However these interleave, a channel is closed once, without
an error only when the watermark has been reached, and nobody is left waiting who should
have been completed once all calls have returned. The entry that is pushed after the
watermark has passed it is completed by the call that pushes it.
-/
namespace MessageBroker.Broker

open Lib Storage

/-! ## What a goroutine will do -/

namespace Place

/-- It holds `appendMu`. -/
def holds : Place → Bool
  | .checkClosed .. | .checkLeader .. | .store .. | .push _ | .pushed | .unlocking
  | .isrLocked .. | .roleLocked _ | .roleStored _ | .roleAssigned | .closeLocked
  | .closeUnlocking => true
  | .advancing held _ => held
  | _ => false

/-- It has seen that the partition is open, and may push. -/
def armed : Place → Bool
  | .checkLeader .. | .store .. | .push _ => true
  | _ => false

/-- It will fail every entry, after it has taken the leadership or closed the partition. -/
def fails : Place → Bool
  | .roleStored _ | .roleAssigned | .roleFailing => true
  | _ => false

def closes : Place → Bool
  | .closeWaiting | .closeLocked => true
  | _ => false

/-- It will complete an entry that waits for `requiredHW` if the watermark is there. -/
def covers (requiredHW : Nat) : Place → Bool
  | .pushed => true
  | .advancing _ (.drain hw _) => decide (requiredHW ≤ hw)
  | .advancing _ .done => false
  | .advancing _ _ => true
  | _ => false

/-- What a goroutine has seen and relies on. -/
def Local (p : Partition) : Place → Prop
  | .store .. | .push _ => p.isLeader = true
  | .isrWaiting _ ids | .isrLocked _ ids => ids ≠ []
  | .roleStored _ => p.isLeader = false
  | .advancing _ (.loaded newHW current) => current < newHW
  | .advancing _ (.drain hw _) => hw ≤ p.highWatermark
  | _ => True

/-- The call has returned. -/
def finished : Place → Bool
  | .done | .advancing false .done => true
  | _ => false

theorem holds_of_armed {place : Place} (h : place.armed = true) : place.holds = true := by
  cases place <;> first | rfl | cases h

theorem fails_of_finished (place : Place) (h : place.finished = true) : place.fails = false := by
  cases place <;> first | rfl | cases h

theorem closes_of_finished (place : Place) (h : place.finished = true) :
    place.closes = false := by
  cases place <;> first | rfl | cases h

theorem covers_of_finished (r : Nat) (place : Place) (h : place.finished = true) :
    place.covers r = false := by
  cases place with
  | advancing held phase => cases held <;> cases phase <;> first | rfl | cases h
  | _ => first | rfl | cases h

theorem Local.mono {p p' : Partition} (hl : p'.isLeader = p.isLeader)
    (hw : p.highWatermark ≤ p'.highWatermark) {place : Place} (h : place.Local p) :
    place.Local p' := by
  cases place with
  | store data acks io => exact hl.trans h
  | push requiredHW => exact hl.trans h
  | roleStored role => exact hl.trans h
  | isrWaiting epoch ids => exact h
  | isrLocked epoch ids => exact h
  | advancing held phase =>
    cases phase with
    | loaded newHW current => exact h
    | drain newHW moved => exact Nat.le_trans h hw
    | _ => trivial
  | _ => trivial

end Place

/-! ## The invariant -/

namespace Service

/-- A leader is not given an empty in-sync set: the controller keeps it in its own. -/
def Admissible : ServiceEvent → Prop
  | .call (.updateLeaderISR _ ids) => ids ≠ []
  | _ => True

/-- The watermark was reached by whoever was completed without an error. -/
def Reached (q : Purgatory) (hw : Nat) : Prop :=
  ∀ id r n, q.seen id = some (r, none, n) → 0 < n → r ≤ hw

structure Inv (s : Service) : Prop where
  wf : s.q.Wf
  reached : Reached s.q s.p.highWatermark
  isr : s.p.isLeader = true → s.p.isr ≠ []
  mutex : ∀ i place, s.routines[i]? = some place → place.holds = true → s.holder = some i
  seen : ∀ place ∈ s.routines, place.Local s.p
  demoted : s.p.isLeader = false → s.q.heap = [] ∨ ∃ place ∈ s.routines, place.fails = true
  closing : s.p.closed = true → (∃ place ∈ s.routines, place.closes = true) ∨
    s.q.heap = [] ∧ ∀ place ∈ s.routines, place.armed = false
  covered : s.p.isLeader = true → ∀ id ∈ s.q.heap, s.q.requiredHW id ≤ s.p.highWatermark →
    ∃ place ∈ s.routines, place.covers (s.q.requiredHW id) = true

theorem inv_start {p : Partition} (h : p.isLeader = true → p.isr ≠ []) : Inv (start p) where
  wf := Purgatory.wf_nil
  reached := by
    intro id r n hs
    simp [start, Purgatory.seen] at hs
  isr := h
  mutex i place hi := by simp [start] at hi
  seen place hp := absurd hp List.not_mem_nil
  demoted _ := .inl rfl
  closing _ := .inr ⟨rfl, fun _ hp => absurd hp List.not_mem_nil⟩
  covered _ id hid := absurd hid List.not_mem_nil

section Routines

variable {routines : List Place} {i : Nat} {a b : Place} (hi : routines[i]? = some a)

include hi

theorem exists_set {P : Place → Prop} (h : ∃ x ∈ routines, P x) (hab : P a → P b) :
    ∃ x ∈ routines.set i b, P x := by
  obtain ⟨x, hx, hP⟩ := h
  obtain ⟨j, hj, rfl⟩ := List.mem_iff_getElem.mp hx
  obtain ⟨hlt, hget⟩ := List.getElem?_eq_some_iff.mp hi
  by_cases hij : i = j
  · subst hij
    rw [hget] at hP
    exact ⟨b, List.mem_set hlt b, hab hP⟩
  · refine ⟨routines[j], ?_, hP⟩
    exact List.mem_iff_getElem.mpr ⟨j, by simpa using hj, List.getElem_set_ne hij _⟩

theorem mem_set_self : b ∈ routines.set i b :=
  List.mem_set (List.getElem?_eq_some_iff.mp hi).1 b

end Routines

theorem forall_set {routines : List Place} {P : Place → Prop} (h : ∀ x ∈ routines, P x) {b : Place}
    (hb : P b) (i : Nat) : ∀ x ∈ routines.set i b, P x := by
  intro x hx
  rcases List.mem_or_eq_of_mem_set hx with hx | rfl
  · exact h x hx
  · exact hb

theorem getElem?_set_cases {routines : List Place} {i j : Nat} {b place : Place}
    (h : (routines.set i b)[j]? = some place) :
    j = i ∧ place = b ∨ j ≠ i ∧ routines[j]? = some place := by
  by_cases hij : i = j
  · subst hij
    rw [List.getElem?_set_self'] at h
    cases hr : routines[i]? with
    | none => rw [hr] at h; cases h
    | some a => rw [hr] at h; cases h; exact .inl ⟨rfl, rfl⟩
  · rw [List.getElem?_set_ne hij] at h
    exact .inr ⟨Ne.symm hij, h⟩

/-- While a goroutine holds `appendMu`, no other place is one that holds it. -/
theorem Inv.alone {s : Service} (h : s.Inv) {i : Nat} {a : Place} (hi : s.routines[i]? = some a)
    (ha : a.holds = true) (b : Place) :
    ∀ place ∈ s.routines.set i b, place.holds = true → place = b := by
  intro place hp hh
  obtain ⟨j, hj⟩ := List.mem_iff_getElem?.mp hp
  rcases getElem?_set_cases hj with ⟨-, rfl⟩ | ⟨hne, hj⟩
  · rfl
  · have heq := (h.mutex j place hj hh).symm.trans (h.mutex i a hi ha)
    exact absurd (Option.some.inj heq) hne

/-- What a step may do to the partition besides taking its leadership, closing it and
moving the watermark. -/
structure Same (p p' : Partition) : Prop where
  isLeader : p'.isLeader = p.isLeader
  closed : p'.closed = p.closed
  highWatermark : p'.highWatermark = p.highWatermark
  isr : p.isLeader = true → p.isr ≠ [] → p'.isr ≠ []

theorem Same.refl (p : Partition) : Same p p := ⟨rfl, rfl, rfl, fun _ h => h⟩

/-- A goroutine moves on; it may take entries out of the heap. -/
theorem Inv.moved {s : Service} (h : s.Inv) {i : Nat} {a b : Place}
    (hi : s.routines[i]? = some a) {p' : Partition} (hp : Same s.p p') {q' : Purgatory}
    (hwf : q'.Wf) (hreached : Reached q' s.p.highWatermark)
    (hheap : ∀ id ∈ q'.heap, id ∈ s.q.heap ∧ q'.requiredHW id = s.q.requiredHW id)
    {holder' : Option Nat} (hholds : b.holds = true → holder' = some i)
    (hothers : ∀ j, j ≠ i → s.holder = some j → holder' = some j)
    (hlocal : b.Local s.p) (hfails : a.fails = true → b.fails = true ∨ q'.heap = [])
    (hcloses : a.closes = true → b.closes = true ∨
      q'.heap = [] ∧ ∀ place ∈ s.routines.set i b, place.armed = false)
    (harmed : b.armed = true → a.armed = true ∨ s.p.closed = false)
    (hcovers : s.p.isLeader = true → ∀ id ∈ q'.heap,
      s.q.requiredHW id ≤ s.p.highWatermark → a.covers (s.q.requiredHW id) = true →
      b.covers (s.q.requiredHW id) = true) :
    Inv ⟨p', q', s.routines.set i b, holder'⟩ where
  wf := hwf
  reached := hp.highWatermark ▸ hreached
  isr hl := hp.isr (hp.isLeader ▸ hl) (h.isr (hp.isLeader ▸ hl))
  mutex j place hj hh := by
    rcases getElem?_set_cases hj with ⟨rfl, rfl⟩ | ⟨hne, hj⟩
    · exact hholds hh
    · exact hothers j hne (h.mutex j place hj hh)
  seen := by
    have hall := forall_set h.seen hlocal i
    exact fun place hpl => (hall place hpl).mono hp.isLeader hp.highWatermark.ge
  demoted hl := by
    rcases h.demoted (hp.isLeader ▸ hl) with hnil | ⟨place, hpl, hf⟩
    · exact .inl (List.eq_nil_of_subset_nil (hnil ▸ fun id hid => (hheap id hid).1))
    by_cases hempty : q'.heap = []
    · exact .inl hempty
    · exact .inr (exists_set hi ⟨place, hpl, hf⟩ fun ha => (hfails ha).resolve_right hempty)
  closing hc := by
    have hc' : s.p.closed = true := hp.closed ▸ hc
    rcases h.closing hc' with ⟨place, hpl, hcl⟩ | ⟨hnil, hnone⟩
    · by_cases hdone : q'.heap = [] ∧ ∀ place ∈ s.routines.set i b, place.armed = false
      · exact .inr hdone
      · exact .inl (exists_set hi ⟨place, hpl, hcl⟩ fun ha => (hcloses ha).resolve_right hdone)
    · refine .inr ⟨List.eq_nil_of_subset_nil (hnil ▸ fun id hid => (hheap id hid).1),
        forall_set hnone ?_ i⟩
      by_contra hb
      rcases harmed (Bool.not_eq_false _ ▸ hb) with ha | hopen
      · rw [hnone a (List.mem_of_getElem? hi)] at ha
        cases ha
      · rw [hc'] at hopen
        cases hopen
  covered hl id hid hle := by
    have hl' : s.p.isLeader = true := hp.isLeader ▸ hl
    obtain ⟨hin, hreq⟩ := hheap id hid
    have hle' : s.q.requiredHW id ≤ s.p.highWatermark := by
      rw [← hreq, ← hp.highWatermark]
      exact hle
    show ∃ place ∈ s.routines.set i b, place.covers (q'.requiredHW id) = true
    rw [hreq]
    exact exists_set hi (h.covered hl' id hin hle') (hcovers hl' id hid hle')

/-- A goroutine moves on and leaves the heap alone. -/
theorem Inv.quiet {s : Service} (h : s.Inv) {i : Nat} {a b : Place}
    (hi : s.routines[i]? = some a) {p' : Partition} (hp : Same s.p p') {holder' : Option Nat}
    (hholds : b.holds = true → holder' = some i)
    (hothers : ∀ j, j ≠ i → s.holder = some j → holder' = some j)
    (hlocal : b.Local s.p) (hfails : a.fails = true → b.fails = true)
    (hcloses : a.closes = true → b.closes = true)
    (harmed : b.armed = true → a.armed = true ∨ s.p.closed = false)
    (hcovers : s.p.isLeader = true → ∀ r, r ≤ s.p.highWatermark → a.covers r = true →
      b.covers r = true) :
    Inv ⟨p', s.q, s.routines.set i b, holder'⟩ :=
  h.moved hi hp h.wf h.reached (fun _ hid => ⟨hid, rfl⟩) hholds hothers hlocal
    (fun ha => .inl (hfails ha)) (fun ha => .inl (hcloses ha)) harmed
    (fun hl _ _ hle => hcovers hl _ hle)

/-- What is settled without an error must have been reached. -/
theorem Reached.settled {q q' : Purgatory} {hw : Nat} (h : Reached q hw) {S : Nat → Bool}
    {err : Option ErrorCode} (hs : Purgatory.Settled q q' S err)
    (herr : err = none → ∀ id, S id = true → q.requiredHW id ≤ hw) : Reached q' hw := by
  intro id r n hseen hn
  rw [hs.seen] at hseen
  split at hseen
  · rename_i hid
    obtain ⟨w, hw', heq⟩ := Option.map_eq_some_iff.mp hseen
    cases heq
    have hle := herr rfl id hid.2
    rw [Purgatory.requiredHW_eq, hw'] at hle
    exact hle
  · exact h id r n hseen hn

/-- A goroutine that holds `appendMu` pushes a new entry and then covers it. -/
theorem Inv.push {s : Service} (h : s.Inv) {i r : Nat} (hi : s.routines[i]? = some (.push r)) :
    Inv ⟨s.p.pushPurgatory r, s.q.wait r, s.routines.set i .pushed, s.holder⟩ := by
  have hw := h.wf.wait r
  have hl : s.p.isLeader = true := h.seen _ (List.mem_of_getElem? hi)
  have hholder := h.mutex i _ hi rfl
  refine ⟨hw.wf, fun id r' n hs hn => ?_, h.isr, fun j place hj hh => ?_,
    forall_set (b := .pushed) h.seen trivial i, fun hno => ?_, fun hc => ?_,
    fun _ id hid hle => ?_⟩
  · rw [hw.seen] at hs
    split at hs
    · cases hs
      exact absurd hn (lt_irrefl 0)
    · exact h.reached id r' n hs hn
  · rcases getElem?_set_cases hj with ⟨rfl, rfl⟩ | ⟨-, hj⟩
    · exact hholder
    · exact h.mutex j place hj hh
  · cases hl.symm.trans hno
  · rcases h.closing hc with hcl | ⟨-, hnone⟩
    · exact .inl (exists_set hi hcl fun ha => by cases ha)
    · exact absurd (hnone _ (List.mem_of_getElem? hi)) (by simp [Place.armed])
  · by_cases hnew : id = s.q.entries.length
    · exact ⟨.pushed, mem_set_self hi, rfl⟩
    · have hreq := hw.requiredHW id
      rw [if_neg hnew] at hreq
      have hin := (List.mem_cons.mp (hw.perm.subset hid)).resolve_left hnew
      rw [hreq] at hle ⊢
      exact exists_set hi (h.covered hl id hin hle) fun _ => rfl

/-- The watermark moves, and the goroutine that moves it is going to drain up to it. -/
theorem Inv.raise {s : Service} (h : s.Inv) {i newHW current : Nat} {held : Bool}
    (hi : s.routines[i]? = some (.advancing held (.loaded newHW current)))
    (hlt : s.p.highWatermark ≤ newHW) :
    Inv ⟨{ s.p with highWatermark := newHW }, s.q,
      s.routines.set i (.advancing held (.drain newHW true)), s.holder⟩ := by
  refine ⟨h.wf, fun id r n hs hn => (h.reached id r n hs hn).trans hlt, h.isr,
    fun j place hj hh => ?_, fun place hpl => ?_, fun hl => ?_, fun hc => ?_,
    fun _ id hid hle => ⟨_, mem_set_self hi, by simpa [Place.covers] using hle⟩⟩
  · rcases getElem?_set_cases hj with ⟨rfl, rfl⟩ | ⟨-, hj⟩
    · exact h.mutex _ _ hi hh
    · exact h.mutex j place hj hh
  · rcases List.mem_or_eq_of_mem_set hpl with hpl | rfl
    · have hrole : ({ s.p with highWatermark := newHW } : Partition).isLeader = s.p.isLeader := rfl
      exact (h.seen place hpl).mono hrole hlt
    · exact le_rfl
  · exact (h.demoted hl).imp_right fun hf => exists_set hi hf fun ha => by cases ha
  · rcases h.closing hc with hcl | ⟨hnil, hnone⟩
    · exact .inl (exists_set hi hcl fun ha => by cases ha)
    · exact .inr ⟨hnil, forall_set hnone rfl i⟩

/-- The leadership ends under `appendMu`, when nobody else is between its check of the
role and its push. -/
theorem Inv.demote {s : Service} (h : s.Inv) {i : Nat} {role : Demotion}
    (hi : s.routines[i]? = some (.roleLocked role)) :
    Inv ⟨{ s.p with isLeader := false }, s.q, s.routines.set i (.roleStored role), s.holder⟩ := by
  have halone := h.alone hi rfl (.roleStored role)
  refine ⟨h.wf, h.reached, fun hl => (by cases hl), fun j place hj hh => ?_,
    fun place hpl => ?_, fun _ => .inr ⟨_, mem_set_self hi, rfl⟩, fun hc => ?_,
    fun hl => (by cases hl)⟩
  · rcases getElem?_set_cases hj with ⟨rfl, rfl⟩ | ⟨-, hj⟩
    · exact h.mutex _ _ hi rfl
    · exact h.mutex j place hj hh
  · rcases List.mem_or_eq_of_mem_set hpl with hmem | rfl
    · have hseen := h.seen place hmem
      cases place with
      | store data acks io => cases halone _ hpl rfl
      | push r => cases halone _ hpl rfl
      | roleStored role' => rfl
      | isrWaiting epoch ids => exact hseen
      | isrLocked epoch ids => exact hseen
      | advancing held phase => cases phase <;> exact hseen
      | _ => trivial
    · rfl
  · rcases h.closing hc with hcl | ⟨hnil, hnone⟩
    · exact .inl (exists_set hi hcl fun ha => by cases ha)
    · exact .inr ⟨hnil, forall_set hnone rfl i⟩

/-- The partition is closed by a goroutine that is going to fail every entry. -/
theorem Inv.closeOnce {s : Service} (h : s.Inv) {i : Nat}
    (hi : s.routines[i]? = some .closeOnce) :
    Inv ⟨{ s.p with closed := true }, s.q, s.routines.set i .closeWaiting, s.holder⟩ := by
  refine ⟨h.wf, h.reached, h.isr, fun j place hj hh => ?_, fun place hpl => ?_, fun hl => ?_,
    fun _ => .inl ⟨_, mem_set_self hi, rfl⟩, fun hl id hid hle => ?_⟩
  · rcases getElem?_set_cases hj with ⟨rfl, rfl⟩ | ⟨-, hj⟩
    · cases hh
    · exact h.mutex j place hj hh
  · have hseen := forall_set (b := .closeWaiting) h.seen trivial i place hpl
    exact hseen.mono rfl le_rfl
  · exact (h.demoted hl).imp_right fun hf => exists_set hi hf fun ha => by cases ha
  · exact exists_set hi (h.covered hl id hid hle) fun ha => by cases ha

/-! ## One step of a goroutine -/

theorem same_advance_drain (p : Partition) (hw : Nat) (moved : Bool) :
    Same p (p.advance (.drain hw moved)).1 := by
  cases moved
  · exact ⟨rfl, rfl, rfl, fun _ h => h⟩
  · exact ⟨rfl, rfl, rfl, fun _ h => h⟩

theorem Inv.drain {s : Service} (h : s.Inv) {i hw : Nat} {held moved : Bool}
    (hi : s.routines[i]? = some (.advancing held (.drain hw moved))) :
    Inv ⟨(s.p.advance (.drain hw moved)).1, s.q.drain hw,
      s.routines.set i (.advancing held .done), s.holder⟩ := by
  have hs := h.wf.drain hw
  have hle : hw ≤ s.p.highWatermark := h.seen _ (List.mem_of_getElem? hi)
  refine h.moved hi (same_advance_drain s.p hw moved) hs.wf
    (h.reached.settled hs fun _ id hid => (of_decide_eq_true hid).trans hle)
    (fun id hid => ⟨((hs.mem_heap id).mp hid).1, congrFun hs.requiredHW id⟩)
    (fun hh => h.mutex i _ hi hh) (fun j _ hj => hj) trivial (fun ha => by cases ha)
    (fun ha => by cases ha) (fun hb => by cases hb) fun _ id hid _ hcov => ?_
  -- what this goroutine covered is out of the heap
  have hleft := of_decide_eq_false ((hs.mem_heap id).mp hid).2
  exact absurd (of_decide_eq_true hcov) hleft

theorem Inv.advancing {s : Service} (h : s.Inv) {i : Nat} {held : Bool} {phase : AdvancePhase}
    (hi : s.routines[i]? = some (.advancing held phase)) :
    Inv ⟨(s.p.advance phase).1, s.q.advance phase,
      s.routines.set i (.advancing held (s.p.advance phase).2), s.holder⟩ := by
  have hquiet : ∀ next : AdvancePhase, Place.Local s.p (.advancing held next) →
      (s.p.isLeader = true → ∀ r, r ≤ s.p.highWatermark →
        (Place.advancing held phase).covers r = true →
        (Place.advancing held next).covers r = true) →
      Inv ⟨s.p, s.q, s.routines.set i (.advancing held next), s.holder⟩ := by
    intro next hlocal hcovers
    exact h.quiet hi (Same.refl s.p) (fun hh => h.mutex i _ hi hh) (fun j _ hj => hj) hlocal
      (fun ha => by cases ha) (fun ha => by cases ha) (fun hb => by cases hb) hcovers
  cases phase with
  | start =>
    simp only [Partition.advance, Purgatory.advance]
    split
    · exact hquiet .checked trivial fun _ _ _ _ => rfl
    · rename_i hno
      exact hquiet .done trivial fun hl => absurd hl hno
  | checked =>
    simp only [Partition.advance, Purgatory.advance]
    split
    · rename_i hnil
      exact hquiet .done trivial fun hl => absurd hnil (h.isr hl)
    · exact hquiet (.read _) trivial fun _ _ _ _ => rfl
  | read newHW =>
    simp only [Partition.advance, Purgatory.advance]
    split
    · exact hquiet (.drain _ false) (Nat.le_refl s.p.highWatermark)
        fun _ r hr _ => decide_eq_true hr
    · rename_i hgt
      exact hquiet (.loaded _ _) (not_le.mp hgt) fun _ _ _ _ => rfl
  | loaded newHW current =>
    simp only [Partition.advance, Purgatory.advance]
    split
    · rename_i heq
      have hlt : current < newHW := h.seen _ (List.mem_of_getElem? hi)
      exact h.raise hi (heq.trans_le hlt.le)
    · exact hquiet (.read _) trivial fun _ _ _ _ => rfl
  | drain hw moved => exact h.drain hi
  | done => exact hquiet .done trivial fun _ _ _ hcov => hcov

/-- Every entry is failed. -/
theorem Inv.fail {s : Service} (h : s.Inv) {i : Nat} {a b : Place}
    (hi : s.routines[i]? = some a) (err : ErrorCode) (hlocal : b.Local s.p)
    (hholds : b.holds = true → a.holds = true)
    (harmed : ∀ place ∈ s.routines.set i b, a.closes = true → place.armed = false)
    (hb : b.armed = false) :
    Inv ⟨s.p.failPurgatory err, s.q.fail err, s.routines.set i b, s.holder⟩ := by
  have hs := h.wf.fail err
  have hnil : (s.q.fail err).heap = [] := by
    refine List.eq_nil_iff_forall_not_mem.mpr fun id hid => ?_
    cases ((hs.mem_heap id).mp hid).2
  have hsame : Same s.p (s.p.failPurgatory err) := ⟨rfl, rfl, rfl, fun _ hisr => hisr⟩
  exact h.moved hi hsame hs.wf (h.reached.settled hs fun hnone => by cases hnone)
    (fun id hid => ⟨((hs.mem_heap id).mp hid).1, congrFun hs.requiredHW id⟩)
    (fun hh => h.mutex i a hi (hholds hh)) (fun j _ hj => hj) hlocal (fun _ => .inr hnil)
    (fun hcl => .inr ⟨hnil, fun place hpl => harmed place hpl hcl⟩)
    (fun harm => absurd harm (by rw [hb]; exact Bool.false_ne_true))
    (fun _ id hid => by rw [hnil] at hid; cases hid)

theorem Inv.lock {s : Service} (h : s.Inv) {i : Nat} {place next : Place}
    (hi : s.routines[i]? = some place) (hl : place.locks = some next) (hfree : s.holder = none) :
    Inv { s with routines := s.routines.set i next, holder := some i } := by
  have hseen := h.seen place (List.mem_of_getElem? hi)
  have hothers : ∀ j, j ≠ i → s.holder = some j → some i = some j := by
    intro j _ hj
    rw [hfree] at hj
    cases hj
  cases place <;> cases hl
  all_goals
    exact h.quiet hi (Same.refl s.p) (fun _ => rfl) hothers hseen (fun ha => ha) (fun ha => ha)
      (fun hb => by cases hb) (fun _ _ _ hc => hc)

theorem Inv.unlock {s : Service} (h : s.Inv) {i : Nat} {place next : Place}
    (hi : s.routines[i]? = some place) (hu : place.unlocks = some next) :
    Inv { s with routines := s.routines.set i next, holder := none } := by
  have hothers : place.holds = true → ∀ j, j ≠ i → s.holder = some j → none = some j := by
    intro ha j hne hj
    have heq := (h.mutex i place hi ha).symm.trans hj
    exact absurd (Option.some.inj heq).symm hne
  have hleave : place.holds = true → next.holds = false → Place.Local s.p next →
      (place.fails = true → next.fails = true) → place.closes = false → next.armed = false →
      (∀ r, place.covers r = true → next.covers r = true) →
      Inv { s with routines := s.routines.set i next, holder := none } := by
    intro ha hb hlocal hfails hcloses harmed hcovers
    refine h.quiet hi (Same.refl s.p) (fun hh => ?_) (hothers ha) hlocal hfails (fun hh => ?_)
      (fun hh => ?_) (fun _ r _ hc => hcovers r hc)
    · rw [hb] at hh
      cases hh
    · rw [hcloses] at hh
      cases hh
    · rw [harmed] at hh
      cases hh
  cases place with
  | pushed => cases hu; exact hleave rfl rfl trivial (fun ha => ha) rfl rfl fun _ hc => hc
  | unlocking => cases hu; exact hleave rfl rfl trivial (fun ha => ha) rfl rfl fun _ hc => hc
  | roleAssigned => cases hu; exact hleave rfl rfl trivial (fun ha => ha) rfl rfl fun _ hc => hc
  | closeUnlocking =>
    cases hu; exact hleave rfl rfl trivial (fun ha => ha) rfl rfl fun _ hc => hc
  | advancing held phase =>
    cases held with
    | false => cases phase <;> cases hu
    | true =>
      cases phase <;> cases hu
      exact hleave rfl rfl trivial (fun ha => ha) rfl rfl fun _ hc => hc
  | _ => cases hu

theorem setLEO_eq_nil (brokerID : Int32) (leo : Nat) (isr : List ISREntry) :
    Partition.setLEO brokerID leo isr = [] ↔ isr = [] := by
  cases isr with
  | nil => rfl
  | cons e es =>
    unfold Partition.setLEO
    split <;> simp

theorem same_setISR (p : Partition) (epoch : Int32) {ids : List Int32} (hids : ids ≠ []) :
    Same p (p.setISR epoch ids).2 := by
  rcases p.setISR_cases epoch ids with ⟨e, hs⟩ | hs
  · rw [hs]
    exact Same.refl p
  · rw [hs]
    exact ⟨rfl, rfl, rfl, fun _ _ => by simpa using hids⟩

/-- A step that takes nothing out of the heap and covers nothing. -/
theorem Inv.onward {s : Service} (h : s.Inv) {i : Nat} {a b : Place}
    (hi : s.routines[i]? = some a) {p' : Partition} (hp : Same s.p p')
    (hholds : b.holds = true → a.holds = true) (hlocal : b.Local s.p)
    (hfails : a.fails = true → b.fails = true) (hcloses : a.closes = false)
    (harmed : b.armed = true → a.armed = true ∨ s.p.closed = false)
    (hcovers : ∀ r, a.covers r = false) :
    Inv ⟨p', s.q, s.routines.set i b, s.holder⟩ := by
  refine h.quiet hi hp (fun hh => h.mutex i a hi (hholds hh)) (fun j _ hj => hj) hlocal hfails
    (fun ha => ?_) harmed (fun _ r _ hc => ?_)
  · rw [hcloses] at ha
    cases ha
  · rw [hcovers] at hc
    cases hc

theorem Inv.work {s : Service} (crc : Checksum) (h : s.Inv) {i : Nat} {place : Place}
    (hi : s.routines[i]? = some place) :
    Inv ⟨(place.work crc s.p s.q).1, (place.work crc s.p s.q).2.1,
      s.routines.set i (place.work crc s.p s.q).2.2, s.holder⟩ := by
  have hmem := List.mem_of_getElem? hi
  have hstay : Inv ⟨s.p, s.q, s.routines.set i place, s.holder⟩ :=
    h.quiet hi (Same.refl s.p) (fun hh => h.mutex i place hi hh) (fun j _ hj => hj)
      (h.seen place hmem) (fun ha => ha) (fun ha => ha) (fun hb => .inl hb) (fun _ _ _ hc => hc)
  cases place with
  | request data acks io =>
    simp only [Place.work]
    split
    · exact h.onward hi (Same.refl s.p) (fun hh => hh) trivial (fun ha => ha) rfl
        (fun hb => .inl hb) fun _ => rfl
    · exact h.onward hi (Same.refl s.p) (fun hh => hh) trivial (fun ha => ha) rfl
        (fun hb => .inl hb) fun _ => rfl
  | checkClosed data acks io =>
    simp only [Place.work]
    split
    · exact h.onward hi (Same.refl s.p) (fun hh => hh) trivial (fun ha => ha) rfl
        (fun hb => .inl hb) fun _ => rfl
    · rename_i hopen
      exact h.onward hi (Same.refl s.p) (fun hh => hh) trivial (fun ha => ha) rfl
        (fun _ => .inr (Bool.eq_false_iff.mpr hopen)) fun _ => rfl
  | checkLeader data acks io =>
    simp only [Place.work]
    split
    · rename_i hlead
      exact h.onward hi (Same.refl s.p) (fun hh => hh) hlead (fun ha => ha) rfl
        (fun _ => .inl rfl) fun _ => rfl
    · exact h.onward hi (Same.refl s.p) (fun hh => hh) trivial (fun ha => ha) rfl
        (fun _ => .inl rfl) fun _ => rfl
  | store data acks io =>
    have hlead := h.seen _ hmem
    simp only [Place.work]
    split
    · exact h.onward hi ⟨rfl, rfl, rfl, fun _ hisr => hisr⟩ (fun hh => hh) trivial (fun ha => ha)
        rfl (fun _ => .inl rfl) fun _ => rfl
    · split
      · exact h.onward hi ⟨rfl, rfl, rfl, fun _ hisr => hisr⟩ (fun hh => hh) hlead
          (fun ha => ha) rfl (fun _ => .inl rfl) fun _ => rfl
      · exact h.onward hi ⟨rfl, rfl, rfl, fun _ hisr => hisr⟩ (fun hh => hh) trivial
          (fun ha => ha) rfl (fun _ => .inl rfl) fun _ => rfl
  | push requiredHW => exact h.push hi
  | note brokerID leo =>
    exact h.onward hi
      ⟨rfl, rfl, rfl, fun _ hisr heq => hisr ((setLEO_eq_nil brokerID leo _).mp heq)⟩
      (fun hh => hh) trivial (fun ha => ha) rfl (fun hb => .inl hb) fun _ => rfl
  | isrLocked epoch ids =>
    have hsame := same_setISR s.p epoch (h.seen _ hmem)
    simp only [Place.work]
    generalize s.p.setISR epoch ids = x at hsame
    obtain ⟨e | ⟨⟩, p'⟩ := x
    · exact h.onward hi hsame (fun hh => hh) trivial (fun ha => ha) rfl (fun hb => .inl hb)
        fun _ => rfl
    · exact h.onward hi hsame (fun hh => hh) trivial (fun ha => ha) rfl (fun hb => .inl hb)
        fun _ => rfl
  | advancing held phase => exact h.advancing hi
  | roleLocked role => exact h.demote hi
  | roleStored role =>
    have hno := h.seen _ hmem
    have hsame : Same s.p (s.p.assign role) := by
      refine ⟨?_, ?_, ?_, fun hl => ?_⟩
      · cases role <;> rfl
      · cases role <;> rfl
      · cases role <;> rfl
      · cases hl.symm.trans hno
    exact h.onward hi hsame (fun hh => hh) trivial (fun ha => ha) rfl (fun hb => .inl hb)
      fun _ => rfl
  | roleFailing =>
    exact h.fail hi _ trivial (fun hh => hh) (fun _ _ hcl => by cases hcl) rfl
  | closeOnce =>
    simp only [Place.work]
    split
    · exact h.onward hi (Same.refl s.p) (fun hh => hh) trivial (fun ha => ha) rfl
        (fun hb => .inl hb) fun _ => rfl
    · exact h.closeOnce hi
  | closeLocked =>
    -- `appendMu` is held, so that nobody is between its check of `closed` and its push
    refine h.fail hi _ trivial (fun _ => rfl) (fun place hpl _ => ?_) rfl
    by_contra harm
    have heq := h.alone hi rfl .closeUnlocking place hpl
      (Place.holds_of_armed (Bool.not_eq_false _ ▸ harm))
    rw [heq] at harm
    exact harm rfl
  | notify =>
    exact h.onward hi ⟨rfl, rfl, rfl, fun _ hisr => hisr⟩ (fun hh => hh) trivial (fun ha => ha)
      rfl (fun hb => .inl hb) fun _ => rfl
  | waiting data acks io => exact hstay
  | pushed => exact hstay
  | unlocking => exact hstay
  | isrWaiting epoch ids => exact hstay
  | roleWaiting role => exact hstay
  | roleAssigned => exact hstay
  | closeWaiting => exact hstay
  | closeUnlocking => exact hstay
  | done => exact hstay

theorem Inv.go {s : Service} (crc : Checksum) (h : s.Inv) {i : Nat} {place : Place}
    (hi : s.routines[i]? = some place) : (s.go crc i place).Inv := by
  unfold Service.go
  split
  · rename_i next hl
    split
    · rename_i hfree
      exact h.lock hi hl hfree
    · exact h
  split
  · rename_i next hu
    exact h.unlock hi hu
  · exact h.work crc hi

/-- A call begins. -/
theorem Inv.call {s : Service} (h : s.Inv) {c : ServiceCall}
    (hc : Admissible (.call c)) :
    Inv { s with routines := s.routines ++ [Place.entry c] } := by
  have hlocal : (Place.entry c).Local s.p := by
    cases c with
    | updateLeaderISR epoch ids => exact hc
    | _ => trivial
  have hholds : (Place.entry c).holds = false := by cases c <;> rfl
  have harmed : (Place.entry c).armed = false := by cases c <;> rfl
  have hkept : ∀ {P : Place → Prop}, (∃ x ∈ s.routines, P x) →
      ∃ x ∈ s.routines ++ [Place.entry c], P x := by
    rintro P ⟨x, hx, hP⟩
    exact ⟨x, List.mem_append_left _ hx, hP⟩
  refine ⟨h.wf, h.reached, h.isr, fun i place hi hh => ?_, fun place hpl => ?_,
    fun hl => (h.demoted hl).imp_right hkept, fun hcl => (h.closing hcl).imp hkept ?_,
    fun hl id hid hle => hkept (h.covered hl id hid hle)⟩
  · rw [List.getElem?_append] at hi
    split at hi
    · exact h.mutex i place hi hh
    · have hplace := List.mem_singleton.mp (List.mem_of_getElem? hi)
      rw [hplace, hholds] at hh
      cases hh
  · rcases List.mem_append.mp hpl with hpl | hpl
    · exact h.seen place hpl
    · rw [List.mem_singleton.mp hpl]
      exact hlocal
  · rintro ⟨hnil, hnone⟩
    refine ⟨hnil, fun place hpl => ?_⟩
    rcases List.mem_append.mp hpl with hpl | hpl
    · exact hnone place hpl
    · rw [List.mem_singleton.mp hpl]
      exact harmed

theorem expire_frame (p : Partition) (id : Nat) : ∃ purgatory done, p.expire id = { p with
    purgatory := purgatory
    done := done } := by
  unfold Partition.expire
  split
  · exact ⟨_, _, rfl⟩
  · exact ⟨p.purgatory, p.done, rfl⟩

theorem Inv.expire {s : Service} (h : s.Inv) (id : Nat) :
    Inv { s with p := s.p.expire id, q := s.q.expire id } := by
  have hs := h.wf.expire id
  have hsub : ∀ x ∈ (s.q.expire id).heap, x ∈ s.q.heap := fun x hx => ((hs.mem_heap x).mp hx).1
  obtain ⟨purgatory, done, hp⟩ := expire_frame s.p id
  rw [hp]
  refine ⟨hs.wf, h.reached.settled hs fun hnone => (by cases hnone), h.isr, h.mutex,
    fun place hpl => (h.seen place hpl).mono rfl le_rfl, fun hl => ?_, fun hc => ?_,
    fun hl x hx hle => ?_⟩
  · rcases h.demoted hl with hnil | hfails
    · exact .inl (List.eq_nil_of_subset_nil (hnil ▸ hsub))
    · exact .inr hfails
  · rcases h.closing hc with hcloses | ⟨hnil, hnone⟩
    · exact .inl hcloses
    · exact .inr ⟨List.eq_nil_of_subset_nil (hnil ▸ hsub), hnone⟩
  · simp only [hs.requiredHW] at hle ⊢
    exact h.covered hl x (hsub x hx) hle

theorem Inv.step {s : Service} (crc : Checksum) (h : s.Inv) {e : ServiceEvent}
    (he : Admissible e) : (s.step crc e).2.Inv := by
  cases e with
  | call c => exact h.call he
  | go i =>
    cases hi : s.routines[i]? with
    | none => simpa only [Service.step, hi] using h
    | some place => simpa only [Service.step, hi] using h.go crc hi
  | expire id => exact h.expire id

/-! ## The result -/

/-- What a producer and whoever looks at an idle partition can rely on. -/
structure Completed (s : Service) : Prop where
  once : ∀ e ∈ s.q.entries, e.closes ≤ 1
  reached : ∀ e ∈ s.q.entries, 0 < e.closes → e.err = none → e.requiredHW ≤ s.p.highWatermark
  index : ∀ i id : Nat, s.q.heap[i]? = some id →
    ∃ e : Waiter, s.q.entries[id]? = some e ∧ e.index = i
  idle : (∀ place ∈ s.routines, place.finished = true) →
    (∀ id ∈ s.q.heap, s.p.highWatermark < s.q.requiredHW id) ∧
    (s.p.isLeader = false ∨ s.p.closed = true → s.q.heap = [])

theorem seen_of_mem {q : Purgatory} {e : Waiter} (he : e ∈ q.entries) :
    ∃ id, q.seen id = some (e.requiredHW, e.err, e.closes) := by
  obtain ⟨id, hid⟩ := List.mem_iff_getElem?.mp he
  exact ⟨id, by rw [Purgatory.seen, hid]; rfl⟩

theorem Inv.completed {s : Service} (h : s.Inv) : s.Completed := by
  refine ⟨fun e he => ?_, fun e he hn herr => ?_, h.wf.index, fun hidle => ?_⟩
  · obtain ⟨id, hid⟩ := seen_of_mem he
    by_cases hin : id ∈ s.q.heap
    · obtain ⟨r, hr⟩ := h.wf.waiting id hin
      have hnot : e.closes = 0 := congrArg (·.2.2) (Option.some.inj (hid.symm.trans hr))
      omega
    · exact (h.wf.settled id _ _ _ hid hin).le
  · obtain ⟨id, hid⟩ := seen_of_mem he
    rw [herr] at hid
    exact h.reached id _ _ hid hn
  · have hnone : ∀ {f : Place → Bool}, (∀ place, place.finished = true → f place = false) →
        ¬ ∃ place ∈ s.routines, f place = true := by
      rintro f hf ⟨place, hpl, hplace⟩
      rw [hf place (hidle place hpl)] at hplace
      cases hplace
    have hempty : s.p.isLeader = false ∨ s.p.closed = true → s.q.heap = [] := by
      rintro (hl | hc)
      · exact (h.demoted hl).resolve_right (hnone Place.fails_of_finished)
      · exact ((h.closing hc).resolve_left (hnone Place.closes_of_finished)).1
    refine ⟨fun id hid => ?_, hempty⟩
    cases hl : s.p.isLeader with
    | false =>
      rw [hempty (.inl hl)] at hid
      exact absurd hid List.not_mem_nil
    | true =>
      by_contra hle
      exact hnone (Place.covers_of_finished _) (h.covered hl id hid (not_lt.mp hle))

/-- However the calls interleave, every channel is closed at most once, without an error
only when the watermark is reached; every entry knows its position; and when nothing is
in progress, what the watermark has reached is completed, and nobody waits at a
partition that does not lead or is closed. -/
theorem purgatory_completed (crc : Checksum) {p : Partition} (hp : p.isLeader = true → p.isr ≠ [])
    (run : List ServiceEvent) (hrun : ∀ e ∈ run, Admissible e) :
    Runs.Always (step crc) Completed (start p) run := by
  have hinv := Runs.always_guarded (step crc) (P := Inv) (Q := fun _ _ => True)
    (fun s e h he => ⟨Inv.step crc h he, trivial⟩) (inv_start hp) run
    (Runs.guarded_of_forall (step crc) hrun (start p))
  exact hinv.1.mono (step crc) fun s h => h.completed

/-- The watermark passes a record before its entry is pushed; the request of a second
record expires; and the leader is demoted while a third one waits. -/
def latePush : List ServiceEvent :=
  List.flatten [
    [.call (.appendRaw (Log.sampleRequest 1) .all .none)], List.replicate 5 (.go 0),
    [.call (.updateFollowerLEO 2 1)], List.replicate 6 (.go 1),
    List.replicate 6 (.go 0),
    [.call (.appendRaw (Log.sampleRequest 1) .all .none)], List.replicate 11 (.go 2),
    [.expire 1],
    [.call (.appendRaw (Log.sampleRequest 1) .all .none)], List.replicate 11 (.go 3),
    [.call (.demote (.follower 2 2))], List.replicate 6 (.go 4)]

theorem purgatory_completed_latePush :
    Runs.Always (step crc32c) Completed (start pairLeader) latePush ∧
    (Runs.final (step crc32c) (start pairLeader) latePush).q.entries.map Waiter.seen =
      [(1, none, 1), (2, some .requestTimedOut, 1), (3, some .notLeaderOrFollower, 1)] := by
  refine ⟨purgatory_completed crc32c (by decide +kernel) latePush ?_, by decide +kernel⟩
  simp [latePush, Admissible, or_imp, forall_and]

end Service

end MessageBroker.Broker
