import MessageBroker.Lib.Heap
import MessageBroker.Broker.PartitionRaw

/-!
# The heap of waiting producers

A producer with `acks=all` waits in a heap ordered by the watermark it needs. An entry
knows its position in the heap, so that it can be taken out when its request expires.
The heap operations are those of `container/heap`, made of calls of `Less`, `Swap`,
`Push` and `Pop`. Whatever takes an entry out, each operation settles a set of waiting
entries: it takes them out, closes the channel of each once, and leaves the others as
they are. The list of waiting producers of a partition stands for the same.
-/
namespace MessageBroker.Broker

open Lib

/-- `purgatoryEntry`; `closes` counts how often its channel was closed. -/
structure Waiter where
  requiredHW : Nat
  err : Option ErrorCode
  index : Nat
  closes : Nat
  deriving DecidableEq

/-- What there is to an entry besides its position in the heap. -/
def Waiter.seen (e : Waiter) : Nat × Option ErrorCode × Nat := (e.requiredHW, e.err, e.closes)

/-- The entries made so far and the heap of those that wait. An entry is named by its
place among the entries, which stands for the pointer to it. -/
structure Purgatory where
  entries : List Waiter
  heap : List Nat
  deriving DecidableEq

namespace Purgatory

/-! ## The methods of `purgatoryHeap` -/

def requiredHW (q : Purgatory) (id : Nat) : Nat := (q.entries[id]?.map (·.requiredHW)).getD 0

/-- What `Less` compares at a position. -/
def keyAt (q : Purgatory) (i : Nat) : Nat := (q.heap[i]?.map q.requiredHW).getD 0

def setIndex (q : Purgatory) (id i : Nat) : Purgatory :=
  { q with entries := q.entries.modify id fun e => { e with index := i } }

/-- `Swap`; the source panics for a position outside the heap. -/
def swap (q : Purgatory) (x : Nat × Nat) : Purgatory :=
  match q.heap[x.1]?, q.heap[x.2]? with
  | some a, some b =>
      ({ q with heap := (q.heap.set x.1 b).set x.2 a }.setIndex b x.1).setIndex a x.2
  | _, _ => q

def push (q : Purgatory) (id : Nat) : Purgatory :=
  { q.setIndex id q.heap.length with heap := q.heap ++ [id] }

def pop (q : Purgatory) : Option Nat × Purgatory :=
  (q.heap.getLast?, { q with heap := q.heap.dropLast })

/-! ## `container/heap` -/

def heapPush (q : Purgatory) (id : Nat) : Purgatory :=
  (Heap.pushExchanges (q.push id).keyAt q.heap.length).foldl swap (q.push id)

def heapPop (q : Purgatory) : Option Nat × Purgatory :=
  ((Heap.popExchanges q.keyAt (q.heap.length - 1)).foldl swap q).pop

def heapRemove (q : Purgatory) (i : Nat) : Option Nat × Purgatory :=
  ((Heap.removeExchanges q.keyAt (q.heap.length - 1) i).foldl swap q).pop

/-! ## What a partition does with them -/

/-- The push of `AppendRaw`, of a new entry. -/
def wait (q : Purgatory) (requiredHW : Nat) : Purgatory :=
  let entry : Waiter := ⟨requiredHW, none, 0, 0⟩
  { q with entries := q.entries ++ [entry] }.heapPush q.entries.length

def close (q : Purgatory) (id : Nat) : Purgatory :=
  { q with entries := q.entries.modify id fun e => { e with closes := e.closes + 1 } }

def setErr (q : Purgatory) (id : Nat) (err : ErrorCode) : Purgatory :=
  { q with entries := q.entries.modify id fun e => { e with err := some err } }

/-- The loop of `drainPurgatory`. -/
def drainLoop (newHW : Nat) : Nat → Purgatory → Purgatory
  | 0, q => q
  | fuel + 1, q =>
      match q.heap with
      | [] => q
      | top :: _ =>
          if newHW < q.requiredHW top then q else drainLoop newHW fuel (q.heapPop.2.close top)

def drain (q : Purgatory) (newHW : Nat) : Purgatory := drainLoop newHW q.heap.length q

/-- The loop of `failPurgatory`. -/
def failLoop (err : ErrorCode) : Nat → Purgatory → Purgatory
  | 0, q => q
  | fuel + 1, q =>
      if q.heap = [] then q
      else match q.heapPop with
        | (some id, q) => failLoop err fuel ((q.setErr id err).close id)
        | (none, q) => q

def fail (q : Purgatory) (err : ErrorCode) : Purgatory := failLoop err q.heap.length q

/-- The request of an entry expires. -/
def expire (q : Purgatory) (id : Nat) : Purgatory :=
  match q.entries[id]? with
  | none => q
  | some e =>
      if e.index < q.heap.length ∧ q.heap[e.index]? = some id then
        ((q.heapRemove e.index).2.setErr id .requestTimedOut).close id
      else q

/-! ## What is seen of an entry -/

def seen (q : Purgatory) (id : Nat) : Option (Nat × Option ErrorCode × Nat) :=
  q.entries[id]?.map Waiter.seen

theorem requiredHW_eq (q : Purgatory) (id : Nat) :
    q.requiredHW id = ((q.seen id).map (·.1)).getD 0 := by
  unfold requiredHW seen
  cases q.entries[id]? <;> rfl

theorem getElem?_modify_self {α : Type*} (f : α → α) (id : Nat) (l : List α) (x : Nat) :
    (l.modify id f)[x]? = if id = x then l[x]?.map f else l[x]? := by
  rw [List.getElem?_modify]
  split
  · rfl
  · exact Option.map_id'

theorem seen_setIndex (q : Purgatory) (id i x : Nat) : (q.setIndex id i).seen x = q.seen x := by
  unfold seen setIndex
  rw [getElem?_modify_self]
  split
  · cases q.entries[x]? <;> rfl
  · rfl

theorem seen_swap (q : Purgatory) (x : Nat × Nat) (id : Nat) :
    (q.swap x).seen id = q.seen id := by
  unfold swap
  split
  · rw [seen_setIndex, seen_setIndex]
    rfl
  · rfl

/-! ## Positions -/

/-- Every entry of the heap is there once and knows its position. -/
structure Placed (q : Purgatory) : Prop where
  nodup : q.heap.Nodup
  index : ∀ i id : Nat, q.heap[i]? = some id → ∃ e : Waiter, q.entries[id]? = some e ∧ e.index = i

section Swap

variable {q : Purgatory} {i j : Nat} (hi : i < q.heap.length) (hj : j < q.heap.length)

include hi hj

theorem swap_heap : (q.swap (i, j)).heap = (q.heap.set i q.heap[j]).set j q.heap[i] := by
  unfold swap
  simp only [List.getElem?_eq_getElem hi, List.getElem?_eq_getElem hj]
  rfl

theorem swap_perm : (q.swap (i, j)).heap.Perm q.heap := by
  rw [swap_heap hi hj]
  exact List.set_set_perm hi hj

/-- The exchange of two positions, as `Lib.Heap` describes it. -/
theorem swap_getElem? (x : Nat) : (q.swap (i, j)).heap[x]? = q.heap[Equiv.swap i j x]? := by
  rw [swap_heap hi hj, List.getElem?_set, List.getElem?_set, List.length_set,
    Equiv.swap_apply_def]
  by_cases hxj : j = x
  · subst hxj
    by_cases hij : j = i
    · subst hij
      simp [hi]
    · simp [hij, hi, hj]
  · by_cases hxi : i = x
    · subst hxi
      simp [hxj, hi, hj]
    · simp [hxj, hxi, Ne.symm hxj, Ne.symm hxi]

theorem swap_keyAt : (q.swap (i, j)).keyAt = Heap.exchange q.keyAt (i, j) := by
  funext x
  unfold keyAt Heap.exchange
  have hsame : (q.swap (i, j)).requiredHW = q.requiredHW := by
    funext id
    rw [requiredHW_eq, seen_swap, ← requiredHW_eq]
  rw [swap_getElem? hi hj, hsame]

theorem Placed.swap (h : q.Placed) : (q.swap (i, j)).Placed := by
  refine ⟨(swap_perm hi hj).nodup_iff.mpr h.nodup, fun x id hx => ?_⟩
  have ha : q.heap[i]? = some q.heap[i] := List.getElem?_eq_getElem hi
  have hb : q.heap[j]? = some q.heap[j] := List.getElem?_eq_getElem hj
  have hentries : (q.swap (i, j)).entries =
      (((q.setIndex q.heap[j] i).setIndex q.heap[i] j)).entries := by
    unfold Purgatory.swap
    simp only [ha, hb]
    rfl
  rw [swap_getElem? hi hj, Equiv.swap_apply_def] at hx
  rw [hentries]
  unfold setIndex
  simp only [getElem?_modify_self]
  -- the entry written last is the one at `j`
  by_cases hxj : x = j
  · subst hxj
    have hid : id = q.heap[i] := by
      by_cases hxi : x = i
      · subst hxi
        rw [if_pos rfl, hb] at hx
        exact (Option.some.inj hx).symm
      · rw [if_neg hxi, if_pos rfl, ha] at hx
        exact (Option.some.inj hx).symm
    obtain ⟨e, he, -⟩ := h.index i _ ha
    rw [if_pos hid.symm, hid, he]
    split
    · exact ⟨_, rfl, rfl⟩
    · exact ⟨_, rfl, rfl⟩
  by_cases hxi : x = i
  · subst hxi
    rw [if_pos rfl, hb] at hx
    have hid := (Option.some.inj hx).symm
    have hne : ¬ q.heap[x] = id := by
      intro heq
      rw [hid] at heq
      exact hxj (h.nodup.getElem_inj_iff.mp heq)
    obtain ⟨e, he, -⟩ := h.index j _ hb
    rw [if_neg hne, if_pos hid.symm, hid, he]
    exact ⟨_, rfl, rfl⟩
  · rw [if_neg hxi, if_neg hxj] at hx
    have hlt : x < q.heap.length := (List.getElem?_eq_some_iff.mp hx).1
    have hne : ∀ y, (hy : y < q.heap.length) → x ≠ y → ¬ q.heap[y] = id := by
      intro y hy hxy heq
      rw [← heq, ← List.getElem?_eq_getElem hy] at hx
      exact hxy ((List.getElem?_inj hlt h.nodup).mp hx)
    rw [if_neg (hne i hi hxi), if_neg (hne j hj hxj)]
    exact h.index x id hx

end Swap

/-- What a sequence of exchanges within the heap leaves. -/
structure Exchanged (q q' : Purgatory) (xs : List (Nat × Nat)) : Prop where
  placed : q'.Placed
  perm : q'.heap.Perm q.heap
  keyAt : q'.keyAt = xs.foldl Heap.exchange q.keyAt
  seen : ∀ id, q'.seen id = q.seen id
  entries : q'.entries.length = q.entries.length
  kept : ∀ n, (∀ x ∈ xs, x.1 < n ∧ x.2 < n) → q'.heap[n]? = q.heap[n]?

theorem length_swap_entries (q : Purgatory) (x : Nat × Nat) :
    (q.swap x).entries.length = q.entries.length := by
  unfold swap
  split
  · simp [setIndex]
  · rfl

theorem exchanged {q : Purgatory} (h : q.Placed) (xs : List (Nat × Nat))
    (hxs : ∀ x ∈ xs, x.1 < q.heap.length ∧ x.2 < q.heap.length) :
    Exchanged q (xs.foldl swap q) xs := by
  induction xs generalizing q with
  | nil => exact ⟨h, .refl _, rfl, fun _ => rfl, rfl, fun _ _ => rfl⟩
  | cons x xs ih =>
    obtain ⟨i, j⟩ := x
    obtain ⟨hi, hj⟩ := hxs (i, j) List.mem_cons_self
    have hperm := swap_perm hi hj
    have hrest := ih (h.swap hi hj) fun y hy => by
      rw [hperm.length_eq]
      exact hxs y (List.mem_cons_of_mem _ hy)
    refine ⟨hrest.placed, hrest.perm.trans hperm, ?_, fun id => ?_, ?_, fun n hn => ?_⟩
    · rw [List.foldl_cons, hrest.keyAt, swap_keyAt hi hj, List.foldl_cons]
    · rw [List.foldl_cons, hrest.seen, seen_swap]
    · rw [List.foldl_cons, hrest.entries, length_swap_entries]
    · have hij := hn (i, j) List.mem_cons_self
      rw [List.foldl_cons, hrest.kept n fun y hy => hn y (List.mem_cons_of_mem _ hy),
        swap_getElem? hi hj, Equiv.swap_apply_of_ne_of_ne hij.1.ne' hij.2.ne']

/-! ## Taking an entry out -/

/-- The heap without one of its entries, which is as it was. -/
structure Taken (q q' : Purgatory) (id : Nat) : Prop where
  placed : q'.Placed
  ordered : Heap.Ordered q'.keyAt q'.heap.length
  perm : (id :: q'.heap).Perm q.heap
  seen : ∀ x, q'.seen x = q.seen x
  entries : q'.entries.length = q.entries.length

theorem taken {q : Purgatory} (h : q.Placed) {n : Nat} (hn : q.heap.length = n + 1)
    {xs : List (Nat × Nat)} (hxs : ∀ x ∈ xs, x.1 < n + 1 ∧ x.2 < n + 1)
    (hord : Heap.Ordered (xs.foldl Heap.exchange q.keyAt) n) {id : Nat}
    (hlast : (xs.foldl swap q).heap[n]? = some id) :
    (xs.foldl swap q).pop.1 = some id ∧ Taken q (xs.foldl swap q).pop.2 id := by
  have hx := exchanged h xs (by rwa [hn])
  generalize xs.foldl swap q = q₁ at hx hlast ⊢
  have hlen : q₁.heap.length = n + 1 := hx.perm.length_eq.trans hn
  have hgetLast : q₁.heap.getLast? = some id := by
    rw [List.getLast?_eq_getElem?, hlen]
    exact hlast
  have hsplit : q₁.heap = q₁.heap.dropLast ++ [id] :=
    (List.dropLast_append_getLast? id hgetLast).symm
  have hbefore : ∀ i, i < n → q₁.heap.dropLast[i]? = q₁.heap[i]? := by
    intro i hi
    rw [List.getElem?_dropLast, if_pos (by omega)]
  refine ⟨hgetLast, ⟨hx.placed.nodup.sublist (List.dropLast_sublist _), fun i x hi => ?_⟩, ?_, ?_,
    hx.seen, hx.entries⟩
  · refine hx.placed.index i x ?_
    rw [pop, List.getElem?_dropLast] at hi
    split at hi
    · exact hi
    · cases hi
  · have hcount : q₁.pop.2.heap.length = n := by
      rw [pop, List.length_dropLast, hlen]
      rfl
    intro i hi hin
    rw [hcount] at hin
    have hkey : ∀ x, x < n → q₁.pop.2.keyAt x = q₁.keyAt x := by
      intro x hlt
      show (q₁.heap.dropLast[x]?.map q₁.requiredHW).getD 0 = _
      rw [hbefore x hlt]
      rfl
    rw [hkey i hin, hkey _ ((Heap.parent_lt hi).trans hin), hx.keyAt]
    exact hord i hi hin
  · have hperm : (id :: q₁.heap.dropLast).Perm q₁.heap := by
      conv_rhs => rw [hsplit]
      exact (List.perm_append_singleton id _).symm
    exact hperm.trans hx.perm

/-- After an exchange with the last position, the others leave it alone. -/
theorem foldl_swap_last {q : Purgatory} (h : q.Placed) {n i : Nat} (hn : q.heap.length = n + 1)
    (hi : i < n + 1) {xs : List (Nat × Nat)} (hxs : ∀ x ∈ xs, x.1 < n ∧ x.2 < n) :
    (((i, n) :: xs).foldl swap q).heap[n]? = q.heap[i]? := by
  have hi' : i < q.heap.length := by omega
  have hn' : n < q.heap.length := by omega
  have hrest := exchanged (h.swap hi' hn') xs fun x hx => by
    have hlt := hxs x hx
    rw [(swap_perm hi' hn').length_eq]
    omega
  rw [List.foldl_cons, hrest.kept n hxs, swap_getElem? hi' hn', Equiv.swap_apply_right]

/-- What holds whenever no operation on the heap is under way. -/
structure Wf (q : Purgatory) : Prop extends q.Placed where
  ordered : Heap.Ordered q.keyAt q.heap.length
  waiting : ∀ id ∈ q.heap, ∃ r, q.seen id = some (r, none, 0)
  settled : ∀ id r err n, q.seen id = some (r, err, n) → id ∉ q.heap → n = 1

theorem wf_nil : Wf ⟨[], []⟩ where
  nodup := List.nodup_nil
  index i id h := by simp at h
  ordered i _ h := by simp at h
  waiting id h := by simp at h
  settled id r err n h := by simp [seen] at h

theorem Wf.heapPop {q : Purgatory} (h : q.Wf) {root : Nat} {rest : List Nat}
    (hq : q.heap = root :: rest) :
    ∃ q', q.heapPop = (some root, q') ∧ Taken q q' root := by
  have hn : q.heap.length = rest.length + 1 := by rw [hq, List.length_cons]
  have htail := Heap.popExchanges_tail_lt q.keyAt rest.length
  have hroot : q.heap[0]? = some root := by rw [hq]; rfl
  have hlast := foldl_swap_last h.toPlaced hn (Nat.succ_pos _) htail
  rw [hroot] at hlast
  have hord := h.ordered
  rw [hn] at hord
  have hxs : ∀ x ∈ Heap.popExchanges q.keyAt rest.length,
      x.1 < rest.length + 1 ∧ x.2 < rest.length + 1 := by
    intro x hx
    rcases List.mem_cons.mp hx with rfl | hx
    · exact ⟨Nat.succ_pos _, Nat.lt_succ_self _⟩
    · have hlt := htail x hx
      omega
  obtain ⟨hfst, htaken⟩ := taken h.toPlaced hn hxs (Heap.pop_ordered hord) hlast
  refine ⟨_, ?_, htaken⟩
  rw [Purgatory.heapPop, hn, Nat.add_sub_cancel]
  exact Prod.ext hfst rfl

theorem Wf.heapRemove {q : Purgatory} (h : q.Wf) {i id : Nat} (hi : q.heap[i]? = some id) :
    Taken q (q.heapRemove i).2 id := by
  obtain ⟨hlt, -⟩ := List.getElem?_eq_some_iff.mp hi
  obtain ⟨n, hn⟩ : ∃ n, q.heap.length = n + 1 := ⟨q.heap.length - 1, by omega⟩
  have hle : i ≤ n := by omega
  have hord := h.ordered
  rw [hn] at hord
  have hxs : ∀ x ∈ Heap.removeExchanges q.keyAt n i, x.1 < n + 1 ∧ x.2 < n + 1 := by
    intro x hx
    have htail := Heap.removeExchanges_tail_lt q.keyAt hle
    unfold Heap.removeExchanges at hx htail
    split at hx
    · exact absurd hx List.not_mem_nil
    rename_i hlast
    rw [if_neg hlast] at htail
    rcases List.mem_cons.mp hx with rfl | hx
    · exact ⟨by omega, Nat.lt_succ_self _⟩
    · have hlt := htail x hx
      omega
  have hlast : ((Heap.removeExchanges q.keyAt n i).foldl swap q).heap[n]? = some id := by
    have htail := Heap.removeExchanges_tail_lt q.keyAt hle
    unfold Heap.removeExchanges at htail ⊢
    by_cases heq : n = i
    · rw [if_pos heq, List.foldl_nil, heq]
      exact hi
    · rw [if_neg heq] at htail ⊢
      exact (foldl_swap_last h.toPlaced hn (by omega) htail).trans hi
  have htaken := (taken h.toPlaced hn hxs (Heap.remove_ordered hord hle) hlast).2
  rwa [Purgatory.heapRemove, hn, Nat.add_sub_cancel]

/-! ## Settling entries -/

theorem seen_close (q : Purgatory) (id x : Nat) :
    (q.close id).seen x =
      if id = x then (q.seen x).map fun w => (w.1, w.2.1, w.2.2 + 1) else q.seen x := by
  unfold seen close
  rw [getElem?_modify_self]
  split
  · cases q.entries[x]? <;> rfl
  · rfl

theorem seen_setErr (q : Purgatory) (id : Nat) (err : ErrorCode) (x : Nat) :
    (q.setErr id err).seen x =
      if id = x then (q.seen x).map fun w => (w.1, some err, w.2.2) else q.seen x := by
  unfold seen setErr
  rw [getElem?_modify_self]
  split
  · cases q.entries[x]? <;> rfl
  · rfl

theorem keyAt_congr {q q' : Purgatory} (hheap : q'.heap = q.heap)
    (hseen : ∀ x, (q'.seen x).map (·.1) = (q.seen x).map (·.1)) : q'.keyAt = q.keyAt := by
  funext i
  unfold keyAt
  have hsame : q'.requiredHW = q.requiredHW := by
    funext id
    rw [requiredHW_eq, requiredHW_eq, hseen]
  rw [hheap, hsame]

/-- Positions are kept by whatever keeps the heap and the `index` of every entry. -/
theorem Placed.modify {q : Purgatory} (h : q.Placed) (id : Nat) {f : Waiter → Waiter}
    (hf : ∀ e, (f e).index = e.index) : Placed { q with entries := q.entries.modify id f } := by
  refine ⟨h.nodup, fun i x hx => ?_⟩
  obtain ⟨e, he, hi⟩ := h.index i x hx
  simp only [getElem?_modify_self, he]
  split
  · exact ⟨f e, rfl, (hf e).trans hi⟩
  · exact ⟨e, rfl, hi⟩

theorem Placed.close {q : Purgatory} (h : q.Placed) (id : Nat) : (q.close id).Placed :=
  h.modify id fun _ => rfl

theorem Placed.setErr {q : Purgatory} (h : q.Placed) (id : Nat) (err : ErrorCode) :
    (q.setErr id err).Placed :=
  h.modify id fun _ => rfl

/-- The entries of `S` that waited are taken out and closed once, with `err`. -/
structure Settled (q q' : Purgatory) (S : Nat → Bool) (err : Option ErrorCode) : Prop where
  wf : q'.Wf
  perm : q'.heap.Perm (q.heap.filter fun id => !S id)
  entries : q'.entries.length = q.entries.length
  seen : ∀ id, q'.seen id =
    if id ∈ q.heap ∧ S id = true then (q.seen id).map fun w => (w.1, err, 1) else q.seen id

theorem Settled.requiredHW {q q' : Purgatory} {S : Nat → Bool} {err : Option ErrorCode}
    (h : Settled q q' S err) : q'.requiredHW = q.requiredHW := by
  funext id
  rw [requiredHW_eq, requiredHW_eq, h.seen]
  split
  · cases q.seen id <;> rfl
  · rfl

theorem Settled.mem_heap {q q' : Purgatory} {S : Nat → Bool} {err : Option ErrorCode}
    (h : Settled q q' S err) (id : Nat) : id ∈ q'.heap ↔ id ∈ q.heap ∧ S id = false := by
  rw [h.perm.mem_iff, List.mem_filter, Bool.not_eq_true']

theorem Wf.settled_none {q : Purgatory} (h : q.Wf) {S : Nat → Bool}
    (hS : ∀ id ∈ q.heap, S id = false) (err : Option ErrorCode) : Settled q q S err where
  wf := h
  perm := by
    rw [List.filter_eq_self.mpr fun id hid => by rw [hS id hid]; rfl]
  entries := rfl
  seen id := by
    rw [if_neg]
    rintro ⟨hid, hin⟩
    rw [hS id hid] at hin
    cases hin

/-- An entry taken out is settled when its channel is closed. -/
theorem Wf.settled_one {q q₁ q₂ : Purgatory} (h : q.Wf) {id : Nat} (ht : Taken q q₁ id)
    {err : Option ErrorCode} (hplaced : q₂.Placed) (hheap : q₂.heap = q₁.heap)
    (hentries : q₂.entries.length = q₁.entries.length)
    (hseen : ∀ x, q₂.seen x =
      if id = x then (q.seen x).map fun w => (w.1, err, w.2.2 + 1) else q.seen x) :
    Settled q q₂ (fun x => x == id) err := by
  have hin : id ∈ q.heap := ht.perm.subset List.mem_cons_self
  obtain ⟨hnot, hrest⟩ := List.nodup_cons.mp (ht.perm.nodup_iff.mpr h.nodup)
  obtain ⟨r, hr⟩ := h.waiting id hin
  have hperm : q₂.heap.Perm (q.heap.filter fun x => !(x == id)) := by
    have hfilter := ht.perm.filter fun x => !(x == id)
    rw [List.filter_cons_of_neg (by simp), List.filter_eq_self.mpr fun x hx => by
      have hne : x ≠ id := fun heq => hnot (heq ▸ hx)
      simpa using hne] at hfilter
    rw [hheap]
    exact hfilter
  have hkeys : q₂.keyAt = q₁.keyAt := by
    refine keyAt_congr hheap fun x => ?_
    rw [hseen, ht.seen]
    split
    · cases q.seen x <;> rfl
    · rfl
  refine ⟨⟨hplaced, ?_, fun x hx => ?_, fun x r' err' n hx hout => ?_⟩, hperm,
    hentries.trans ht.entries, fun x => ?_⟩
  · rw [hheap, hkeys]
    exact ht.ordered
  · rw [hheap] at hx
    have hne : id ≠ x := fun heq => hnot (heq ▸ hx)
    rw [hseen, if_neg hne]
    exact h.waiting x (ht.perm.subset (List.mem_cons_of_mem id hx))
  · rw [hseen] at hx
    by_cases heq : id = x
    · subst heq
      rw [if_pos rfl, hr] at hx
      cases hx
      rfl
    · rw [if_neg heq] at hx
      refine h.settled x r' err' n hx fun hmem => hout ?_
      rw [hheap]
      exact (List.mem_cons.mp (ht.perm.mem_iff.mpr hmem)).resolve_left (Ne.symm heq)
  · rw [hseen]
    by_cases heq : id = x
    · subst heq
      rw [if_pos rfl, if_pos ⟨hin, by simp⟩, hr]
      rfl
    · rw [if_neg heq, if_neg]
      rintro ⟨-, hx⟩
      exact heq (by simpa using (beq_iff_eq.mp hx).symm)

/-- Settling one entry of a set and then what is left of it settles the set. -/
theorem Settled.trans {q q₁ q₂ : Purgatory} {S : Nat → Bool} {err : Option ErrorCode} {id : Nat}
    (h₁ : Settled q q₁ (fun x => x == id) err) (hid : S id = true)
    (h₂ : Settled q₁ q₂ S err) : Settled q q₂ S err where
  wf := h₂.wf
  perm := by
    refine h₂.perm.trans ((h₁.perm.filter fun x => !S x).trans ?_)
    rw [List.filter_filter]
    refine List.Perm.of_eq (List.filter_congr fun x _ => ?_)
    by_cases hx : x = id
    · simp [hx, hid]
    · simp [hx]
  entries := h₂.entries.trans h₁.entries
  seen x := by
    simp only [h₂.seen, h₁.mem_heap, h₁.seen]
    by_cases hx : x = id
    · subst hx
      simp [hid]
    · simp [hx]

theorem Wf.close_settled {q q' : Purgatory} (h : q.Wf) {id : Nat} (ht : Taken q q' id) :
    Settled q (q'.close id) (fun x => x == id) none := by
  refine h.settled_one ht (ht.placed.close id) rfl (List.length_modify _ _ _)
    fun x => ?_
  rw [seen_close, ht.seen]
  by_cases hx : id = x
  · subst hx
    obtain ⟨r, hr⟩ := h.waiting id (ht.perm.subset List.mem_cons_self)
    rw [if_pos rfl, if_pos rfl, hr]
    rfl
  · rw [if_neg hx, if_neg hx]

theorem Wf.fail_settled {q q' : Purgatory} (h : q.Wf) {id : Nat} (ht : Taken q q' id)
    (err : ErrorCode) :
    Settled q ((q'.setErr id err).close id) (fun x => x == id) (some err) := by
  refine h.settled_one ht ((ht.placed.setErr id err).close id) rfl
    ((List.length_modify _ _ _).trans (List.length_modify _ _ _)) fun x => ?_
  rw [seen_close, seen_setErr, ht.seen]
  by_cases hx : id = x
  · rw [if_pos hx, if_pos hx, if_pos hx]
    cases q.seen x <;> rfl
  · rw [if_neg hx, if_neg hx, if_neg hx]

/-! ## Draining, failing and expiring -/

theorem drainLoop_settled (newHW : Nat) : ∀ (fuel : Nat) {q : Purgatory}, q.Wf →
    q.heap.length ≤ fuel →
    Settled q (drainLoop newHW fuel q) (fun id => decide (q.requiredHW id ≤ newHW)) none := by
  intro fuel
  induction fuel with
  | zero =>
    intro q h hfuel
    refine h.settled_none (fun id hid => ?_) none
    rw [List.length_eq_zero_iff.mp (Nat.le_zero.mp hfuel)] at hid
    exact absurd hid List.not_mem_nil
  | succ fuel ih =>
    intro q h hfuel
    rw [drainLoop]
    split
    · rename_i hq
      refine h.settled_none (fun id hid => ?_) none
      rw [hq] at hid
      exact absurd hid List.not_mem_nil
    rename_i top rest hq
    split
    · -- the root is the least of the heap, and so nothing is left to drain
      rename_i hlt
      refine h.settled_none (fun id hid => ?_) none
      obtain ⟨i, hi, hget⟩ := List.mem_iff_getElem.mp hid
      have hle := h.ordered.root_le hi
      have hkey : q.keyAt i = q.requiredHW id := by
        unfold keyAt
        rw [List.getElem?_eq_getElem hi, hget]
        rfl
      have hroot : q.keyAt 0 = q.requiredHW top := by
        unfold keyAt
        rw [hq]
        rfl
      rw [decide_eq_false_iff_not, not_le, ← hkey]
      exact lt_of_lt_of_le (hroot ▸ hlt) hle
    · rename_i hle
      obtain ⟨q', hpop, htaken⟩ := h.heapPop hq
      have hone := h.close_settled htaken
      have hlen : (q'.close top).heap.length ≤ fuel := by
        have hcount := htaken.perm.length_eq
        simp only [List.length_cons] at hcount
        show q'.heap.length ≤ fuel
        omega
      rw [hpop]
      have hrest := ih hone.wf hlen
      rw [hone.requiredHW] at hrest
      exact hone.trans (decide_eq_true (not_lt.mp hle)) hrest

theorem Wf.drain {q : Purgatory} (h : q.Wf) (newHW : Nat) :
    Settled q (q.drain newHW) (fun id => decide (q.requiredHW id ≤ newHW)) none :=
  drainLoop_settled newHW _ h le_rfl

theorem failLoop_settled (err : ErrorCode) : ∀ (fuel : Nat) {q : Purgatory}, q.Wf →
    q.heap.length ≤ fuel → Settled q (failLoop err fuel q) (fun _ => true) (some err) := by
  intro fuel
  induction fuel with
  | zero =>
    intro q h hfuel
    refine h.settled_none (fun id hid => ?_) _
    rw [List.length_eq_zero_iff.mp (Nat.le_zero.mp hfuel)] at hid
    exact absurd hid List.not_mem_nil
  | succ fuel ih =>
    intro q h hfuel
    rw [failLoop]
    split
    · rename_i hq
      refine h.settled_none (fun id hid => ?_) _
      rw [hq] at hid
      exact absurd hid List.not_mem_nil
    rename_i hne
    obtain ⟨top, rest, hq⟩ := List.exists_cons_of_ne_nil hne
    obtain ⟨q', hpop, htaken⟩ := h.heapPop hq
    have hone := h.fail_settled htaken err
    have hlen : ((q'.setErr top err).close top).heap.length ≤ fuel := by
      have hcount := htaken.perm.length_eq
      simp only [List.length_cons] at hcount
      show q'.heap.length ≤ fuel
      omega
    rw [hpop]
    exact hone.trans rfl (ih hone.wf hlen)

theorem Wf.fail {q : Purgatory} (h : q.Wf) (err : ErrorCode) :
    Settled q (q.fail err) (fun _ => true) (some err) :=
  failLoop_settled err _ h le_rfl

/-- The index an entry holds after it was taken out may be any; it is a position of the
entry only while it waits. -/
theorem Wf.expire {q : Purgatory} (h : q.Wf) (id : Nat) :
    Settled q (q.expire id) (fun x => x == id) (some .requestTimedOut) := by
  have habsent : id ∉ q.heap → Settled q q (fun x => x == id) (some .requestTimedOut) := by
    intro hout
    refine h.settled_none (fun x hx => ?_) _
    simpa using fun heq : x = id => hout (heq ▸ hx)
  unfold Purgatory.expire
  split
  · rename_i hnone
    refine habsent fun hid => ?_
    obtain ⟨r, hr⟩ := h.waiting id hid
    unfold seen at hr
    rw [hnone] at hr
    cases hr
  rename_i e he
  split
  · rename_i hat
    exact h.fail_settled (h.heapRemove hat.2) _
  · rename_i hat
    refine habsent fun hid => hat ?_
    obtain ⟨i, hi, hget⟩ := List.mem_iff_getElem.mp hid
    have hpos : q.heap[i]? = some id := by rw [List.getElem?_eq_getElem hi, hget]
    obtain ⟨e', he', hindex⟩ := h.index i id hpos
    cases he.symm.trans he'
    rw [hindex]
    exact ⟨hi, hpos⟩

/-! ## A new entry -/

theorem Wf.lt_length {q : Purgatory} (h : q.Wf) {id : Nat} (hid : id ∈ q.heap) :
    id < q.entries.length := by
  obtain ⟨r, hr⟩ := h.waiting id hid
  by_contra hge
  rw [seen, List.getElem?_eq_none (not_lt.mp hge)] at hr
  cases hr

/-- An entry that waits for `requiredHW` is added. -/
structure Waits (q q' : Purgatory) (requiredHW : Nat) : Prop where
  wf : q'.Wf
  perm : q'.heap.Perm (q.entries.length :: q.heap)
  entries : q'.entries.length = q.entries.length + 1
  seen : ∀ id, q'.seen id =
    if id = q.entries.length then some (requiredHW, none, 0) else q.seen id

/-- `Push` of a new entry, before it is moved up. -/
structure Pushed (q q' : Purgatory) (requiredHW : Nat) : Prop where
  placed : q'.Placed
  heap : q'.heap = q.heap ++ [q.entries.length]
  entries : q'.entries.length = q.entries.length + 1
  seen : ∀ id, q'.seen id =
    if id = q.entries.length then some (requiredHW, none, 0) else q.seen id

theorem Wf.pushed {q : Purgatory} (h : q.Wf) (requiredHW : Nat) :
    Pushed q (push { q with entries := q.entries ++ [⟨requiredHW, none, 0, 0⟩] } q.entries.length)
      requiredHW := by
  have hfresh : q.entries.length ∉ q.heap := fun hid => absurd (h.lt_length hid) (lt_irrefl _)
  refine ⟨⟨?_, fun i id hi => ?_⟩, rfl, by simp [push, setIndex], fun id => ?_⟩
  · exact List.nodup_append'.mpr ⟨h.nodup, List.nodup_singleton _, by simpa using hfresh⟩
  · simp only [push, setIndex, getElem?_modify_self] at hi ⊢
    rw [List.getElem?_append] at hi
    split at hi
    · have hmem := List.mem_of_getElem? hi
      have hlt := h.lt_length hmem
      rw [if_neg hlt.ne', List.getElem?_append_left hlt]
      exact h.index i id hi
    · rw [List.getElem?_singleton] at hi
      split at hi
      · cases hi
        rw [if_pos rfl, List.getElem?_append_right le_rfl, Nat.sub_self]
        exact ⟨_, rfl, by simp only; omega⟩
      · cases hi
  · show (setIndex _ _ _).seen id = _
    rw [seen_setIndex]
    unfold seen
    simp only
    by_cases hid : id = q.entries.length
    · rw [if_pos hid, hid, List.getElem?_append_right le_rfl, Nat.sub_self]
      rfl
    · rw [if_neg hid]
      rcases Nat.lt_or_gt_of_ne hid with hlt | hgt
      · rw [List.getElem?_append_left hlt]
      · rw [List.getElem?_eq_none (by simp; omega), List.getElem?_eq_none hgt.le]

theorem Pushed.ordered {q q' : Purgatory} {requiredHW : Nat} (hp : Pushed q q' requiredHW)
    (h : q.Wf) : Heap.Ordered q'.keyAt q.heap.length := by
  have hkey : ∀ i, i < q.heap.length → q'.keyAt i = q.keyAt i := by
    intro i hi
    have hlt := h.lt_length (List.getElem_mem hi)
    unfold keyAt
    rw [hp.heap, List.getElem?_append_left hi, List.getElem?_eq_getElem hi, Option.map_some,
      Option.map_some, requiredHW_eq, requiredHW_eq, hp.seen, if_neg hlt.ne]
  intro i hi hin
  rw [hkey i hin, hkey _ ((Heap.parent_lt hi).trans hin)]
  exact h.ordered i hi hin

theorem Wf.wait {q : Purgatory} (h : q.Wf) (requiredHW : Nat) :
    Waits q (q.wait requiredHW) requiredHW := by
  have hp := h.pushed requiredHW
  have hord := Heap.push_ordered (hp.ordered h)
  unfold Purgatory.wait heapPush
  simp only
  generalize push _ q.entries.length = q₁ at hp hord ⊢
  have hlen : q₁.heap.length = q.heap.length + 1 := by
    rw [hp.heap, List.length_append, List.length_singleton]
  have hx := exchanged hp.placed (Heap.pushExchanges q₁.keyAt q.heap.length) fun x hx => by
    rw [hlen]
    exact Heap.pushExchanges_lt _ _ x hx
  generalize List.foldl swap q₁ _ = q₂ at hx ⊢
  have hperm : q₂.heap.Perm (q.entries.length :: q.heap) := by
    refine hx.perm.trans ?_
    rw [hp.heap]
    exact List.perm_append_singleton _ _
  have hseen : ∀ id, q₂.seen id =
      if id = q.entries.length then some (requiredHW, none, 0) else q.seen id :=
    fun id => (hx.seen id).trans (hp.seen id)
  refine ⟨⟨hx.placed, ?_, fun id hid => ?_, fun id r err n hs hout => ?_⟩, hperm,
    hx.entries.trans hp.entries, hseen⟩
  · rw [hx.perm.length_eq, hlen, hx.keyAt]
    exact hord
  · rw [hseen]
    split
    · exact ⟨requiredHW, rfl⟩
    · rename_i hne
      exact h.waiting id ((List.mem_cons.mp (hperm.subset hid)).resolve_left hne)
  · rw [hperm.mem_iff, List.mem_cons, not_or] at hout
    rw [hseen, if_neg hout.1] at hs
    exact h.settled id r err n hs hout.2

theorem Waits.requiredHW {q q' : Purgatory} {r : Nat} (h : Waits q q' r) (id : Nat) :
    q'.requiredHW id = if id = q.entries.length then r else q.requiredHW id := by
  rw [requiredHW_eq, requiredHW_eq, h.seen]
  split <;> rfl

/-! ## The list of waiting producers -/

/-- A partition holds the waiting entries as a list and the closed channels with the
error their producer reads. -/
structure Represents (p : Partition) (q : Purgatory) : Prop where
  pushed : p.pushed = q.entries.length
  waiting : p.purgatory.Perm (q.heap.map fun id => ⟨id, q.requiredHW id⟩)
  done : ∀ id err, (id, err) ∈ p.done ↔ ∃ r, q.seen id = some (r, err, 1)

theorem Represents.mem {p : Partition} {q : Purgatory} (h : Represents p q) (e : PurgatoryEntry) :
    e ∈ p.purgatory ↔ e.id ∈ q.heap ∧ e.requiredHW = q.requiredHW e.id := by
  rw [h.waiting.mem_iff, List.mem_map]
  constructor
  · rintro ⟨id, hid, rfl⟩
    exact ⟨hid, rfl⟩
  · rintro ⟨hid, hr⟩
    exact ⟨e.id, hid, by rw [← hr]⟩

theorem Represents.settled {p : Partition} {q q' : Purgatory} {S : Nat → Bool}
    {err : Option ErrorCode} (h : Represents p q) (hq : q.Wf) (hs : Settled q q' S err) :
    Represents { p with
      purgatory := p.purgatory.filter fun e => !S e.id
      done := p.done ++ (p.purgatory.filter fun e => S e.id).map fun e => (e.id, err) } q' where
  pushed := h.pushed.trans hs.entries.symm
  waiting := by
    rw [hs.requiredHW]
    refine (h.waiting.filter _).trans ?_
    rw [List.filter_map]
    exact (hs.perm.map _).symm
  done id err' := by
    have hnew : (id, err') ∈ (p.purgatory.filter fun e => S e.id).map (fun e => (e.id, err)) ↔
        (id ∈ q.heap ∧ S id = true) ∧ err' = err := by
      simp only [List.mem_map, List.mem_filter, h.mem, Prod.mk.injEq]
      constructor
      · rintro ⟨e, ⟨⟨hin, -⟩, hS⟩, rfl, rfl⟩
        exact ⟨⟨hin, hS⟩, rfl⟩
      · rintro ⟨⟨hin, hS⟩, rfl⟩
        exact ⟨⟨id, q.requiredHW id⟩, ⟨⟨hin, rfl⟩, hS⟩, rfl, rfl⟩
    rw [List.mem_append, h.done, hnew, hs.seen]
    split
    · rename_i hin
      obtain ⟨r, hr⟩ := hq.waiting id hin.1
      simp [hr, hin, eq_comm]
    · rename_i hout
      simp [hout]

theorem Represents.drain {p : Partition} {q : Purgatory} (h : Represents p q) (hq : q.Wf)
    (newHW : Nat) : Represents (p.drainPurgatory newHW) (q.drain newHW) := by
  have hs := h.settled hq (hq.drain newHW)
  have hleft : p.purgatory.filter (fun e => decide (newHW < e.requiredHW)) =
      p.purgatory.filter fun e => !decide (q.requiredHW e.id ≤ newHW) := by
    refine List.filter_congr fun e he => ?_
    rw [((h.mem e).mp he).2, ← decide_not]
    exact decide_eq_decide.mpr not_le.symm
  have hout : p.purgatory.filter (fun e => decide (e.requiredHW ≤ newHW)) =
      p.purgatory.filter fun e => decide (q.requiredHW e.id ≤ newHW) := by
    refine List.filter_congr fun e he => ?_
    rw [((h.mem e).mp he).2]
  unfold Partition.drainPurgatory
  rw [hleft, hout]
  exact hs

theorem Represents.fail {p : Partition} {q : Purgatory} (h : Represents p q) (hq : q.Wf)
    (err : ErrorCode) : Represents (p.failPurgatory err) (q.fail err) := by
  have hs := h.settled hq (hq.fail err)
  simp only [Bool.not_true, List.filter_false, List.filter_true] at hs
  exact hs

theorem Represents.expire {p : Partition} {q : Purgatory} (h : Represents p q) (hq : q.Wf)
    (id : Nat) : Represents (p.expire id) (q.expire id) := by
  have hs := h.settled hq (hq.expire id)
  unfold Partition.expire
  split
  · rename_i hany
    obtain ⟨e, he, heq⟩ := List.any_eq_true.mp hany
    have hid : e.id = id := beq_iff_eq.mp heq
    have hin := (h.mem e).mp he
    refine ⟨hs.pushed, hs.waiting, fun x err => ?_⟩
    rw [← hs.done]
    simp only [List.mem_append, List.mem_map, List.mem_filter, List.mem_singleton, Prod.mk.injEq]
    refine or_congr_right ⟨?_, ?_⟩
    · rintro ⟨rfl, rfl⟩
      exact ⟨e, ⟨he, heq⟩, hid, rfl⟩
    · rintro ⟨e', ⟨-, heq'⟩, rfl, rfl⟩
      exact ⟨beq_iff_eq.mp heq', rfl⟩
  · rename_i hnone
    have hout : ∀ e ∈ p.purgatory, (e.id == id) = false := by
      intro e he
      by_contra hne
      exact hnone (List.any_eq_true.mpr ⟨e, he, by simpa using hne⟩)
    rw [List.filter_eq_self.mpr fun e he => by rw [hout e he]; rfl,
      List.filter_eq_nil_iff.mpr fun e he => by rw [hout e he]; exact Bool.false_ne_true,
      List.map_nil, List.append_nil] at hs
    exact hs

theorem Represents.wait {p : Partition} {q : Purgatory} (h : Represents p q) (hq : q.Wf)
    (requiredHW : Nat) : Represents (p.pushPurgatory requiredHW) (q.wait requiredHW) := by
  have hw := hq.wait requiredHW
  refine ⟨?_, ?_, fun id err => ?_⟩
  · rw [hw.entries, ← h.pushed]
    rfl
  · refine List.Perm.trans ?_ (hw.perm.map _).symm
    rw [List.map_cons, hw.requiredHW, if_pos rfl]
    show (p.purgatory ++ [PurgatoryEntry.mk p.pushed requiredHW]).Perm _
    rw [h.pushed]
    refine (List.perm_append_singleton _ _).trans (List.Perm.cons _ (h.waiting.trans ?_))
    refine List.Perm.of_eq (List.map_congr_left fun id hid => ?_)
    rw [hw.requiredHW, if_neg (hq.lt_length hid).ne]
  · show (id, err) ∈ p.done ↔ _
    rw [h.done, hw.seen]
    split
    · rename_i hid
      subst hid
      simp [seen]
    · rfl

end Purgatory

end MessageBroker.Broker
