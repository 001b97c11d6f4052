import MessageBroker.Lib.Runs
import MessageBroker.Storage.Epochs

/-!
# What a leader epoch cache holds and answers

A cache starts empty and changes by `Assign` and the two truncations. Its entries
are then a history: non-negative epochs, with epochs and offsets increasing
together. On such entries the two queries are inverse to each other: an offset
belongs to the epoch that starts at or before it and ends after it.
-/
namespace MessageBroker.Storage

open Lib

namespace EpochCache

/-! ## The calls that change a cache -/

inductive Call
  | assign (epoch : Int32) (startOffset : Nat)
  | truncateFromEnd (offset : Nat)
  | truncateAfter (offset : Nat)

/-- The result of a truncation to `kept`: whether entries were dropped. -/
def truncated (c kept : EpochCache) : Except EpochError Bool × EpochCache :=
  (.ok (decide (kept.length ≠ c.length)), kept)

def call (c : EpochCache) : Call → Except EpochError Bool × EpochCache
  | .assign epoch startOffset =>
      match c.assign epoch startOffset with
      | .error e => (.error e, c)
      | .ok (changed, c') => (.ok changed, c')
  | .truncateFromEnd offset => c.truncated (c.truncateFromEnd offset)
  | .truncateAfter offset => c.truncated (c.truncateAfter offset)

theorem Wf.call {c : EpochCache} (h : c.Wf) (i : Call) : (c.call i).2.Wf := by
  cases i with
  | assign epoch startOffset =>
    rw [EpochCache.call]
    cases ha : c.assign epoch startOffset with
    | error e => exact h
    | ok r => exact h.assign ha
  | truncateFromEnd offset => exact h.takeWhile _
  | truncateAfter offset => exact h.takeWhile _

theorem wf_calls (calls : List Call) : Wf (Runs.final call [] calls) :=
  Runs.invariant call (fun _ i h => h.call i) wf_nil calls

/-! ## Assignment, as lists -/

/-- Increasing histories with the same entries are the same list. -/
theorem Increasing.ext {c c' : EpochCache} (h : c.Increasing) (h' : c'.Increasing)
    (hmem : ∀ x, x ∈ c ↔ x ∈ c') : c = c' := by
  have hlt : ∀ {d : EpochCache}, d.Increasing → d.Pairwise (fun a b => a.epoch < b.epoch) :=
    fun hd => List.Pairwise.imp And.left hd
  have hnodup : ∀ {d : EpochCache}, d.Increasing → d.Nodup := by
    intro d hd
    refine (hlt hd).imp ?_
    rintro a b hab rfl
    exact lt_irrefl _ hab
  refine List.Perm.eq_of_pairwise' (hlt h) (hlt h') ?_
  exact (List.perm_ext_iff_of_nodup (hnodup h) (hnodup h')).mpr hmem

/-- A successful `Assign` changes nothing, or leaves the entries that are older and
start earlier, with the new entry behind them. -/
theorem assign_eq {c c' : EpochCache} (h : c.Increasing) {epoch : Int32} {startOffset : Nat}
    {changed : Bool} (ha : c.assign epoch startOffset = .ok (changed, c')) :
    (c' = c ∧ ∃ last, c.getLast? = some last ∧ last.epoch = epoch ∧
      last.startOffset ≤ startOffset) ∨
    c' = c.filter (fun x => decide (x.epoch < epoch ∧ x.startOffset < startOffset)) ++
      [⟨epoch, startOffset⟩] := by
  obtain ⟨-, hinc, hsame | ⟨-, -, hmem⟩⟩ := assign_cases h ha
  · exact .inl hsame
  · right
    refine hinc.ext ?_ fun x => ?_
    · refine List.pairwise_append.mpr ⟨h.sublist List.filter_sublist, List.pairwise_singleton _ _,
        fun x hx y hy => ?_⟩
      rw [List.mem_singleton.mp hy]
      exact of_decide_eq_true (List.mem_filter.mp hx).2
    · rw [hmem, List.mem_append, List.mem_filter, List.mem_singleton, decide_eq_true_iff]
      exact Or.comm

/-! ## Replay -/

theorem replay_eq_self_iff (l : List EpochEntry) :
    replayEpochEntries [] l = .ok l ↔ Wf l :=
  ⟨wf_replay wf_nil, fun h => List.nil_append l ▸ replay_append ((List.nil_append l).symm ▸ h)⟩

end EpochCache

open EpochCache in
/-- The entries of a cache after any calls, what a successful `Assign` then does,
and which lists a replay gives back. -/
theorem epoch_cache_histories (calls : List EpochCache.Call) :
    (Runs.final call [] calls).Pairwise
      (fun a b => a.epoch < b.epoch ∧ a.startOffset < b.startOffset) ∧
    (∀ x ∈ Runs.final call [] calls, 0 ≤ x.epoch) ∧
    (∀ epoch startOffset changed c',
      (Runs.final call [] calls).assign epoch startOffset = .ok (changed, c') →
        (c' = Runs.final call [] calls ∧ ∃ last, c'.getLast? = some last ∧
          last.epoch = epoch ∧ last.startOffset ≤ startOffset) ∨
        c' = (Runs.final call [] calls).filter
          (fun x => decide (x.epoch < epoch ∧ x.startOffset < startOffset)) ++
            [⟨epoch, startOffset⟩]) ∧
    ∀ l, replayEpochEntries [] l = .ok l ↔
      l.Pairwise (fun a b => a.epoch < b.epoch ∧ a.startOffset < b.startOffset) ∧
        ∀ x ∈ l, 0 ≤ x.epoch := by
  have hwf := wf_calls calls
  refine ⟨hwf.increasing, hwf.nonneg, fun epoch startOffset changed c' ha => ?_, fun l => ?_⟩
  · rcases assign_eq hwf.increasing ha with ⟨rfl, hlast⟩ | hnew
    · exact .inl ⟨rfl, hlast⟩
    · exact .inr hnew
  · rw [replay_eq_self_iff]
    exact ⟨fun h => ⟨h.increasing, h.nonneg⟩, fun h => ⟨h.1, h.2⟩⟩

namespace EpochCache

/-! ## Queries by index -/

/-- An index out of range. -/
inductive IndexPanic
  | outOfRange
  deriving DecidableEq

/-- `c.entries[i]`. -/
def entryAt (cache : EpochCache) (i : Nat) : Except IndexPanic EpochEntry :=
  match cache[i]? with
  | some e => .ok e
  | none => .error .outOfRange

/-- The downward loop of `EndOffsetFor` over the entries before index `n`. -/
def downLoop (cache : EpochCache) (requestedEpoch : Int32) :
    Nat → Except IndexPanic (Option EpochEndOffset)
  | 0 => .ok none
  | i + 1 => do
      let e ← cache.entryAt i
      if e.epoch ≤ requestedEpoch then
        let next ← cache.entryAt (i + 1)
        return some ⟨e.epoch, next.startOffset⟩
      else downLoop cache requestedEpoch i

/-- `EndOffsetFor` with its index expressions. -/
def endOffsetForAt (cache : EpochCache) (requestedEpoch : Int32) (leo : Nat) :
    Except IndexPanic (Option EpochEndOffset) :=
  if cache.length = 0 ∨ requestedEpoch < 0 then .ok none
  else do
    let first ← cache.entryAt 0
    if requestedEpoch < first.epoch then return some ⟨requestedEpoch, first.startOffset⟩
    let last ← cache.entryAt (cache.length - 1)
    if requestedEpoch = last.epoch then return some ⟨last.epoch, leo⟩
    if last.epoch < requestedEpoch then return none
    downLoop cache requestedEpoch cache.length

theorem floorLoop_snoc (r : Int32) (xs : EpochCache) (e e' : EpochEntry) :
    floorLoop r (xs ++ [e, e']) =
      if e.epoch ≤ r then some ⟨e.epoch, e'.startOffset⟩ else floorLoop r (xs ++ [e]) := by
  induction xs with
  | nil => simp [floorLoop]
  | cons x xs ih =>
    cases xs with
    | nil =>
      simp only [List.cons_append, List.nil_append, floorLoop]
      by_cases h : e.epoch ≤ r
      · rw [if_pos h, if_pos h]
      · rw [if_neg h, if_neg h]
    | cons y ys =>
      simp only [List.cons_append, floorLoop] at ih ⊢
      rw [ih]
      by_cases h : e.epoch ≤ r
      · rw [if_pos h, if_pos h]
      · rw [if_neg h, if_neg h]

/-- Below a valid index the loop finds what the search from the front does. -/
theorem downLoop_eq (cache : EpochCache) (r : Int32) {i : Nat} (hi : i < cache.length) :
    downLoop cache r i = .ok (floorLoop r (cache.take (i + 1))) := by
  induction i with
  | zero =>
    cases cache with
    | nil => cases hi
    | cons e es => rfl
  | succ i ih =>
    have he : cache.entryAt i = .ok cache[i] := by
      rw [entryAt, List.getElem?_eq_getElem (by omega)]
    have he' : cache.entryAt (i + 1) = .ok cache[i + 1] := by
      rw [entryAt, List.getElem?_eq_getElem hi]
    have htake : cache.take (i + 1 + 1) = cache.take i ++ [cache[i], cache[i + 1]] := by
      rw [List.take_succ_eq_append_getElem hi, List.take_succ_eq_append_getElem (by omega),
        List.append_assoc]
      rfl
    have htake' : cache.take (i + 1) = cache.take i ++ [cache[i]] :=
      List.take_succ_eq_append_getElem (by omega)
    rw [downLoop, he, htake, floorLoop_snoc, ← htake']
    show (if _ then _ else _) = _
    split
    · rw [he']
      rfl
    · exact ih (by omega)

/-- No index of `EndOffsetFor` is out of range, in any cache. -/
theorem endOffsetForAt_eq (cache : EpochCache) (r : Int32) (leo : Nat) :
    cache.endOffsetForAt r leo = .ok (cache.endOffsetFor r leo) := by
  unfold endOffsetForAt endOffsetFor
  cases hcache : cache with
  | nil => rfl
  | cons first rest =>
    rw [← hcache]
    have hlen : 0 < cache.length := by rw [hcache]; exact Nat.succ_pos _
    have hfirst : cache.entryAt 0 = .ok first := by rw [hcache]; rfl
    obtain ⟨last, hlast⟩ : ∃ last, cache.getLast? = some last :=
      ⟨_, List.getLast?_eq_some_getLast (List.ne_nil_of_length_pos hlen)⟩
    have hend : cache.entryAt (cache.length - 1) = .ok last := by
      rw [entryAt, ← List.getLast?_eq_getElem?, hlast]
    have hhead : cache.head? = some first := by rw [hcache]; rfl
    rw [hhead, hlast]
    by_cases hneg : r < 0
    · rw [if_pos (.inr hneg)]
      simp only [if_pos hneg]
    rw [if_neg (fun h => h.elim (by omega) hneg), hfirst]
    simp only [if_neg hneg]
    show (if _ then _ else _) = _
    by_cases hbelow : r < first.epoch
    · rw [if_pos hbelow, if_pos hbelow]
      rfl
    rw [if_neg hbelow, if_neg hbelow, hend]
    show (if _ then _ else _) = _
    by_cases heq : r = last.epoch
    · rw [if_pos heq, if_pos heq]
      rfl
    rw [if_neg heq, if_neg heq]
    by_cases habove : last.epoch < r
    · rw [if_pos habove, if_pos habove]
      rfl
    rw [if_neg habove, if_neg habove]
    -- the last entry is newer than the request, so the loop goes on below it
    have hlt : ¬ last.epoch ≤ r := not_le.mpr (lt_of_le_of_ne (not_lt.mp habove) heq)
    have hsucc : cache.length = cache.length - 1 + 1 := by omega
    rw [hsucc, downLoop, hend]
    show (if _ then _ else _) = _
    rw [if_neg hlt, downLoop_eq cache r (by omega), ← hsucc, List.take_length]

/-! ## Exact answers -/

/-- The last epoch of a cache, if it has one. -/
def lastEpoch? (c : EpochCache) : Option Int32 := c.getLast?.map (·.epoch)

/-- What `EndOffsetFor` has to answer: the newest epoch not newer than `r`, or `r`
itself before the first one; and the start of the oldest newer epoch, or the end of
the log if `r` is the last epoch. -/
structure ExactAnswer (c : EpochCache) (leo : Nat) (r : Int32) (a : EpochEndOffset) : Prop where
  epoch : (∃ e ∈ c, e.epoch = a.epoch ∧ e.epoch ≤ r ∧ ∀ x ∈ c, x.epoch ≤ r → x.epoch ≤ e.epoch) ∨
    (a.epoch = r ∧ ∀ x ∈ c, r < x.epoch)
  endOffset : (∃ e ∈ c, e.startOffset = a.endOffset ∧ r < e.epoch ∧
      ∀ x ∈ c, r < x.epoch → e.epoch ≤ x.epoch) ∨
    (a.endOffset = leo ∧ c.lastEpoch? = some r)

theorem le_lastEpoch_iff {c : EpochCache} (h : c.Increasing) (r : Int32) :
    (∃ x ∈ c, r ≤ x.epoch) ↔ ∃ e, c.lastEpoch? = some e ∧ r ≤ e := by
  unfold lastEpoch?
  constructor
  · rintro ⟨x, hx, hle⟩
    obtain ⟨last, hl⟩ : ∃ last, c.getLast? = some last :=
      ⟨_, List.getLast?_eq_some_getLast (List.ne_nil_of_mem hx)⟩
    exact ⟨last.epoch, by rw [hl]; rfl, hle.trans (h.le_last hl hx)⟩
  · rintro ⟨e, he, hle⟩
    obtain ⟨last, hl, rfl⟩ := Option.map_eq_some_iff.mp he
    exact ⟨last, List.mem_of_getLast? hl, hle⟩

theorem Answers.exact {c : EpochCache} (h : c.Increasing) {leo : Nat} {r : Int32}
    {a : EpochEndOffset} (ha : c.Answers leo r a) (hr : ∃ x ∈ c, r ≤ x.epoch) :
    c.ExactAnswer leo r a := by
  refine ⟨ha.epoch, ?_⟩
  rcases ha.attained with ⟨e, he, hlt, hs⟩ | ⟨hleo, hall⟩
  · refine .inl ⟨e, he, hs, hlt, fun x hx hrx => ?_⟩
    rw [h.le_iff he hx, hs]
    exact ha.upper x hx hrx
  · obtain ⟨e, he, hle⟩ := (le_lastEpoch_iff h r).mp hr
    obtain ⟨last, hl, rfl⟩ := Option.map_eq_some_iff.mp he
    refine .inr ⟨hleo, ?_⟩
    rw [he, le_antisymm hle (hall last (List.mem_of_getLast? hl))]

theorem isSome_endOffsetFor {c : EpochCache} (h : c.Increasing) (r : Int32) (leo : Nat) :
    (c.endOffsetFor r leo).isSome ↔ 0 ≤ r ∧ ∃ e, c.lastEpoch? = some e ∧ r ≤ e := by
  rw [← le_lastEpoch_iff h]
  rcases endOffsetFor_cases h r leo with ⟨hnone, hwhy⟩ | ⟨a, ha, -, h0, hr⟩
  · rw [hnone]
    refine iff_of_false (by simp) ?_
    rintro ⟨h0, x, hx, hle⟩
    rcases hwhy with hneg | hall
    · exact absurd h0 (not_le.mpr hneg)
    · exact absurd hle (not_le.mpr (hall x hx))
  · rw [ha]
    exact iff_of_true rfl ⟨h0, hr⟩

/-- Every start is at most the log end if the last one is. -/
theorem start_le_of_last {c : EpochCache} (h : c.Increasing) {leo : Nat}
    (hleo : ∀ last, c.getLast? = some last → last.startOffset ≤ leo) {x : EpochEntry}
    (hx : x ∈ c) : x.startOffset ≤ leo := by
  obtain ⟨last, hl⟩ : ∃ last, c.getLast? = some last :=
    ⟨_, List.getLast?_eq_some_getLast (List.ne_nil_of_mem hx)⟩
  exact ((h.le_iff hx (List.mem_of_getLast? hl)).mp (h.le_last hl hx)).trans (hleo last hl)

theorem Answers.endOffset_le {c : EpochCache} (h : c.Increasing) {leo : Nat}
    (hleo : ∀ last, c.getLast? = some last → last.startOffset ≤ leo) {r : Int32}
    {a : EpochEndOffset} (ha : c.Answers leo r a) : a.endOffset ≤ leo := by
  rcases ha.attained with ⟨x, hx, -, hs⟩ | ⟨hs, -⟩
  · exact hs ▸ start_le_of_last h hleo hx
  · exact hs.le

/-- The entry in force at an offset is the one whose epoch has not ended there. -/
theorem at_iff_lt_end {c : EpochCache} (h : c.Increasing) {leo o : Nat} (ho : o < leo)
    {e : EpochEntry} (he : e ∈ c) {a : EpochEndOffset} (ha : c.Answers leo e.epoch a) :
    c.At o e ↔ e.startOffset ≤ o ∧ o < a.endOffset := by
  constructor
  · rintro ⟨-, hle, hmax⟩
    refine ⟨hle, ?_⟩
    rcases ha.attained with ⟨x, hx, hlt, hs⟩ | ⟨hs, -⟩
    · have hstart := (h.lt_iff he hx).mp hlt
      by_contra hge
      have := hmax x hx (by omega)
      omega
    · omega
  · rintro ⟨hle, hlt⟩
    refine ⟨he, hle, fun x hx hxo => ?_⟩
    rw [← h.le_iff hx he]
    by_contra hnewer
    have := ha.upper x hx (not_le.mp hnewer)
    omega

theorem epochForOffset_iff {c : EpochCache} (h : c.Wf) {leo o : Nat} (ho : o < leo)
    (epoch : Int32) : c.epochForOffset o = some epoch ↔
      ∃ e ∈ c, e.epoch = epoch ∧ e.startOffset ≤ o ∧
        ∃ a, c.endOffsetFor epoch leo = some a ∧ o < a.endOffset := by
  have hans : ∀ e ∈ c, ∃ a, c.endOffsetFor e.epoch leo = some a ∧ c.Answers leo e.epoch a := by
    intro e he
    rcases endOffsetFor_cases h.increasing e.epoch leo with ⟨-, hneg | hall⟩ | ⟨a, ha, hans, -⟩
    · exact absurd (h.nonneg e he) (not_le.mpr hneg)
    · exact absurd (hall e he) (lt_irrefl _)
    · exact ⟨a, ha, hans⟩
  rw [epochForOffset_eq_some h.increasing]
  constructor
  · rintro ⟨e, hat, rfl⟩
    obtain ⟨a, ha, ha'⟩ := hans e hat.1
    obtain ⟨hle, hlt⟩ := (at_iff_lt_end h.increasing ho hat.1 ha').mp hat
    exact ⟨e, hat.1, rfl, hle, a, ha, hlt⟩
  · rintro ⟨e, he, rfl, hle, a, ha, hlt⟩
    obtain ⟨a', ha', hans'⟩ := hans e he
    rw [ha] at ha'
    cases ha'
    exact ⟨e, (at_iff_lt_end h.increasing ho he hans').mpr ⟨hle, hlt⟩, rfl⟩

end EpochCache

open EpochCache in
/-- The queries of a cache after any calls, with a log end that is not below the
last start: an end is found for the epochs up to the last one and is exact, ends
grow with the epoch, and an offset has the epoch whose start and end enclose it. -/
theorem epoch_queries_exact (calls : List EpochCache.Call) (leo : Nat)
    (hleo : ∀ last, (Runs.final call [] calls).getLast? = some last → last.startOffset ≤ leo) :
    (∀ r, ∃ answer, (Runs.final call [] calls).endOffsetForAt r leo = .ok answer ∧
      (answer.isSome ↔ 0 ≤ r ∧
        ∃ e, (Runs.final call [] calls).lastEpoch? = some e ∧ r ≤ e) ∧
      ∀ a, answer = some a → (Runs.final call [] calls).ExactAnswer leo r a) ∧
    (∀ r r' a a', r ≤ r' → (Runs.final call [] calls).endOffsetForAt r leo = .ok (some a) →
      (Runs.final call [] calls).endOffsetForAt r' leo = .ok (some a') →
        a.endOffset ≤ a'.endOffset) ∧
    ∀ o, o < leo → ∀ epoch, (Runs.final call [] calls).epochForOffset o = some epoch ↔
      ∃ e ∈ Runs.final call [] calls, e.epoch = epoch ∧ e.startOffset ≤ o ∧
        ∃ a, (Runs.final call [] calls).endOffsetForAt epoch leo = .ok (some a) ∧
          o < a.endOffset := by
  have hwf := wf_calls calls
  generalize Runs.final call [] calls = c at hleo hwf ⊢
  simp only [endOffsetForAt_eq, Except.ok.injEq]
  refine ⟨fun r => ⟨_, rfl, isSome_endOffsetFor hwf.increasing r leo, fun a ha => ?_⟩,
    fun r r' a a' hle ha ha' => ?_, fun o ho epoch => epochForOffset_iff hwf ho epoch⟩
  · obtain ⟨hans, -, hr⟩ := answers_of_endOffsetFor hwf.increasing ha
    exact hans.exact hwf.increasing hr
  · obtain ⟨hans, -⟩ := answers_of_endOffsetFor hwf.increasing ha
    obtain ⟨hans', -⟩ := answers_of_endOffsetFor hwf.increasing ha'
    have hmin := hans.end_le hans' hle
    have hbound := hans.endOffset_le hwf.increasing hleo
    omega

open EpochCache in
theorem epoch_queries_exact_twoEpochs :
    Runs.final call [] [.assign 1 0, .assign 3 5] = [⟨1, 0⟩, ⟨3, 5⟩] ∧
    (∀ o, o < 9 → ∀ epoch, epochForOffset [⟨1, 0⟩, ⟨3, 5⟩] o = some epoch ↔
      ∃ e ∈ ([⟨1, 0⟩, ⟨3, 5⟩] : EpochCache), e.epoch = epoch ∧ e.startOffset ≤ o ∧
        ∃ a, endOffsetForAt [⟨1, 0⟩, ⟨3, 5⟩] epoch 9 = .ok (some a) ∧ o < a.endOffset) := by
  refine ⟨by decide, (epoch_queries_exact [.assign 1 0, .assign 3 5] 9 ?_).2.2⟩
  intro last hl
  have h : Runs.final call [] [.assign 1 0, .assign 3 5] = [⟨1, 0⟩, ⟨3, 5⟩] := by decide
  rw [h] at hl
  cases hl
  decide

end MessageBroker.Storage
