import MessageBroker.Storage.Growth

/-!
# Truncating keeps a log well formed

A truncation that finds its boundary keeps the batches before it, provided the
rebuilt index has room for them: the segment file is cut before the index is
rebuilt, so a rebuild that runs out of room leaves the segments after the cut
in place.
-/
namespace MessageBroker.Storage

open Lib.Bytes Lib.Tiling Lib

/-! ## Finding a segment -/

namespace Log

/-- A target splits the pairs of a log. -/
def before (l : Log) : Target → List SegmentPair
  | .active => l.sealedPairs
  | .sealed i => l.sealedPairs.take i

def after (l : Log) : Target → List SegmentPair
  | .active => []
  | .sealed i => l.sealedPairs.drop (i + 1) ++ [l.activePair]

theorem sealedAt_eq {l : Log} {i : Nat} (h : i < l.sealedPairs.length) :
    l.sealedPairs[i] = l.sealedAt i := by
  unfold sealedAt
  rw [List.getD_eq_getElem?_getD, List.getElem?_eq_getElem h]
  rfl

theorem sealed_split {l : Log} {i : Nat} (h : i < l.sealedPairs.length) :
    l.sealedPairs = l.sealedPairs.take i ++ l.sealedAt i :: l.sealedPairs.drop (i + 1) := by
  rw [← sealedAt_eq h, List.cons_getElem_drop_succ, List.take_append_drop]

theorem set_sealedAt (l : Log) (i : Nat) :
    l.sealedPairs.set i (l.sealedAt i) = l.sealedPairs := by
  by_cases h : i < l.sealedPairs.length
  · rw [← sealedAt_eq h, List.set_getElem_self]
  · exact List.set_eq_of_length_le (Nat.le_of_not_lt h)

/-- Each pair starts at or after the one before it. -/
abbrev Ordered (ps : List SegmentPair) : Prop :=
  ps.Pairwise fun p q => p.segment.baseOffset ≤ q.segment.baseOffset

theorem ordered_of {a b : Nat} {ps : List SegmentPair} (h : Connected a b ps) : Ordered ps :=
  h.pairwise.imp_of_mem fun hp _ hpq => (h.mem hp).2.1.trans hpq

theorem bases_mono {l : Log} (h : Ordered l.sealedPairs) {i j : Nat}
    (hij : i ≤ j) (hj : j < l.sealedPairs.length) :
    (l.sealedAt i).segment.baseOffset ≤ (l.sealedAt j).segment.baseOffset := by
  rcases Nat.lt_or_eq_of_le hij with hlt | rfl
  · have hi : i < l.sealedPairs.length := by omega
    have hle := List.pairwise_iff_getElem.mp h i j hi hj hlt
    rwa [sealedAt_eq hi, sealedAt_eq hj] at hle
  · exact Nat.le_refl _

/-- What the binary search of `findSegment` returns. -/
theorem search_spec {l : Log} (h : Ordered l.sealedPairs) (offset : Nat) :
    let k := Search.sortSearch l.sealedPairs.length
      (fun i => decide (offset < (l.sealedAt i).segment.baseOffset))
    k ≤ l.sealedPairs.length ∧
      (∀ i, i < k → (l.sealedAt i).segment.baseOffset ≤ offset) ∧
      ∀ i, k ≤ i → i < l.sealedPairs.length → offset < (l.sealedAt i).segment.baseOffset := by
  obtain ⟨hn, hlo, hhi⟩ := Search.sortSearch_spec (n := l.sealedPairs.length)
    (f := fun i => decide (offset < (l.sealedAt i).segment.baseOffset)) (by
      intro a b hab hb ha
      have := bases_mono h hab hb
      simp only [decide_eq_true_eq] at ha ⊢
      omega)
  refine ⟨hn, fun i hi => ?_, fun i hi hl => ?_⟩
  · simpa using hlo i hi
  · simpa using hhi i hi hl

/-- `findSegment` finds the last pair that starts at or before the offset. -/
theorem findSegment_ordered {l : Log} (h : Ordered l.sealedPairs) {offset : Nat}
    (ho : l.oldestOffset ≤ offset) :
    ∃ target, l.findSegment offset = some target ∧
      l.pairs = l.before target ++ l.pairAt target :: l.after target ∧
      (l.pairAt target).segment.baseOffset ≤ offset ∧
      ∀ q ∈ l.after target, offset < q.segment.baseOffset := by
  unfold findSegment
  by_cases hact : l.activePair.segment.baseOffset ≤ offset
  · exact ⟨.active, if_pos hact, rfl, hact, fun q hq => absurd hq List.not_mem_nil⟩
  obtain ⟨hn, hlo, hhi⟩ := search_spec h offset
  simp only [if_neg hact]
  revert hn hlo hhi
  generalize Search.sortSearch l.sealedPairs.length
    (fun i => decide (offset < (l.sealedAt i).segment.baseOffset)) = k
  intro hn hlo hhi
  have hk : k ≠ 0 := by
    rintro rfl
    cases hsl : l.sealedPairs with
    | nil =>
      simp only [oldestOffset, hsl] at ho
      omega
    | cons p ps =>
      have h0 := hhi 0 (Nat.le_refl _) (by rw [hsl]; simp)
      simp only [sealedAt, oldestOffset, hsl, List.getD_cons_zero] at h0 ho
      omega
  have hi : k - 1 < l.sealedPairs.length := by omega
  refine ⟨.sealed (k - 1), if_neg hk, ?_, ?_, fun q hq => ?_⟩
  · show l.sealedPairs ++ [l.activePair] = _
    rw [sealed_split hi]
    simp [before, after, pairAt]
  · exact hlo (k - 1) (by omega)
  · rcases List.mem_append.mp hq with hq | hq
    · obtain ⟨i, hil, rfl⟩ := List.getElem_of_mem hq
      rw [List.length_drop] at hil
      rw [List.getElem_drop, sealedAt_eq]
      exact hhi _ (by omega) (by omega)
    · rw [List.mem_singleton.mp hq]
      exact Nat.lt_of_not_le hact

/-- Without gaps the pair found reaches beyond the offset, or is the last one. -/
theorem findSegment_some {l : Log} (h : Connected l.oldestOffset l.nextOffset l.pairs)
    {offset : Nat} (ho : l.oldestOffset ≤ offset) :
    ∃ target, l.findSegment offset = some target ∧
      l.pairs = l.before target ++ l.pairAt target :: l.after target ∧
      (l.pairAt target).segment.baseOffset ≤ offset ∧
      (l.after target ≠ [] → offset < (l.pairAt target).segment.nextOffset) := by
  obtain ⟨m, hs, -⟩ := linked_append.mp h
  obtain ⟨target, hfind, hsplit, hbase, hafter⟩ := findSegment_ordered (ordered_of hs) ho
  refine ⟨target, hfind, hsplit, hbase, fun hne => ?_⟩
  obtain ⟨q, rest, hq⟩ := List.exists_cons_of_ne_nil hne
  rw [hsplit, hq] at h
  obtain ⟨m', -, -, -, hnext, -⟩ := linked_append.mp h
  have hlt := hafter q (by rw [hq]; exact List.mem_cons_self)
  simp only at hnext
  omega

/-- Below the first pair there is nothing to find. -/
theorem findSegment_none {l : Log} (h : Connected l.oldestOffset l.nextOffset l.pairs)
    {offset : Nat} (ho : offset < l.oldestOffset) : l.findSegment offset = none := by
  unfold findSegment
  have hact := (h.mem l.active_mem).1
  obtain ⟨m, hs, -⟩ := linked_append.mp h
  rw [if_neg (by omega)]
  obtain ⟨hn, hlo, -⟩ := search_spec (ordered_of hs) offset
  simp only
  rw [if_pos]
  by_contra hk
  have hle := hlo 0 (by omega)
  have h0 : 0 < l.sealedPairs.length := by omega
  have hmem := (hs.mem (List.getElem_mem h0)).1
  rw [sealedAt_eq h0] at hmem
  omega

end Log

/-! ## Truncation -/

/-- The index of a pair has room for the batches that end at or before the offset. -/
def SegmentPair.fitsBelow (p : SegmentPair) (interval : Int64) (offset : Nat) : Prop :=
  (indexEntrySize * entriesNeeded interval true 0
    (p.segment.batches.filter fun c => decide (endOffset c ≤ offset)) : Nat) ≤
      p.index.maxBytes.toInt

instance (p : SegmentPair) (interval : Int64) (offset : Nat) :
    Decidable (p.fitsBelow interval offset) := by
  unfold SegmentPair.fitsBelow
  infer_instance

/-- Cutting a pair at a boundary: an I/O error without a trace, or the pair with
the batches before the boundary, if only with a partial index. -/
theorem truncateSegmentPair_cases {crc : Checksum} {p : SegmentPair} (hp : p.Ok crc)
    {offset position : Nat} (hpos : p.segment.findTruncationPosition offset = .ok position)
    (interval : Int64) (fault : Bool) :
    (fault = true ∧ ∃ e, truncateSegmentPair p position offset interval fault = (.error e, p)) ∨
    ∃ r p' cut, truncateSegmentPair p position offset interval fault = (r, p') ∧ p'.Ok crc ∧
      p'.segment.file = p.segment.file.take position ∧
      p.segment.batches = p'.segment.batches ++ cut ∧
      p'.segment.baseOffset = p.segment.baseOffset ∧ p'.segment.nextOffset = offset ∧
      p'.index.maxBytes = p.index.maxBytes ∧ p'.segment.maxSize = p.segment.maxSize ∧
      (p.fitsBelow interval offset ↔ 0 ≤ p.index.maxBytes.toInt ∧ r = .ok ()) := by
  obtain ⟨kept, cut, hsplit, rfl, hkept, hcut⟩ := (findTruncationPosition_ok hp.rep).mp hpos
  have hrep := hp.rep
  rw [hsplit] at hrep
  unfold truncateSegmentPair
  cases fault with
  | true =>
    left
    have hle := hkept.le
    have hlen : kept.flatten.length ≤ p.segment.currentSize := by
      rw [hrep.size_flatten, List.flatten_append, List.length_append]
      omega
    have htr : p.segment.truncateAt kept.flatten.length offset true =
        (.error .truncate, p.segment) := by
      rw [Segment.truncateAt, if_neg (by omega), if_neg (by omega)]
      rfl
    rw [htr]
    exact ⟨rfl, _, rfl⟩
  | false =>
    right
    obtain ⟨s, htr, hs, hbase, hnext, hmax⟩ := truncateAt_rep hrep hkept hcut
    have hfile : s.file = p.segment.file.take kept.flatten.length := by
      rw [hs.file_eq, hrep.file_eq, List.flatten_append, List.take_left]
    obtain ⟨hpts, himax, hfits⟩ := rebuildIndexFromSegment_points hs
      (hp.points.base_eq.trans hbase.symm) interval
    rw [htr]
    simp only
    cases hrb : rebuildIndexFromSegment s p.index interval with
    | mk r idx =>
      rw [hrb] at hpts himax hfits
      have hcutEq : p.segment.batches = s.batches ++ cut := by rw [hs.batches_eq, hsplit]
      have hfit : p.fitsBelow interval offset ↔
          0 ≤ p.index.maxBytes.toInt ∧ ∃ n, r = .ok n := by
        unfold SegmentPair.fitsBelow
        rw [hsplit, hkept.filter_hi_le hcut]
        exact hfits
      cases r with
      | error e =>
        refine ⟨_, _, cut, rfl, .of_rep hs hpts, hfile, hcutEq, hbase, hnext, himax, hmax,
          hfit.trans ⟨fun h => ?_, fun h => ?_⟩⟩
        · obtain ⟨-, n, hn⟩ := h
          cases hn
        · cases h.2
      | ok n =>
        exact ⟨_, _, cut, rfl, .of_rep hs hpts, hfile, hcutEq, hbase, hnext, himax, hmax,
          hfit.trans ⟨fun h => ⟨h.1, rfl⟩, fun h => ⟨h.1, n, rfl⟩⟩⟩

/-- The log `l'` is `l` without the batches from `offset` on. -/
structure Log.CutAt (crc : Checksum) (l l' : Log) (offset : Nat) : Prop where
  ok : l'.Ok crc
  batches : ∃ cut, l.batches = l'.batches ++ cut
  next : l'.nextOffset = offset
  oldest : l'.oldestOffset = l.oldestOffset
  config : l'.config = l.config
  roomy : l.Roomy → l'.Roomy

/-- A shortened pair takes the active place, and the pairs after it are gone. -/
theorem Log.Ok.cutAt {crc : Checksum} {l l' : Log} (h : l.Ok crc) {offset : Nat}
    {target : Target} {p : SegmentPair} {cut : List ByteString}
    (hsplit : l.pairs = l.before target ++ l.pairAt target :: l.after target) (hp : p.Ok crc)
    (hcut : (l.pairAt target).segment.batches = p.segment.batches ++ cut)
    (hbase : p.segment.baseOffset = (l.pairAt target).segment.baseOffset)
    (hnext : p.segment.nextOffset = offset)
    (hindex : p.index.maxBytes = (l.pairAt target).index.maxBytes)
    (hsize : p.segment.maxSize = (l.pairAt target).segment.maxSize)
    (hsealed : l'.sealedPairs = l.before target) (hactive : l'.activePair = p)
    (hconfig : l'.config = l.config) (hstrays : l'.strays = []) :
    Log.CutAt crc l l' offset := by
  have hpairs : l'.pairs = l.before target ++ [p] := by rw [Log.pairs, hsealed, hactive]
  have hbefore : ∀ q ∈ l.before target, q ∈ l.pairs := by
    intro q hq
    rw [hsplit]
    exact List.mem_append_left _ hq
  have hmem : l.pairAt target ∈ l.pairs := by
    rw [hsplit]
    simp
  have hlinked : Connected l.oldestOffset offset l'.pairs := by
    have hold := h.linked
    rw [hsplit] at hold
    obtain ⟨m, hs, hm, -, -⟩ := linked_append.mp hold
    have hm' : p.segment.baseOffset = m := hbase.trans hm
    rw [hpairs]
    exact linked_append.mpr ⟨m, hs, hm', hm' ▸ hp.rep.base_le_next, hnext⟩
  obtain ⟨holdest, hnext'⟩ := Log.ends_of hlinked
  refine ⟨⟨?_, Log.linked_of hlinked, hstrays⟩, ?_, hnext', holdest, hconfig, fun hr => ?_⟩
  · intro q hq
    rw [hpairs] at hq
    rcases List.mem_append.mp hq with hq | hq
    · exact h.pair q (hbefore q hq)
    · rw [List.mem_singleton.mp hq]
      exact hp
  · refine ⟨cut ++ (l.after target).flatMap fun q => q.segment.batches, ?_⟩
    rw [Log.batches, Log.batches, hsplit, hpairs]
    simp [List.flatMap_append, List.flatMap_cons, hcut]
  · refine ⟨hconfig ▸ hr.indexBytes, hconfig ▸ hr.segmentBytes, ?_, ?_⟩
    · intro q hq
      rw [hpairs] at hq
      rw [hconfig]
      rcases List.mem_append.mp hq with hq | hq
      · exact hr.limits q (hbefore q hq)
      · rw [List.mem_singleton.mp hq, hindex, hsize]
        exact hr.limits _ hmem
    · intro q hq
      rw [hsealed] at hq
      cases target with
      | active => exact hr.nonempty q hq
      | sealed i => exact hr.nonempty q (List.take_subset _ _ hq)

theorem Log.CutAt.ofEpochs {crc : Checksum} {l l' : Log} {offset : Nat}
    (h : Log.CutAt crc l l' offset) (cache : EpochCache) (file : Option EpochCache)
    (dirty : Bool) :
    Log.CutAt crc l { l' with
      epochCache := cache
      checkpoint := file
      epochCheckpointDirty := dirty } offset :=
  ⟨h.ok.ofEpochs cache file dirty, h.batches, h.next, h.oldest, h.config, fun hr =>
    let hr' := h.roomy hr
    ⟨hr'.indexBytes, hr'.segmentBytes, hr'.limits, hr'.nonempty⟩⟩

theorem Log.finishTruncate_frame (l : Log) (offset : Nat) (physical : Bool) (failed : List Nat)
    (io : Faults) :
    ∃ r file dirty, l.finishTruncate offset physical failed io = (r, { l with
      epochCache := if physical then l.epochCache.truncateFromEnd offset else l.epochCache
      checkpoint := file
      epochCheckpointDirty := dirty }) := by
  unfold Log.finishTruncate
  simp only
  obtain ⟨r, file, dirty, hp⟩ := Log.persistEpochCheckpoint_frame
    { l with
      epochCache := if physical then l.epochCache.truncateFromEnd offset else l.epochCache
      epochCheckpointDirty := l.epochCheckpointDirty || decide
        ((if physical then l.epochCache.truncateFromEnd offset else l.epochCache) ≠
          l.epochCache) } io
  rw [hp]
  cases r with
  | error e => exact ⟨_, file, dirty, rfl⟩
  | ok _ =>
    simp only
    split
    · exact ⟨_, file, dirty, rfl⟩
    · exact ⟨_, file, dirty, rfl⟩

/-- The truncation of a sealed segment leaves an index with room. -/
def Log.truncateFits (l : Log) (offset : Nat) : Prop :=
  match l.findSegment offset with
  | some (.sealed i) => (l.sealedAt i).fitsBelow l.config.indexIntervalBytes offset
  | _ => True

instance (l : Log) (offset : Nat) : Decidable (l.truncateFits offset) := by
  unfold Log.truncateFits
  split <;> infer_instance

/-- `TruncateTo`: rejected without a trace, or cut at the offset. The cached
epochs follow, except when the index of the active segment had no room. -/
theorem Log.Ok.truncateTo {crc : Checksum} {l : Log} (h : l.Ok crc) {io : Faults}
    (hio : io.Harmless) {offset : Nat} (hfits : l.truncateFits offset) :
    ∃ r l', l.truncateTo offset io = (r, l') ∧
      (l' = l ∧ (∃ e, r = .error e) ∨
        Log.CutAt crc l l' offset ∧
          (l'.epochCache = (if offset < l.nextOffset then l.epochCache.truncateFromEnd offset
              else l.epochCache) ∨
            l'.epochCache = l.epochCache ∧ (∃ e, r = .error e) ∧
              ¬ l.activePair.fitsBelow l.config.indexIntervalBytes offset)) := by
  unfold Log.truncateTo
  split
  · exact ⟨_, l, rfl, .inl ⟨rfl, _, rfl⟩⟩
  rename_i hle
  split
  · exact ⟨_, l, rfl, .inl ⟨rfl, _, rfl⟩⟩
  rename_i hge
  split
  · rename_i hlt
    obtain ⟨target, hfind, hsplit, -, -⟩ := Log.findSegment_some h.linked (Nat.le_of_not_lt hge)
    unfold Log.truncateFits at hfits
    rw [hfind] at hfits ⊢
    have hp := h.pair (l.pairAt target) (by rw [hsplit]; simp)
    simp only
    cases hpos : (l.pairAt target).segment.findTruncationPosition offset with
    | error e => exact ⟨_, l, rfl, .inl ⟨rfl, _, rfl⟩⟩
    | ok position =>
      simp only
      rcases truncateSegmentPair_cases hp hpos l.config.indexIntervalBytes io.truncateFails with
        ⟨-, e, he⟩ | ⟨r, p, cut, he, hp', -, hcut, hbase, hnext, himax, hmax, hok⟩
      · rw [he]
        refine ⟨.error e, l, ?_, .inl ⟨rfl, e, rfl⟩⟩
        cases target with
        | active => rfl
        | sealed i =>
          show (_, { l with sealedPairs := l.sealedPairs.set i (l.sealedAt i) }) = _
          rw [Log.set_sealedAt]
      · rw [he]
        have hcutAt : ∀ l' : Log, l'.sealedPairs = l.before target → l'.activePair = p →
            l'.config = l.config → l'.strays = [] → Log.CutAt crc l l' offset := fun l' =>
          h.cutAt hsplit hp' hcut hbase hnext himax hmax
        cases target with
        | active =>
          have hc := hcutAt { l with activePair := p } rfl rfl rfl h.strays
          cases r with
          | error e =>
            refine ⟨_, _, rfl, .inr ⟨hc, .inr ⟨rfl, ⟨e, rfl⟩, fun hf => ?_⟩⟩⟩
            cases (hok.mp hf).2
          | ok _ =>
            obtain ⟨r, file, dirty, hf⟩ :=
              Log.finishTruncate_frame { l with activePair := p } offset true [] io
            exact ⟨r, _, hf, .inr ⟨hc.ofEpochs _ _ _, .inl rfl⟩⟩
        | sealed i =>
          cases r with
          | error e => cases (hok.mp hfits).2
          | ok _ =>
            have hkept : (l.sealedPairs.drop (i + 1) ++ [l.activePair]).filter
                (fun p => io.removeFails p.segment.baseOffset) = [] :=
              List.filter_eq_nil_iff.mpr fun q _ => by simp [hio.remove]
            simp only [hkept, List.map_nil, List.append_nil]
            have hc := hcutAt { l with
              sealedPairs := l.sealedPairs.take i
              activePair := p } rfl rfl rfl h.strays
            obtain ⟨r, file, dirty, hf⟩ := Log.finishTruncate_frame { l with
              sealedPairs := l.sealedPairs.take i
              activePair := p } offset true [] io
            exact ⟨r, _, hf, .inr ⟨hc.ofEpochs _ _ _, .inl rfl⟩⟩
  · rename_i heq
    obtain ⟨r, file, dirty, hf⟩ := Log.finishTruncate_frame l offset false [] io
    have hcut : Log.CutAt crc l l offset :=
      ⟨h, ⟨[], by simp⟩, by omega, rfl, rfl, id⟩
    exact ⟨r, _, hf, .inr ⟨hcut.ofEpochs _ _ _, .inl rfl⟩⟩

/-- No error is reported only if no file was left behind. -/
theorem Log.finishTruncate_ok {l l' : Log} {offset : Nat} {physical : Bool} {failed : List Nat}
    {io : Faults} (h : l.finishTruncate offset physical failed io = (.ok (), l')) :
    failed = [] := by
  unfold Log.finishTruncate at h
  simp only at h
  split at h
  · cases h
  · split at h
    · assumption
    · cases h

/-- A truncation without an error below the end, whatever went wrong in it, cuts
the log and its cached epochs. -/
theorem Log.Ok.truncateTo_ok {crc : Checksum} {l l' : Log} (h : l.Ok crc) {io : Faults}
    {offset : Nat} (hlt : offset < l.nextOffset) (ht : l.truncateTo offset io = (.ok (), l')) :
    Log.CutAt crc l l' offset ∧ l'.epochCache = l.epochCache.truncateFromEnd offset := by
  unfold Log.truncateTo at ht
  rw [if_neg (Nat.not_lt.mpr (Nat.le_of_lt hlt))] at ht
  split at ht
  · cases ht
  rename_i hge
  obtain ⟨target, hfind, hsplit, -, -⟩ := Log.findSegment_some h.linked (Nat.le_of_not_lt hge)
  have hp := h.pair (l.pairAt target) (by rw [hsplit]; simp)
  rw [hfind] at ht
  simp only at ht
  cases hpos : (l.pairAt target).segment.findTruncationPosition offset with
  | error e =>
    rw [hpos] at ht
    cases ht
  | ok position =>
    rw [hpos] at ht
    simp only at ht
    rcases truncateSegmentPair_cases hp hpos l.config.indexIntervalBytes io.truncateFails with
      ⟨-, e, he⟩ | ⟨r, p, cut, he, hp', -, hcut, hbase, hnext, himax, hmax, -⟩
    · rw [he] at ht
      cases target <;> cases ht
    · rw [he] at ht
      have hcutAt : ∀ m : Log, m.sealedPairs = l.before target → m.activePair = p →
          m.config = l.config → m.strays = [] → Log.CutAt crc l m offset := fun m =>
        h.cutAt hsplit hp' hcut hbase hnext himax hmax
      cases r with
      | error e => cases target <;> cases ht
      | ok _ =>
        cases target with
        | active =>
          obtain ⟨r, file, dirty, hf⟩ :=
            Log.finishTruncate_frame { l with activePair := p } offset true [] io
          obtain ⟨-, rfl⟩ := Prod.mk.inj (hf.symm.trans ht)
          exact ⟨(hcutAt { l with activePair := p } rfl rfl rfl h.strays).ofEpochs _ _ _, rfl⟩
        | sealed i =>
          -- a file that could not be removed would have been reported
          have hkept := List.map_eq_nil_iff.mp (Log.finishTruncate_ok ht)
          simp only [hkept, List.map_nil, List.append_nil] at ht
          obtain ⟨r, file, dirty, hf⟩ := Log.finishTruncate_frame { l with
            sealedPairs := l.sealedPairs.take i
            activePair := p } offset true [] io
          obtain ⟨-, rfl⟩ := Prod.mk.inj (hf.symm.trans ht)
          have hc := hcutAt { l with
            sealedPairs := l.sealedPairs.take i
            activePair := p } rfl rfl rfl h.strays
          exact ⟨hc.ofEpochs _ _ _, rfl⟩

end MessageBroker.Storage
