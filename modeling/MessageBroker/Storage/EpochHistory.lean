import MessageBroker.Storage.Checkpoint
import MessageBroker.Storage.Exactness
import MessageBroker.Storage.Restart

/-!
# The epoch history rebuilt from the log

When the checkpoint is of no use, `RecoverEpochCache` scans the batches, replays
what it found and writes it back. A run of one epoch may cross the borders of
segments; it still starts where its first batch does. So the cache that is
rebuilt is the history that the stamps tell, and the file then tells the same.
The scan reads the length of a batch as an `int32`, though: one batch of 2 GiB,
which the internal append stores, and nothing is rebuilt.
-/
namespace MessageBroker.Storage

open Lib Lib.Bytes Lib.Decimal Lib.Text

/-! ## What the stamps tell -/

/-- Each epoch of the batches with the offset of the first batch that carries it. -/
def epochHistory : List ByteString → List EpochEntry
  | [] => []
  | c :: cs => ⟨partitionLeaderEpoch c, baseOffset c⟩ ::
      (epochHistory cs).filter fun e => decide (e.epoch ≠ partitionLeaderEpoch c)

/-- Epochs are not negative and never go back. -/
structure Ascending (cs : List ByteString) : Prop where
  nonneg : ∀ c ∈ cs, 0 ≤ partitionLeaderEpoch c
  sorted : cs.Pairwise fun c c' => partitionLeaderEpoch c ≤ partitionLeaderEpoch c'

theorem Ascending.tail {c : ByteString} {cs : List ByteString} (h : Ascending (c :: cs)) :
    Ascending cs :=
  ⟨fun x hx => h.nonneg x (List.mem_cons_of_mem _ hx), (List.pairwise_cons.mp h.sorted).2⟩

theorem mem_epochHistory {cs : List ByteString} {e : EpochEntry} (h : e ∈ epochHistory cs) :
    ∃ c ∈ cs, e.epoch = partitionLeaderEpoch c ∧ e.startOffset = baseOffset c := by
  induction cs with
  | nil => exact absurd h List.not_mem_nil
  | cons c cs ih =>
    rcases List.mem_cons.mp h with rfl | h
    · exact ⟨c, List.mem_cons_self, rfl, rfl⟩
    · obtain ⟨x, hx, hex⟩ := ih (List.mem_of_mem_filter h)
      exact ⟨x, List.mem_cons_of_mem _ hx, hex⟩

/-- A scan that has seen an epoch below all others starts every epoch but that one. -/
theorem epochRuns_some {cs : List ByteString} : ∀ {seen : Int32}, Ascending cs →
    (∀ c ∈ cs, seen ≤ partitionLeaderEpoch c) →
    (epochRuns (some seen) cs).1 =
      (epochHistory cs).filter fun e => decide (e.epoch ≠ seen) := by
  induction cs with
  | nil => exact fun _ _ => rfl
  | cons c cs ih =>
    intro seen hasc hseen
    have h0 := hasc.nonneg c List.mem_cons_self
    have hlater := (List.pairwise_cons.mp hasc.sorted).1
    rw [epochRuns, epochHistory]
    by_cases he : partitionLeaderEpoch c = seen
    · subst he
      rw [if_neg fun h => h.2 rfl, ih hasc.tail hlater, List.filter_cons_of_neg (by simp),
        List.filter_filter]
      simp only [Bool.and_self]
    · have hlt : seen < partitionLeaderEpoch c :=
        lt_of_le_of_ne (hseen c List.mem_cons_self) (Ne.symm he)
      -- no later epoch is the one seen before
      have hkept : (((epochHistory cs).filter fun e =>
            decide (e.epoch ≠ partitionLeaderEpoch c)).filter fun e => decide (e.epoch ≠ seen)) =
          (epochHistory cs).filter fun e => decide (e.epoch ≠ partitionLeaderEpoch c) := by
        rw [List.filter_eq_self]
        intro e hmem
        obtain ⟨x, hx, hex, -⟩ := mem_epochHistory (List.mem_of_mem_filter hmem)
        have hle := hlater x hx
        rw [← hex] at hle
        exact decide_eq_true (ne_of_gt (hlt.trans_le hle))
      rw [if_pos ⟨h0, fun h => he (Option.some_inj.mp h).symm⟩, ih hasc.tail hlater,
        List.filter_cons_of_pos (by simpa using he), hkept]

theorem epochRuns_none {cs : List ByteString} (h : Ascending cs) :
    (epochRuns none cs).1 = epochHistory cs := by
  cases cs with
  | nil => rfl
  | cons c cs =>
    rw [epochRuns, if_pos ⟨h.nonneg c List.mem_cons_self, fun h => (by cases h)⟩, epochHistory,
      epochRuns_some h.tail (List.pairwise_cons.mp h.sorted).1]

/-- Where batches are in order, so are the starts of their epochs. -/
theorem increasing_epochHistory {cs : List ByteString} (hasc : Ascending cs)
    (hord : cs.Pairwise fun c d => baseOffset c < baseOffset d) :
    EpochCache.Increasing (epochHistory cs) := by
  induction cs with
  | nil => exact EpochCache.increasing_nil
  | cons c cs ih =>
    obtain ⟨hfirst, hrest⟩ := List.pairwise_cons.mp hord
    refine List.pairwise_cons.mpr ⟨fun e he => ?_, (ih hasc.tail hrest).filter _⟩
    obtain ⟨hmem, hne⟩ := List.mem_filter.mp he
    obtain ⟨x, hx, hex, hstart⟩ := mem_epochHistory hmem
    have hle := (List.pairwise_cons.mp hasc.sorted).1 x hx
    rw [← hex] at hle
    refine ⟨lt_of_le_of_ne hle (Ne.symm (of_decide_eq_true hne)), ?_⟩
    rw [hstart]
    exact hfirst x hx

theorem writable_epochHistory {cs : List ByteString} (hasc : Ascending cs)
    (hord : cs.Pairwise fun c d => baseOffset c < baseOffset d)
    (hsmall : ∀ c ∈ cs, baseOffset c < 2 ^ 63) : EpochCache.Writable (epochHistory cs) where
  increasing := increasing_epochHistory hasc hord
  nonneg e he := by
    obtain ⟨x, hx, hex, -⟩ := mem_epochHistory he
    rw [hex]
    exact hasc.nonneg x hx
  small e he := by
    obtain ⟨x, hx, -, hstart⟩ := mem_epochHistory he
    rw [hstart]
    exact hsmall x hx

/-! ## Lengths that the scan refuses -/

section Lengths

variable {crc : Checksum} {s : Segment}

/-- A length of `2^31` or more is negative where the scan reads it. -/
theorem Segment.Rep.readBatchOffsetAndEpochAt_long {pre post : List ByteString} {c : ByteString}
    (h : s.Rep crc (pre ++ c :: post)) (hc : ¬ batchLength c < 2 ^ 31) :
    s.readBatchOffsetAndEpochAt pre.flatten.length =
      .error (.invalidBatchLength (int32 (batchLength c)) pre.flatten.length) := by
  have h61 := (h.stored c (by simp)).length_ge
  have hlen : batchLength (c.take 16) = batchLength c := field_take (by omega)
  have hneg := int32_neg (field_lt c 8 4) hc
  rw [Segment.readBatchOffsetAndEpochAt, h.readAt_header (by omega)]
  simp only [hlen]
  rw [if_pos]
  rw [recordBatchOverhead, batchLength]
  omega

theorem Segment.Rep.scanEpochHistory_long {c : ByteString} {post : List ByteString}
    (h : s.Rep crc (c :: post)) (hc : ¬ batchLength c < 2 ^ 31) (last : Option Int32)
    (ss : List Segment) : scanEpochHistory last (s :: ss) =
      .error (.segment (.invalidBatchLength (int32 (batchLength c)) 0)) := by
  have hfirst : s.Rep crc ([] ++ c :: post) := h
  have hread : s.readBatchOffsetAndEpochAt 0 = _ := hfirst.readBatchOffsetAndEpochAt_long hc
  have hend := h.size_flatten
  have h61 := (h.stored c List.mem_cons_self).length_ge
  rw [List.flatten_cons, List.length_append] at hend
  rw [scanEpochHistory, scanEpochs, if_pos (by omega), hread]
  rfl

theorem lengths_of_scanEpochs {post : List ByteString} :
    ∀ (pre : List ByteString) (fuel : Nat) (last : Option Int32), s.Rep crc (pre ++ post) →
      post.length ≤ fuel → ∀ {r : List EpochEntry × Option Int32},
      scanEpochs s fuel pre.flatten.length last = .ok r → ∀ c ∈ post, batchLength c < 2 ^ 31 := by
  induction post with
  | nil => exact fun _ _ _ _ _ _ _ c hc => absurd hc List.not_mem_nil
  | cons c post ih =>
    intro pre fuel last h hfuel r hscan
    obtain ⟨fuel, rfl⟩ : ∃ k, fuel = k + 1 := ⟨fuel - 1, by rw [List.length_cons] at hfuel; omega⟩
    rw [List.length_cons] at hfuel
    have hend := h.end_le
    have h61 := (h.stored c (by simp)).length_ge
    have happ : pre ++ c :: post = (pre ++ [c]) ++ post := by simp
    rw [scanEpochs, if_pos (by omega)] at hscan
    by_cases hc : batchLength c < 2 ^ 31
    · rw [h.readBatchOffsetAndEpochAt hc] at hscan
      simp only at hscan
      rw [if_neg (by omega), Segment.Rep.next_pos] at hscan
      split at hscan
      · cases hscan
      rename_i hrest
      exact List.forall_mem_cons.mpr ⟨hc, ih (pre ++ [c]) fuel _ (happ ▸ h) (by omega) hrest⟩
    · rw [h.readBatchOffsetAndEpochAt_long hc] at hscan
      cases hscan

/-- The scan ends only if every length is an `int32`. -/
theorem lengths_of_scanEpochHistory {ss : List Segment} : ∀ (last : Option Int32)
    {es : List EpochEntry}, (∀ s ∈ ss, s.Rep crc s.batches) → scanEpochHistory last ss = .ok es →
    ∀ s ∈ ss, ∀ c ∈ s.batches, batchLength c < 2 ^ 31 := by
  induction ss with
  | nil => exact fun _ _ _ _ s hs => absurd hs List.not_mem_nil
  | cons s ss ih =>
    intro last es hss hscan
    have hrep : s.Rep crc ([] ++ s.batches) := hss s List.mem_cons_self
    have hfuel : s.batches.length ≤ s.currentSize + 1 :=
      (Segment.Rep.length_le hrep).trans (Nat.le_succ _)
    rw [scanEpochHistory] at hscan
    split at hscan
    · cases hscan
    rename_i hfirst
    split at hscan
    · cases hscan
    rename_i hrest
    exact List.forall_mem_cons.mpr
      ⟨lengths_of_scanEpochs [] (s.currentSize + 1) last hrep hfuel hfirst,
        ih _ (fun x hx => hss x (List.mem_cons_of_mem _ hx)) hrest⟩

end Lengths

/-! ## Recovery over the checkpoint file -/

inductive RecoverError
  | read (e : CheckpointReadError)
  | log (e : LogError)
  | rewrite (e : CheckpointWriteError)
  deriving DecidableEq

/-- `RecoverEpochCache`: the cache, and the files afterwards. -/
def recoverEpochCacheFrom (segments : List Segment) (leo : Nat) (d : CheckpointFiles)
    (faults : CheckpointFaults) : Except RecoverError (EpochCache × CheckpointFiles) :=
  match d.read with
  | .error e => .error (.read e)
  | .ok loaded =>
    match replayEpochEntries [] loaded with
    | .error e => .error (.log (.epoch e))
    | .ok replayed =>
      let cache := replayed.truncateAfter leo
      let rewrite (cache : EpochCache) : Except RecoverError (EpochCache × CheckpointFiles) :=
        match d.write cache faults with
        | (.error e, _) => .error (.rewrite e)
        | (.ok (), d) => .ok (cache, d)
      if 0 < leo ∧ (loaded ≠ replayed ∨ cache = []) then
        match scanEpochHistory none segments with
        | .error e => .error (.log e)
        | .ok scanned =>
          match replayEpochEntries [] scanned with
          | .error e => .error (.log (.epoch e))
          | .ok cache => rewrite (cache.truncateAfter leo)
      else if loaded ≠ cache then rewrite cache
      else .ok (cache, d)

/-- Writing entries and writing their text succeed together, and the text reads
as the entries. -/
theorem write_refines {d : CheckpointFiles} {loaded cache file : EpochCache}
    (h : writeCheckpoint (some loaded) cache false = (.ok (), some file)) :
    ∃ d', d.write cache .none = (.ok (), d') ∧ d'.read = .ok file := by
  unfold writeCheckpoint at h
  split at h
  · cases h
  rename_i hcheck
  cases h
  have hw := EpochCache.checkpointCheck_writable.mp hcheck
  rcases CheckpointFiles.write_cases d cache .none with ⟨hrep, -⟩ | ⟨-, hfile, hok⟩
  · exact absurd ⟨hcheck, rfl, rfl, rfl, rfl, by decide⟩ hrep
  · exact ⟨_, Prod.ext (hok.mpr ⟨rfl, rfl⟩) rfl, CheckpointFiles.read_replaced hw hfile⟩

/-- Recovery over the file follows recovery over its entries. -/
theorem recoverEpochCacheFrom_refines {segments : List Segment} {leo : Nat} {d : CheckpointFiles}
    {loaded cache file : EpochCache} (hread : d.read = .ok loaded)
    (h : recoverEpochCache segments leo (some loaded) .none = .ok (cache, some file)) :
    ∃ d', recoverEpochCacheFrom segments leo d .none = .ok (cache, d') ∧ d'.read = .ok file := by
  obtain ⟨replayed, hreplay, hx⟩ := recoverEpochCache_inv h
  rw [Option.getD_some] at hreplay hx
  unfold recoverEpochCacheFrom
  rw [hread]
  simp only [hreplay]
  rcases hx with ⟨hscan, ⟨scanned, rebuilt, hscanned, hrebuilt, rfl⟩, hwrite⟩ |
    ⟨hscan, rfl, ⟨hne, hwrite⟩ | ⟨heq, hfile⟩⟩
  · obtain ⟨d', hd', hfile⟩ := write_refines (d := d) hwrite
    refine ⟨d', ?_, hfile⟩
    simp only [if_pos hscan, hscanned, hrebuilt, hd']
  · obtain ⟨d', hd', hfile⟩ := write_refines (d := d) hwrite
    refine ⟨d', ?_, hfile⟩
    simp only [if_neg hscan, if_pos hne, hd']
  · cases hfile
    refine ⟨d, ?_, hread⟩
    simp only [if_neg hscan, if_neg (not_not.mpr heq)]

/-! ## What is parsed has no negative epoch -/

theorem parseInt32_lt {s : List Char} {v : Int} (h : parseInt32 s = some v) : v < 2 ^ 31 := by
  obtain ⟨-, hv⟩ := Option.filter_eq_some_iff.mp h
  exact (of_decide_eq_true hv).2

theorem readEntries_nonneg {count : Int} : ∀ {n i : Nat} {text rest : List Char}
    {entries : List EpochEntry}, readEntries count n i text = .ok (entries, rest) →
    ∀ e ∈ entries, 0 ≤ e.epoch := by
  intro n
  induction n with
  | zero =>
    intro i text rest entries h
    cases h
    exact fun e he => absurd he List.not_mem_nil
  | succ n ih =>
    intro i text rest entries h
    unfold readEntries at h
    split at h
    · cases h
    · cases h
    split at h
    · split at h
      · cases h
      rename_i epoch hepoch
      split at h
      · cases h
      rename_i hneg
      split at h
      · cases h
      split at h
      · cases h
      split at h
      · cases h
      rename_i more _ hmore
      cases h
      refine List.forall_mem_cons.mpr ⟨?_, ih hmore⟩
      have hlt := parseInt32_lt hepoch
      rw [Int32.le_iff_toInt_le, Int32.toInt_ofInt_of_le (by omega) (by omega)]
      simpa using hneg
    · cases h

theorem parseCheckpoint_nonneg {text : List Char} {entries : List EpochEntry}
    (h : parseCheckpoint text = .ok entries) : ∀ e ∈ entries, 0 ≤ e.epoch := by
  unfold parseCheckpoint at h
  split at h
  · cases h
  · cases h
    exact fun e he => absurd he List.not_mem_nil
  split at h
  · cases h
  split at h
  · cases h
  · cases h
  split at h
  · cases h
  split at h
  · cases h
  split at h
  · cases h
  rename_i hentries
  split at h
  · cases h
  · cases h
    exact readEntries_nonneg hentries
  · cases h

theorem CheckpointFiles.read_nonneg {d : CheckpointFiles} {entries : List EpochEntry}
    (h : d.read = .ok entries) : ∀ e ∈ entries, 0 ≤ e.epoch := by
  unfold CheckpointFiles.read at h
  split at h
  · cases h
    exact fun e he => absurd he List.not_mem_nil
  · exact parseCheckpoint_nonneg h

/-! ## The history is rebuilt -/

/-- Entries that recovery does not keep: out of order, or all past the end. -/
def Useless (loaded : EpochCache) (leo : Nat) : Prop :=
  ¬ loaded.Increasing ∨ ∀ e ∈ loaded, leo < e.startOffset

/-- Such entries are repaired or truncated away, so the log is scanned. -/
theorem Useless.scanned {loaded replayed : EpochCache} {leo : Nat} (h : Useless loaded leo)
    (hreplay : replayEpochEntries [] loaded = .ok replayed) :
    loaded ≠ replayed ∨ replayed.truncateAfter leo = [] := by
  by_cases hsame : loaded = replayed
  · refine .inr ?_
    subst hsame
    have hwf := EpochCache.wf_replay EpochCache.wf_nil hreplay
    have hbeyond : ∀ e ∈ loaded, leo < e.startOffset :=
      h.resolve_left fun hn => hn hwf.increasing
    cases loaded with
    | nil => rfl
    | cons e es =>
      have := hbeyond e List.mem_cons_self
      exact List.takeWhile_cons_of_neg (by simpa using this)
  · exact .inl hsame

theorem recoverEpochCache_rebuilds {crc : Checksum} {ss : List Segment} {leo : Nat}
    (hss : ∀ s ∈ ss, s.Rep crc s.batches ∧ ∀ c ∈ s.batches, batchLength c < 2 ^ 31)
    (hord : (ss.flatMap (·.batches)).Pairwise fun c d => baseOffset c < baseOffset d)
    (hbelow : ∀ c ∈ ss.flatMap (·.batches), baseOffset c < leo)
    (hasc : Ascending (ss.flatMap (·.batches))) (hpos : 0 < leo) (hend : leo < 2 ^ 63)
    {loaded : EpochCache} (hnonneg : ∀ e ∈ loaded, 0 ≤ e.epoch) (huseless : Useless loaded leo) :
    recoverEpochCache ss leo (some loaded) .none =
      .ok (epochHistory (ss.flatMap (·.batches)),
        some (epochHistory (ss.flatMap (·.batches)))) := by
  obtain ⟨replayed, hreplay, -⟩ := EpochCache.replay_ok EpochCache.increasing_nil hnonneg
  have hw : EpochCache.Writable (epochHistory (ss.flatMap (·.batches))) :=
    writable_epochHistory hasc hord fun c hc => (hbelow c hc).trans hend
  have hkept : EpochCache.truncateAfter (epochHistory (ss.flatMap (·.batches))) leo =
      epochHistory (ss.flatMap (·.batches)) := by
    rw [EpochCache.truncateAfter, List.takeWhile_eq_self_iff]
    intro e he
    obtain ⟨c, hc, -, hstart⟩ := mem_epochHistory he
    rw [hstart]
    exact decide_eq_true (hbelow c hc).le
  unfold recoverEpochCache
  simp only [Option.getD_some, hreplay]
  rw [if_pos ⟨hpos, huseless.scanned hreplay⟩, scanEpochHistory_eq none hss, epochRuns_none hasc]
  simp only [hw.replay, hkept]
  rw [writeCheckpoint, EpochCache.checkpointCheck_writable.mpr hw]
  rfl

/-- With such entries, a recovery without error has scanned the log. -/
theorem scanned_of_recover {ss : List Segment} {leo : Nat} (hpos : 0 < leo) {d : CheckpointFiles}
    {loaded : EpochCache} (hread : d.read = .ok loaded) (huseless : Useless loaded leo)
    {x : EpochCache × CheckpointFiles} (h : recoverEpochCacheFrom ss leo d .none = .ok x) :
    ∃ es, scanEpochHistory none ss = .ok es := by
  unfold recoverEpochCacheFrom at h
  rw [hread] at h
  simp only at h
  split at h
  · cases h
  rename_i replayed hreplay
  rw [if_pos ⟨hpos, huseless.scanned hreplay⟩] at h
  split at h
  · cases h
  · exact ⟨_, ‹_›⟩

theorem recoverEpochCacheFrom_of_scan {ss : List Segment} {leo : Nat} (hpos : 0 < leo)
    {d : CheckpointFiles} (hread : d.read = .ok []) {e : LogError}
    (hscan : scanEpochHistory none ss = .error e) :
    recoverEpochCacheFrom ss leo d .none = .error (.log e) := by
  unfold recoverEpochCacheFrom
  rw [hread]
  simp only [replayEpochEntries]
  rw [if_pos ⟨hpos, .inr rfl⟩, hscan]

/-- An absent or empty file reads as no entries. -/
theorem CheckpointFiles.useless_of_empty {d : CheckpointFiles} {leo : Nat}
    (hd : d.file = none ∨ d.file = some [] ∨
      ∃ loaded, d.read = .ok loaded ∧ Useless loaded leo) :
    ∃ loaded, d.read = .ok loaded ∧ Useless loaded leo := by
  rcases hd with hd | hd | hd
  · exact ⟨[], by rw [CheckpointFiles.read, hd], .inr fun e he => absurd he List.not_mem_nil⟩
  · refine ⟨[], ?_, .inr fun e he => absurd he List.not_mem_nil⟩
    rw [CheckpointFiles.read, hd]
    rfl
  · exact hd

/-- Whatever made the checkpoint useless, recovery ends with the history that the
batches tell, in the cache and in the file, exactly when every length field fits an
`int32`. The raw appends check that; the internal append does not. -/
theorem epoch_history_rebuilt_iff (crc : Checksum) (l : Log) (hl : l.Apart crc)
    (hpos : 0 < l.nextOffset) (hend : l.nextOffset < 2 ^ 63) (hasc : Ascending l.batches)
    (d : CheckpointFiles) (hd : d.file = none ∨ d.file = some [] ∨
      ∃ loaded, d.read = .ok loaded ∧ Useless loaded l.nextOffset) :
    (∃ d', recoverEpochCacheFrom l.segments l.nextOffset d .none =
        .ok (epochHistory l.batches, d') ∧ d'.read = .ok (epochHistory l.batches)) ↔
      ∀ c ∈ l.batches, batchLength c < 2 ^ 31 := by
  obtain ⟨loaded, hread, huseless⟩ := CheckpointFiles.useless_of_empty hd
  constructor
  · rintro ⟨d', hrecover, -⟩ c hc
    obtain ⟨es, hscan⟩ := scanned_of_recover hpos hread huseless hrecover
    rw [← Log.flatMap_segments] at hc
    obtain ⟨s, hs, hcs⟩ := List.mem_flatMap.mp hc
    exact lengths_of_scanEpochHistory none (fun t ht => Log.segment_rep hl.pair ht) hscan s hs c hcs
  · intro hlengths
    have hss : ∀ s ∈ l.segments, s.Rep crc s.batches ∧ ∀ c ∈ s.batches, batchLength c < 2 ^ 31 :=
      fun s hs => ⟨Log.segment_rep hl.pair hs,
        fun c hc => hlengths c (Log.mem_batches_of_segment hs hc)⟩
    have hord : l.batches.Pairwise fun c d => baseOffset c < baseOffset d :=
      hl.pairwise.imp_of_mem fun hc _ hle => (hl.base_lt hc).trans_le hle
    have hbelow : ∀ c ∈ l.batches, baseOffset c < l.nextOffset := fun c hc =>
      (hl.base_lt hc).trans_le (hl.endOffset_le hc)
    rw [← Log.flatMap_segments] at hord hbelow hasc
    have hrecover := recoverEpochCache_rebuilds hss hord hbelow hasc hpos hend
      (CheckpointFiles.read_nonneg hread) huseless
    rw [Log.flatMap_segments] at hrecover
    exact recoverEpochCacheFrom_refines hread hrecover

/-! ## A log of two segments under two epochs -/

namespace Log

/-- The rejected truncation leaves a gap between the segments. -/
def twoEpochRun : List (Call × Faults) :=
  [(.appendRaw (sampleRequest 3) 1, .none), (.appendRaw (sampleRequest 1) 2, .none),
    (.truncateTo 2, .none)]

def twoEpochLog : Log := Runs.final (Log.exec crc32c) (fresh tightConfig) twoEpochRun

theorem twoEpochLog_apart : twoEpochLog.Apart crc32c :=
  run_apart (newLog_nil crc32c tightConfig .none) twoEpochRun
    ⟨⟨Faults.none_harmless, trivial⟩, ⟨Faults.none_harmless, trivial⟩,
      ⟨Faults.none_harmless, trivial⟩, trivial⟩

end Log

/-- The checkpoint lists the epochs in the wrong order; the second starts with the
second segment. -/
theorem epoch_history_rebuilt_twoEpochLog :
    ∃ d', recoverEpochCacheFrom Log.twoEpochLog.segments 4 ⟨some "0\n2\n2 0\n1 5\n".toList, none⟩
        .none = .ok ([⟨1, 0⟩, ⟨2, 3⟩], d') ∧
      d'.read = .ok [⟨1, 0⟩, ⟨2, 3⟩] := by
  have hnext : Log.twoEpochLog.nextOffset = 4 := by decide +kernel
  have hhistory : epochHistory Log.twoEpochLog.batches = [⟨1, 0⟩, ⟨2, 3⟩] := by decide +kernel
  have hread : CheckpointFiles.read ⟨some "0\n2\n2 0\n1 5\n".toList, none⟩ =
      .ok [⟨2, 0⟩, ⟨1, 5⟩] := by decide +kernel
  have h := (epoch_history_rebuilt_iff crc32c Log.twoEpochLog Log.twoEpochLog_apart
    (by decide +kernel) (by decide +kernel) ⟨by decide +kernel, by decide +kernel⟩
    ⟨some "0\n2\n2 0\n1 5\n".toList, none⟩
    (.inr (.inr ⟨_, hread, .inl (by unfold EpochCache.Increasing; decide)⟩))).mpr
      (by decide +kernel)
  rwa [hnext, hhistory] at h

/-! ## A batch of 2 GiB -/

/-- The internal append stores a batch whose length field is `2^31`; the recovery of the
epochs then fails. -/
theorem epoch_history_unreadable :
    ∃ (value : ByteString) (l : Log), value.length = 2 ^ 31 - 64 ∧
      (Log.fresh Log.wideConfig).append crc32c (singleBatch value) .none = (.ok 0, l) ∧
      l.nextOffset = 1 ∧ l.batches = [encodeBatch crc32c (singleBatch value) 0] ∧
      Ascending l.batches ∧ l.Apart crc32c ∧
      recoverEpochCacheFrom l.segments l.nextOffset ⟨none, none⟩ .none =
        .error (.log (.segment (.invalidBatchLength (-2147483648) 0))) := by
  obtain ⟨value, hlen⟩ : ∃ value : ByteString, value.length = 2 ^ 31 - 64 :=
    ⟨List.replicate (2 ^ 31 - 64) 0, List.length_replicate⟩
  have hsize : encodedBatchSize (singleBatch value) = 2 ^ 31 + 12 := by
    rw [encodedBatchSize_single (by rw [hlen]; decide) (by rw [hlen]; decide)]
    omega
  have happend := Log.append_single crc32c hsize (by decide)
  have hok := (Log.newLog_ok (Log.newLog_nil crc32c Log.wideConfig .none)).1
  have hfits : encodedBatchSize (singleBatch value) < 2 ^ 32 + 12 := by omega
  obtain ⟨r, l, he, hcase⟩ := hok.append hfits Faults.none_harmless
    (show 0 + 1 < 2 ^ 64 by decide)
  obtain ⟨rfl, rfl⟩ := Prod.mk.inj (happend.symm.trans he)
  obtain ⟨⟨e, hr⟩, -⟩ | ⟨hx, -⟩ := hcase
  · cases hr
  have hbatches : (Log.wideLog (encodeBatch crc32c (singleBatch value) 0) 1 (2 ^ 31 + 12)
      0).batches = [encodeBatch crc32c (singleBatch value) 0] := hx.batches
  have hepoch : partitionLeaderEpoch (encodeBatch crc32c (singleBatch value) 0) = 0 :=
    congrArg Int32.ofNat
      (field_encodeBatch crc32c (singleBatch value) 0 (k := 2) rfl (by decide))
  have hlong : batchLength (encodeBatch crc32c (singleBatch value) 0) = 2 ^ 31 := by
    have hdecl := declaredSize_encodeBatch crc32c (singleBatch value) 0
    rw [hsize, declaredSize] at hdecl
    omega
  have hapart := hx.ok.apart (hx.epochCache ▸ EpochCache.increasing_nil)
  refine ⟨value, _, hlen, happend, rfl, hbatches, ?_, hapart, ?_⟩
  · rw [hbatches]
    exact ⟨by simp [hepoch], by simp⟩
  · have hrep := (hapart.pair _ (List.mem_singleton.mpr rfl)).rep
    rw [show Segment.batches _ = _ from (List.append_nil _).symm.trans hbatches] at hrep
    have hscan := hrep.scanEpochHistory_long (by omega) none []
    rw [hlong, show int32 (2 ^ 31) = -2147483648 by decide] at hscan
    exact recoverEpochCacheFrom_of_scan Nat.one_pos rfl hscan

end MessageBroker.Storage
