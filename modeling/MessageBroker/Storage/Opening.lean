import MessageBroker.Storage.Epochs
import MessageBroker.Storage.Reopening

/-!
# When a directory of segment files can be opened

`NewLog` opens the files one after the other and then recovers the epoch cache.
Opening a file of batches fails only if the index rebuilt for it does not fit;
the epoch cache can be recovered if the checkpoint is one that was written and
the batch headers can be read. Neither step looks at how the files follow each
other, so the statements are about any list of segments.
-/
namespace MessageBroker.Storage

open Lib.Bytes Lib.Tiling

/-! ## Opening the segment files -/

/-- The index that is rebuilt for these batches has room for its entries. -/
def LogConfig.Fits (config : LogConfig) (cs : List ByteString) : Prop :=
  (indexEntrySize * entriesNeeded config.indexIntervalBytes true 0 cs : Nat) ≤
    config.maxIndexBytes.toInt

instance (config : LogConfig) (cs : List ByteString) : Decidable (config.Fits cs) :=
  inferInstanceAs (Decidable (_ ≤ _))

/-- The segment as it is opened under another size limit. -/
def Segment.resized (maxSize : Int64) (s : Segment) : Segment := { s with maxSize := maxSize }

section Files

variable {crc : Checksum} {config : LogConfig}

theorem Segment.Rep.resized {s : Segment} {cs : List ByteString} (h : s.Rep crc cs)
    (maxSize : Int64) : (s.resized maxSize).Rep crc cs :=
  ⟨h.file_eq, h.size_eq, h.stored, h.tiles, h.next_lt⟩

theorem newSegmentPair_segment {s : Segment} {cs : List ByteString} (h : s.Rep crc cs)
    {p : SegmentPair} (hp : newSegmentPair crc config s.file s.baseOffset = .ok p) :
    p.segment = s.resized config.maxSegmentBytes := by
  unfold newSegmentPair at hp
  rw [newSegment_rep h] at hp
  simp only at hp
  split at hp
  · cases hp
  · cases hp
    rfl

theorem newSegmentPair_iff {s : Segment} {cs : List ByteString} (h : s.Rep crc cs)
    (hpos : 0 ≤ config.maxIndexBytes.toInt) :
    (∃ p, newSegmentPair crc config s.file s.baseOffset = .ok p) ↔ config.Fits cs := by
  have hidx : (⟨[], s.baseOffset, config.maxIndexBytes⟩ : Index).baseOffset =
      (s.resized config.maxSegmentBytes).baseOffset := rfl
  obtain ⟨-, -, hiff⟩ := rebuildIndexFromSegment_points (h.resized config.maxSegmentBytes) hidx
    config.indexIntervalBytes
  unfold newSegmentPair
  rw [newSegment_rep h]
  simp only
  constructor
  · rintro ⟨p, hp⟩
    split at hp
    · cases hp
    · rename_i bytes idx hrb
      refine hiff.mpr ⟨hpos, bytes, ?_⟩
      rw [Segment.resized, hrb]
  · intro hfit
    obtain ⟨-, n, hn⟩ := hiff.mp hfit
    cases hrb : rebuildIndexFromSegment { s with maxSize := config.maxSegmentBytes }
        ⟨[], s.baseOffset, config.maxIndexBytes⟩ config.indexIntervalBytes with
    | mk r idx =>
      rw [Segment.resized, hrb] at hn
      subst hn
      exact ⟨_, rfl⟩

/-- Each file is opened by itself. -/
theorem openPairs_forall₂ {files : List (Nat × ByteString)} {ps : List SegmentPair}
    (h : openPairs crc config files = .ok ps) :
    List.Forall₂ (fun f p => newSegmentPair crc config f.2 f.1 = .ok p) files ps := by
  induction files generalizing ps with
  | nil =>
    cases h
    exact .nil
  | cons f files ih =>
    rw [openPairs] at h
    split at h
    · cases h
    rename_i p hp
    split at h
    · cases h
    rename_i more hmore
    cases h
    exact .cons hp (ih hmore)

theorem openPairs_segments {ss : List Segment} {ps : List SegmentPair}
    (hss : ∀ s ∈ ss, s.Rep crc s.batches)
    (h : openPairs crc config (ss.map Segment.fileEntry) = .ok ps) :
    ps.map (·.segment) = ss.map (Segment.resized config.maxSegmentBytes) := by
  have hall := List.forall₂_map_left_iff.mp (openPairs_forall₂ h)
  clear h
  induction hall with
  | nil => rfl
  | cons hp _ ih =>
    rw [List.map_cons, List.map_cons, newSegmentPair_segment (hss _ List.mem_cons_self) hp,
      ih fun x hx => hss x (List.mem_cons_of_mem _ hx)]

/-- The files can be opened exactly if every rebuilt index fits. -/
theorem openPairs_iff {ss : List Segment} (hss : ∀ s ∈ ss, s.Rep crc s.batches)
    (hpos : 0 ≤ config.maxIndexBytes.toInt) :
    (∃ ps, openPairs crc config (ss.map Segment.fileEntry) = .ok ps) ↔
      ∀ s ∈ ss, config.Fits s.batches := by
  induction ss with
  | nil => exact ⟨fun _ s hs => absurd hs List.not_mem_nil, fun _ => ⟨[], rfl⟩⟩
  | cons s ss ih =>
    have ih := ih fun x hx => hss x (List.mem_cons_of_mem _ hx)
    rw [List.forall_mem_cons, ← newSegmentPair_iff (hss s List.mem_cons_self) hpos, ← ih]
    simp only [List.map_cons, Segment.fileEntry, openPairs]
    constructor
    · rintro ⟨ps, h⟩
      split at h
      · cases h
      rename_i p hp
      split at h
      · cases h
      rename_i more hmore
      exact ⟨⟨p, hp⟩, more, hmore⟩
    · rintro ⟨⟨p, hp⟩, more, hmore⟩
      exact ⟨p :: more, by rw [hp]; simp only [hmore]⟩

end Files

/-! ## Recovering the epochs -/

namespace EpochCache

/-- Entries that the checkpoint file can hold. -/
structure Writable (c : EpochCache) : Prop where
  increasing : c.Increasing
  nonneg : ∀ e ∈ c, 0 ≤ e.epoch
  small : ∀ e ∈ c, e.startOffset < 2 ^ 63

theorem Writable.nil : Writable [] :=
  ⟨increasing_nil, fun _ he => absurd he List.not_mem_nil, fun _ he => absurd he List.not_mem_nil⟩

theorem Writable.takeWhile {c : EpochCache} (h : c.Writable) (p : EpochEntry → Bool) :
    Writable (c.takeWhile p) :=
  ⟨h.increasing.takeWhile p, fun e he => h.nonneg e (List.takeWhile_subset p he),
    fun e he => h.small e (List.takeWhile_subset p he)⟩

theorem increasing_cons {p e : EpochEntry} {es : EpochCache} (h : Increasing (e :: es))
    (he : p.epoch < e.epoch) (hs : p.startOffset < e.startOffset) :
    Increasing (p :: e :: es) := by
  refine List.pairwise_cons.mpr ⟨fun x hx => ?_, h⟩
  rcases List.mem_cons.mp hx with rfl | hx
  · exact ⟨he, hs⟩
  · obtain ⟨h1, h2⟩ := h.head_lt hx
    exact ⟨he.trans h1, hs.trans h2⟩

theorem checkpointCheck_iff {es : List EpochEntry} : ∀ {i : Nat} {prev : Option EpochEntry},
    checkpointCheck i prev es = .ok () ↔
      (∀ e ∈ es, 0 ≤ e.epoch ∧ e.startOffset < 2 ^ 63) ∧ Increasing (prev.toList ++ es) := by
  induction es with
  | nil =>
    intro i prev
    refine ⟨fun _ => ⟨fun e he => absurd he List.not_mem_nil, ?_⟩, fun _ => rfl⟩
    cases prev
    · exact increasing_nil
    · exact List.pairwise_singleton _ _
  | cons e es ih =>
    intro i prev
    unfold checkpointCheck
    rw [List.forall_mem_cons]
    by_cases hneg : e.epoch < 0
    · rw [if_pos hneg]
      exact ⟨fun h => (by cases h), fun h => absurd h.1.1.1 (not_le.mpr hneg)⟩
    rw [if_neg hneg]
    by_cases hbig : 2 ^ 63 - 1 < e.startOffset
    · rw [if_pos hbig]
      exact ⟨fun h => (by cases h), fun h => absurd h.1.1.2 (by omega)⟩
    rw [if_neg hbig]
    have hsmall : e.startOffset < 2 ^ 63 := by omega
    cases prev with
    | none =>
      simp only [ih]
      exact ⟨fun h => ⟨⟨⟨not_lt.mp hneg, hsmall⟩, h.1⟩, h.2⟩, fun h => ⟨h.1.2, h.2⟩⟩
    | some p =>
      simp only
      by_cases hep : e.epoch ≤ p.epoch
      · rw [if_pos hep]
        refine ⟨fun h => (by cases h), fun h => ?_⟩
        exact absurd (h.2.head_lt List.mem_cons_self).1 (not_lt.mpr hep)
      rw [if_neg hep]
      by_cases hst : e.startOffset ≤ p.startOffset
      · rw [if_pos hst]
        refine ⟨fun h => (by cases h), fun h => ?_⟩
        exact absurd (h.2.head_lt List.mem_cons_self).2 (not_lt.mpr hst)
      rw [if_neg hst, ih]
      constructor
      · intro h
        exact ⟨⟨⟨not_lt.mp hneg, hsmall⟩, h.1⟩,
          increasing_cons h.2 (not_le.mp hep) (not_le.mp hst)⟩
      · intro h
        exact ⟨h.1.2, h.2.tail⟩

theorem checkpointCheck_writable {c : EpochCache} :
    checkpointCheck 0 none c = .ok () ↔ c.Writable := by
  rw [checkpointCheck_iff]
  exact ⟨fun h => ⟨h.2, fun e he => (h.1 e he).1, fun e he => (h.1 e he).2⟩,
    fun h => ⟨fun e he => ⟨h.nonneg e he, h.small e he⟩, h.increasing⟩⟩

theorem assign_ok (c : EpochCache) {epoch : Int32} (h : 0 ≤ epoch) (startOffset : Nat) :
    ∃ r, c.assign epoch startOffset = .ok r := by
  unfold assign
  rw [if_neg (not_lt.mpr h)]
  split
  · exact ⟨_, rfl⟩
  · split
    · exact ⟨_, rfl⟩
    · split <;> exact ⟨_, rfl⟩

/-- Replaying any history succeeds and leaves an increasing part of it. -/
theorem replay_ok {es : List EpochEntry} : ∀ {acc : EpochCache}, acc.Increasing →
    (∀ e ∈ es, 0 ≤ e.epoch) →
    ∃ c, replayEpochEntries acc es = .ok c ∧ c.Increasing ∧ ∀ x ∈ c, x ∈ acc ∨ x ∈ es := by
  induction es with
  | nil => exact fun hacc _ => ⟨_, rfl, hacc, fun _ hx => .inl hx⟩
  | cons e es ih =>
    intro acc hacc hes
    obtain ⟨⟨changed, acc'⟩, ha⟩ := assign_ok acc (hes e List.mem_cons_self) e.startOffset
    obtain ⟨-, hinc, hcase⟩ := assign_cases hacc ha
    have hsub : ∀ x ∈ acc', x ∈ acc ∨ x = e := by
      intro x hx
      rcases hcase with ⟨rfl, -⟩ | ⟨-, -, hmem⟩
      · exact .inl hx
      · rcases (hmem x).mp hx with rfl | ⟨hx, -⟩
        · exact .inr rfl
        · exact .inl hx
    obtain ⟨c, hc, hcinc, hcsub⟩ := ih hinc fun x hx => hes x (List.mem_cons_of_mem _ hx)
    refine ⟨c, by rw [replayEpochEntries, ha]; exact hc, hcinc, fun x hx => ?_⟩
    rcases hcsub x hx with hx | hx
    · rcases hsub x hx with hx | rfl
      · exact .inl hx
      · exact .inr List.mem_cons_self
    · exact .inr (List.mem_cons_of_mem _ hx)

theorem Writable.wf {c : EpochCache} (h : c.Writable) : c.Wf := ⟨h.increasing, h.nonneg⟩

/-- An assignment at an offset that the checkpoint can hold leaves a history that
the checkpoint can hold. -/
theorem Wf.assign_writable {c c' : EpochCache} (h : c.Wf) {epoch : Int32}
    {startOffset : Nat} {changed : Bool} (hlt : startOffset < 2 ^ 63)
    (ha : c.assign epoch startOffset = .ok (changed, c')) : c'.Writable := by
  have hwf := h.assign ha
  refine ⟨hwf.increasing, hwf.nonneg, fun x hx => ?_⟩
  obtain ⟨-, -, ⟨rfl, last, hl, -, hs⟩ | ⟨-, -, hmem⟩⟩ := assign_cases h.increasing ha
  · have hlast := List.mem_of_getLast? hl
    have hle := (h.increasing.le_iff hx hlast).mp (h.increasing.le_last hl hx)
    omega
  · rcases (hmem x).mp hx with rfl | ⟨-, -, hs⟩
    · exact hlt
    · omega

theorem Writable.replay {c : EpochCache} (h : c.Writable) : replayEpochEntries [] c = .ok c := by
  have hwf : Wf ([] ++ c) := h.wf
  exact replay_append hwf

end EpochCache

/-- What recovery of the epochs needs of a batch: a length that fits an `int32`
and an offset that fits the checkpoint file. -/
structure Scannable (c : ByteString) : Prop where
  length_lt : batchLength c < 2 ^ 31
  base_lt : baseOffset c < 2 ^ 63

section Scan

variable {crc : Checksum} {s : Segment}

theorem Segment.Rep.readBatchOffsetAndEpochAt {pre post : List ByteString} {c : ByteString}
    (h : s.Rep crc (pre ++ c :: post)) (hc : batchLength c < 2 ^ 31) :
    s.readBatchOffsetAndEpochAt pre.flatten.length =
      .ok (Storage.baseOffset c, partitionLeaderEpoch c, c.length) := by
  have hst := h.stored c (by simp)
  have h61 := hst.length_ge
  have hsize := hst.size_eq
  have hlen : batchLength (c.take 16) = batchLength c := field_take (by omega)
  have hbase : Storage.baseOffset (c.take 16) = Storage.baseOffset c := field_take (by omega)
  have hepoch : partitionLeaderEpoch (c.take 16) = partitionLeaderEpoch c := by
    rw [partitionLeaderEpoch, partitionLeaderEpoch, field_take (by omega)]
  unfold declaredSize at hsize
  rw [Segment.readBatchOffsetAndEpochAt, h.readAt_header (by omega)]
  simp only [hlen, hbase, hepoch, declaredSize, hsize]
  rw [if_neg]
  rw [int32_of_lt hc, recordBatchOverhead]
  omega

/-- The entries of a scan over these batches, and the last epoch it has seen: a
batch with a new epoch that is not negative starts an entry. -/
def epochRuns : Option Int32 → List ByteString → List EpochEntry × Option Int32
  | last, [] => ([], last)
  | last, c :: cs =>
      if 0 ≤ partitionLeaderEpoch c ∧ last ≠ some (partitionLeaderEpoch c) then
        (⟨partitionLeaderEpoch c, baseOffset c⟩ ::
            (epochRuns (some (partitionLeaderEpoch c)) cs).1,
          (epochRuns (some (partitionLeaderEpoch c)) cs).2)
      else epochRuns last cs

theorem epochRuns_append (as bs : List ByteString) : ∀ last,
    epochRuns last (as ++ bs) = ((epochRuns last as).1 ++ (epochRuns (epochRuns last as).2 bs).1,
      (epochRuns (epochRuns last as).2 bs).2) := by
  induction as with
  | nil => exact fun _ => rfl
  | cons a as ih =>
    intro last
    rw [List.cons_append, epochRuns, epochRuns]
    split
    · rw [ih]
      rfl
    · exact ih last

/-- Each entry is the epoch and the offset of a batch. -/
theorem mem_epochRuns {cs : List ByteString} : ∀ {last : Option Int32} {e : EpochEntry},
    e ∈ (epochRuns last cs).1 → 0 ≤ e.epoch ∧ ∃ c ∈ cs, e.epoch = partitionLeaderEpoch c ∧
      e.startOffset = baseOffset c := by
  induction cs with
  | nil => exact fun he => absurd he List.not_mem_nil
  | cons c cs ih =>
    intro last e he
    rw [epochRuns] at he
    split at he
    · rename_i hstart
      rcases List.mem_cons.mp he with rfl | he
      · exact ⟨hstart.1, c, List.mem_cons_self, rfl, rfl⟩
      · obtain ⟨h0, x, hx, hex⟩ := ih he
        exact ⟨h0, x, List.mem_cons_of_mem _ hx, hex⟩
    · obtain ⟨h0, x, hx, hex⟩ := ih he
      exact ⟨h0, x, List.mem_cons_of_mem _ hx, hex⟩

theorem scanEpochs_eq {post : List ByteString} :
    ∀ (pre : List ByteString) (fuel : Nat) (last : Option Int32), s.Rep crc (pre ++ post) →
      (∀ c ∈ post, batchLength c < 2 ^ 31) → post.length ≤ fuel →
      scanEpochs s fuel pre.flatten.length last = .ok (epochRuns last post) := by
  induction post with
  | nil =>
    intro pre fuel last h _ _
    have hend : ¬ pre.flatten.length < s.currentSize := by
      rw [h.size_flatten, List.append_nil]
      omega
    cases fuel with
    | zero => rfl
    | succ fuel =>
      rw [scanEpochs, if_neg hend]
      rfl
  | cons c post ih =>
    intro pre fuel last h hpost hfuel
    obtain ⟨fuel, rfl⟩ : ∃ k, fuel = k + 1 := ⟨fuel - 1, by rw [List.length_cons] at hfuel; omega⟩
    rw [List.length_cons] at hfuel
    have hend := h.end_le
    have h61 := (h.stored c (by simp)).length_ge
    have happ : pre ++ c :: post = (pre ++ [c]) ++ post := by simp
    rw [scanEpochs, if_pos (by omega), h.readBatchOffsetAndEpochAt (hpost c List.mem_cons_self)]
    simp only
    rw [if_neg (by omega), Segment.Rep.next_pos, epochRuns,
      ih (pre ++ [c]) fuel _ (happ ▸ h) (fun x hx => hpost x (List.mem_cons_of_mem _ hx))
        (by omega)]
    by_cases hstart : 0 ≤ partitionLeaderEpoch c ∧ last ≠ some (partitionLeaderEpoch c)
    · simp only [hstart, decide_true, if_true, and_self, ne_eq, not_false_eq_true]
    · simp only [hstart, decide_false, Bool.false_eq_true, if_false]

/-- The scan sees the batches of the segments in order; a run of one epoch goes on
across the border of two segments. -/
theorem scanEpochHistory_eq {ss : List Segment} : ∀ (last : Option Int32),
    (∀ s ∈ ss, s.Rep crc s.batches ∧ ∀ c ∈ s.batches, batchLength c < 2 ^ 31) →
    scanEpochHistory last ss = .ok (epochRuns last (ss.flatMap (·.batches))).1 := by
  induction ss with
  | nil => exact fun _ _ => rfl
  | cons s ss ih =>
    intro last hss
    obtain ⟨hrep, hlen⟩ := hss s List.mem_cons_self
    have hrep' : s.Rep crc ([] ++ s.batches) := hrep
    have hfuel : s.batches.length ≤ s.currentSize + 1 :=
      (Segment.Rep.length_le hrep).trans (Nat.le_succ _)
    have heq : scanEpochs s (s.currentSize + 1) 0 last = .ok (epochRuns last s.batches) :=
      scanEpochs_eq [] (s.currentSize + 1) last hrep' hlen hfuel
    rw [scanEpochHistory, heq]
    simp only [ih _ fun x hx => hss x (List.mem_cons_of_mem _ hx)]
    rw [List.flatMap_cons, epochRuns_append]

theorem scanEpochHistory_ok {ss : List Segment} (last : Option Int32)
    (hss : ∀ s ∈ ss, s.Rep crc s.batches ∧ ∀ c ∈ s.batches, Scannable c) :
    ∃ es, scanEpochHistory last ss = .ok es ∧
      ∀ e ∈ es, 0 ≤ e.epoch ∧ e.startOffset < 2 ^ 63 := by
  refine ⟨_, scanEpochHistory_eq last fun s hs => ⟨(hss s hs).1, fun c hc =>
    ((hss s hs).2 c hc).length_lt⟩, fun e he => ?_⟩
  obtain ⟨h0, c, hc, -, hstart⟩ := mem_epochRuns he
  obtain ⟨s, hs, hc⟩ := List.mem_flatMap.mp hc
  exact ⟨h0, hstart ▸ ((hss s hs).2 c hc).base_lt⟩

end Scan

/-- With a checkpoint that was written and batches that can be read, the epochs
are recovered. -/
theorem recoverEpochCache_ok {crc : Checksum} {ss : List Segment} {checkpoint : Option EpochCache}
    {io : Faults} (hss : ∀ s ∈ ss, s.Rep crc s.batches ∧ ∀ c ∈ s.batches, Scannable c)
    (hck : ∀ c, checkpoint = some c → c.Writable) (hio : io.checkpointFails = false) (leo : Nat) :
    ∃ r, recoverEpochCache ss leo checkpoint io = .ok r := by
  have hwrite : ∀ c : EpochCache, c.Writable →
      writeCheckpoint checkpoint c io.checkpointFails = (.ok (), some c) := by
    intro c hc
    rw [writeCheckpoint, EpochCache.checkpointCheck_writable.mpr hc, hio]
    rfl
  have hloaded : (checkpoint.getD []).Writable := by
    cases hc : checkpoint with
    | none => exact EpochCache.Writable.nil
    | some c => exact hck c hc
  obtain ⟨es, hscan, hes⟩ := scanEpochHistory_ok none hss
  obtain ⟨scanned, hreplay, hinc, hsub⟩ :=
    EpochCache.replay_ok EpochCache.increasing_nil fun e he => (hes e he).1
  have hscanned : scanned.Writable := by
    refine ⟨hinc, fun e he => ?_, fun e he => ?_⟩ <;>
      rcases hsub e he with hnil | hmem
    · exact absurd hnil List.not_mem_nil
    · exact (hes e hmem).1
    · exact absurd hnil List.not_mem_nil
    · exact (hes e hmem).2
  unfold recoverEpochCache
  simp only [hloaded.replay, hscan, hreplay, EpochCache.truncateAfter,
    hwrite _ (hloaded.takeWhile _), hwrite _ (hscanned.takeWhile _)]
  split
  · exact ⟨_, rfl⟩
  · split <;> exact ⟨_, rfl⟩

/-- Whatever is in the checkpoint file after a write passed its checks. -/
theorem writeCheckpoint_writable {old : Option EpochCache} (hold : ∀ c, old = some c → c.Writable)
    (entries : EpochCache) (fault : Bool) :
    ∀ c, (writeCheckpoint old entries fault).2 = some c → c.Writable := by
  intro c hc
  unfold writeCheckpoint at hc
  split at hc
  · exact hold c hc
  · rename_i hcheck
    split at hc
    · exact hold c hc
    · cases hc
      exact EpochCache.checkpointCheck_writable.mp hcheck

theorem recoverEpochCache_writable {ss : List Segment} {leo : Nat} {checkpoint : Option EpochCache}
    {io : Faults} (hck : ∀ c, checkpoint = some c → c.Writable) {cache : EpochCache}
    {file : Option EpochCache} (h : recoverEpochCache ss leo checkpoint io = .ok (cache, file)) :
    ∀ c, file = some c → c.Writable := by
  have hafter := writeCheckpoint_writable hck cache io.checkpointFails
  obtain ⟨replayed, -, hx⟩ := recoverEpochCache_inv h
  rcases hx with ⟨-, -, hwrite⟩ | ⟨-, -, ⟨-, hwrite⟩ | ⟨-, rfl⟩⟩
  · rwa [hwrite] at hafter
  · rwa [hwrite] at hafter
  · exact hck

/-! ## Opening the log -/

theorem applyDefaults_indexBytes (config : LogConfig) :
    0 < (applyDefaults config).maxIndexBytes.toInt := by
  unfold applyDefaults
  simp only
  split
  · decide
  · rename_i h
    rw [Int64.le_iff_toInt_le] at h
    simpa using h

/-- The pairs of a log that was opened on some files are those opened for them. -/
theorem newLog_pairs {crc : Checksum} {config : LogConfig} {files : List (Nat × ByteString)}
    (hne : files ≠ []) {checkpoint : Option EpochCache} {io : Faults} {l : Log}
    (h : newLog crc config files checkpoint io = .ok l) :
    openPairs crc (applyDefaults config) files = .ok l.pairs ∧ l.strays = [] := by
  unfold newLog openActive at h
  simp only at h
  cases hopen : openPairs crc (applyDefaults config) files with
  | error e =>
    rw [hopen] at h
    cases h
  | ok ps =>
    have hps : ps ≠ [] := by
      rintro rfl
      exact hne (List.eq_nil_of_length_eq_zero (openPairs_forall₂ hopen).length_eq)
    rw [hopen] at h
    simp only [List.getLast?_eq_some_getLast hps] at h
    split at h
    · cases h
    · cases h
      exact ⟨congrArg Except.ok (List.dropLast_append_getLast hps).symm, rfl⟩

section NewLog

variable {crc : Checksum} {config : LogConfig} {ss : List Segment}
  {checkpoint : Option EpochCache} {io : Faults}

/-- What is opened are the segments of the files, in their order. -/
theorem newLog_segments (hss : ∀ s ∈ ss, s.Rep crc s.batches) (hne : ss ≠ []) {l : Log}
    (h : newLog crc config (ss.map Segment.fileEntry) checkpoint io = .ok l) :
    l.segments = ss.map (Segment.resized (applyDefaults config).maxSegmentBytes) ∧
      l.strays = [] := by
  obtain ⟨hopen, hstrays⟩ := newLog_pairs (by simpa using hne) h
  exact ⟨openPairs_segments hss hopen, hstrays⟩

/-- A directory of readable segment files can be opened exactly if every rebuilt
index fits. -/
theorem newLog_iff (hss : ∀ s ∈ ss, s.Rep crc s.batches ∧ ∀ c ∈ s.batches, Scannable c)
    (hne : ss ≠ []) (hck : ∀ c, checkpoint = some c → c.Writable)
    (hio : io.checkpointFails = false) :
    (∃ l, newLog crc config (ss.map Segment.fileEntry) checkpoint io = .ok l) ↔
      ∀ s ∈ ss, (applyDefaults config).Fits s.batches := by
  have hreps : ∀ s ∈ ss, s.Rep crc s.batches := fun s hs => (hss s hs).1
  rw [← openPairs_iff hreps (Int.le_of_lt (applyDefaults_indexBytes config))]
  unfold newLog openActive
  simp only
  constructor
  · rintro ⟨l, h⟩
    cases hopen : openPairs crc (applyDefaults config) (ss.map Segment.fileEntry) with
    | error e =>
      rw [hopen] at h
      cases h
    | ok ps => exact ⟨ps, rfl⟩
  · rintro ⟨ps, hopen⟩
    have hsegs := openPairs_segments hreps hopen
    have hps : ps ≠ [] := by
      rintro rfl
      exact hne (List.map_eq_nil_iff.mp hsegs.symm)
    have hread : ∀ s ∈ (ps.dropLast ++ [ps.getLast hps]).map (·.segment),
        s.Rep crc s.batches ∧ ∀ c ∈ s.batches, Scannable c := by
      rw [List.dropLast_append_getLast hps, hsegs]
      intro s hs
      obtain ⟨t, ht, rfl⟩ := List.mem_map.mp hs
      obtain ⟨hrep, hscan⟩ := hss t ht
      exact ⟨(hrep.resized _).self, by rwa [(hrep.resized _).batches_eq]⟩
    obtain ⟨r, hrec⟩ := recoverEpochCache_ok hread hck hio (ps.getLast hps).segment.nextOffset
    rw [hopen]
    simp only [List.getLast?_eq_some_getLast hps, hrec]
    exact ⟨_, rfl⟩

end NewLog

end MessageBroker.Storage
