import MessageBroker.Storage.Encoding
import MessageBroker.Storage.Indexing
import MessageBroker.Storage.Truncate

/-!
# How appends grow a log

`Log.Ok` is the representation invariant of a whole log: every segment holds
intact batches, every index points into its segment, and each segment starts
where the one before ends. `Extends` says what an append may do to it: some
batches more at the end, everything else as it was.
-/
namespace MessageBroker.Storage

open Lib.Bytes Lib.Tiling Lib

/-- Faults that leave the segment files as the log believes them to be. -/
structure Faults.Harmless (io : Faults) : Prop where
  write : io.writeFails = .none
  remove : ∀ base, io.removeFails base = false

theorem Faults.none_harmless : Faults.none.Harmless := ⟨rfl, fun _ => rfl⟩

structure SegmentPair.Ok (crc : Checksum) (p : SegmentPair) : Prop where
  rep : p.segment.Rep crc p.segment.batches
  points : p.index.Points p.segment.baseOffset p.segment.batches

/-- A pair is as it should be for any list its segment represents. -/
theorem SegmentPair.Ok.of_rep {crc : Checksum} {p : SegmentPair} {cs : List ByteString}
    (h : p.segment.Rep crc cs) (hp : p.index.Points p.segment.baseOffset cs) : p.Ok crc where
  rep := h.self
  points := by rwa [h.batches_eq]

/-- The pairs follow one another from offset `a` to offset `b`. -/
abbrev Connected (a b : Nat) (ps : List SegmentPair) : Prop :=
  Linked (fun p : SegmentPair => p.segment.baseOffset) (fun p => p.segment.nextOffset) a b ps

namespace Log

/-- The batches of a log, in order. -/
def batches (l : Log) : List ByteString := l.pairs.flatMap fun p => p.segment.batches

structure Ok (crc : Checksum) (l : Log) : Prop where
  pair : ∀ p ∈ l.pairs, p.Ok crc
  linked : Connected l.oldestOffset l.nextOffset l.pairs
  strays : l.strays = []

/-- The log's limits leave room for a batch, so that only non-empty segments
have been sealed. -/
structure Roomy (l : Log) : Prop where
  indexBytes : (indexEntrySize : Int) ≤ l.config.maxIndexBytes.toInt
  segmentBytes : 0 < l.config.maxSegmentBytes.toInt
  limits : ∀ p ∈ l.pairs, p.index.maxBytes = l.config.maxIndexBytes ∧
    p.segment.maxSize = l.config.maxSegmentBytes
  nonempty : ∀ p ∈ l.sealedPairs, p.segment.batches ≠ []

theorem active_mem (l : Log) : l.activePair ∈ l.pairs := by simp [pairs]

/-- The ends of a connected list of pairs are those of the log. -/
theorem ends_of {l : Log} {a b : Nat} (h : Connected a b l.pairs) :
    l.oldestOffset = a ∧ l.nextOffset = b := by
  constructor
  · unfold oldestOffset
    unfold pairs at h
    cases hs : l.sealedPairs with
    | nil =>
      rw [hs] at h
      exact h.1
    | cons p ps =>
      rw [hs] at h
      exact h.1
  · obtain ⟨m, -, -, -, hb⟩ := linked_append.mp h
    exact hb

theorem linked_of {l : Log} {a b : Nat} (h : Connected a b l.pairs) :
    Connected l.oldestOffset l.nextOffset l.pairs := by
  obtain ⟨ha, hb⟩ := ends_of h
  rwa [ha, hb]

theorem batches_eq_append (l : Log) : l.batches =
    l.sealedPairs.flatMap (fun p => p.segment.batches) ++ l.activePair.segment.batches := by
  simp [batches, pairs]

namespace Ok

variable {crc : Checksum} {l : Log}

theorem active (h : l.Ok crc) : l.activePair.Ok crc := h.pair _ l.active_mem

theorem next_lt (h : l.Ok crc) : l.nextOffset < 2 ^ 64 := h.active.rep.next_lt

/-- The batches of a log tile its offsets. -/
theorem tiles (h : l.Ok crc) : BatchTiles l.oldestOffset l.nextOffset l.batches :=
  h.linked.flatMap fun p hp => (h.pair p hp).rep.tiles

/-- No segment file exists yet at the end offset, or it is empty. -/
theorem fileAt_next (h : l.Ok crc) : l.fileAt l.nextOffset = [] := by
  unfold fileAt
  cases hf : l.pairs.reverse.find? (fun p => p.segment.baseOffset == l.nextOffset) with
  | none => rw [h.strays]; rfl
  | some p =>
    have hp : p ∈ l.pairs := List.mem_reverse.mp (List.mem_of_find?_eq_some hf)
    have hbase : p.segment.baseOffset = l.nextOffset := by
      simpa using List.find?_some hf
    have hmem := h.linked.mem hp
    have hrep := (h.pair p hp).rep
    have hnil := hrep.eq_nil_iff_next.mpr (by omega)
    show p.segment.file = []
    rw [hrep.file_eq, hnil]
    rfl

end Ok

end Log

/-! ## What an append may do -/

/-- The log `l'` is `l` with the batches `ds` at its end. -/
structure Log.Extends (crc : Checksum) (l l' : Log) (ds : List ByteString) : Prop where
  ok : l'.Ok crc
  batches : l'.batches = l.batches ++ ds
  oldest : l'.oldestOffset = l.oldestOffset
  config : l'.config = l.config
  epochCache : l'.epochCache = l.epochCache
  checkpoint : l'.checkpoint = l.checkpoint
  roomy : l.Roomy → l'.Roomy

namespace Log.Extends

variable {crc : Checksum} {l l' l'' : Log} {ds ds' : List ByteString}

theorem refl (h : l.Ok crc) : Log.Extends crc l l [] :=
  ⟨h, by simp, rfl, rfl, rfl, rfl, id⟩

theorem trans (h : Log.Extends crc l l' ds) (h' : Log.Extends crc l' l'' ds') :
    Log.Extends crc l l'' (ds ++ ds') where
  ok := h'.ok
  batches := by rw [h'.batches, h.batches, List.append_assoc]
  oldest := h'.oldest.trans h.oldest
  config := h'.config.trans h.config
  epochCache := h'.epochCache.trans h.epochCache
  checkpoint := h'.checkpoint.trans h.checkpoint
  roomy hr := h'.roomy (h.roomy hr)

theorem next_eq (hl : l.Ok crc) (h : Log.Extends crc l l' []) : l'.nextOffset = l.nextOffset := by
  have ht := hl.tiles
  have ht' := h.ok.tiles
  rw [h.batches, List.append_nil, h.oldest] at ht'
  exact tiles_end_unique ht' ht

end Log.Extends

/-- A pair in the active place that holds more batches. -/
theorem Log.Ok.withActive {crc : Checksum} {l : Log} (h : l.Ok crc) {p : SegmentPair}
    {ds : List ByteString} (hp : p.Ok crc)
    (hbase : p.segment.baseOffset = l.activePair.segment.baseOffset)
    (hbatches : p.segment.batches = l.activePair.segment.batches ++ ds)
    (hindex : p.index.maxBytes = l.activePair.index.maxBytes)
    (hsize : p.segment.maxSize = l.activePair.segment.maxSize) :
    Log.Extends crc l { l with activePair := p } ds where
  ok :=
    { pair := by
        intro q hq
        rcases List.mem_append.mp hq with hq | hq
        · exact h.pair q (List.mem_append_left _ hq)
        · rw [List.mem_singleton.mp hq]
          exact hp
      linked := by
        obtain ⟨m, hs, hm, -, -⟩ := linked_append.mp h.linked
        have hm' : p.segment.baseOffset = m := hbase.trans hm
        exact linked_of (linked_append.mpr ⟨m, hs, hm', hm' ▸ hp.rep.base_le_next, rfl⟩)
      strays := h.strays }
  batches := by
    rw [batches_eq_append, batches_eq_append, hbatches, List.append_assoc]
  oldest := by
    unfold oldestOffset
    cases hs : l.sealedPairs with
    | nil => simpa only [hs] using hbase
    | cons q qs => rfl
  config := rfl
  epochCache := rfl
  checkpoint := rfl
  roomy hr :=
    { indexBytes := hr.indexBytes
      segmentBytes := hr.segmentBytes
      limits := by
        intro q hq
        rcases List.mem_append.mp hq with hq | hq
        · exact hr.limits q (List.mem_append_left _ hq)
        · rw [List.mem_singleton.mp hq, hindex, hsize]
          exact hr.limits _ l.active_mem
      nonempty := hr.nonempty }

/-! ## Rolling -/

/-- The pair `newSegmentPair` makes for a new file. -/
def freshPair (config : LogConfig) (base : Nat) : SegmentPair :=
  ⟨⟨[], base, base, 0, config.maxSegmentBytes⟩, ⟨[], base, config.maxIndexBytes⟩, 0⟩

theorem newSegmentPair_nil (crc : Checksum) (config : LogConfig) (base : Nat) :
    newSegmentPair crc config [] base = .ok (freshPair config base) := by
  rfl

theorem newSegmentPair_newSegment {crc : Checksum} {config : LogConfig} {file : ByteString}
    {base : Nat} {p : SegmentPair} (h : newSegmentPair crc config file base = .ok p) :
    newSegment crc file base config.maxSegmentBytes = .ok p.segment := by
  unfold newSegmentPair at h
  split at h
  · cases h
  rename_i seg hseg
  split at h
  · cases h
  · cases h
    exact hseg

theorem freshPair_rep (crc : Checksum) (config : LogConfig) {base : Nat} (h : base < 2 ^ 64) :
    (freshPair config base).segment.Rep crc [] :=
  rep_empty crc h config.maxSegmentBytes

theorem freshPair_ok (crc : Checksum) (config : LogConfig) {base : Nat} (h : base < 2 ^ 64) :
    (freshPair config base).Ok crc :=
  .of_rep (freshPair_rep crc config h) (Index.Points.empty base config.maxIndexBytes)

/-- The log after a roll. -/
def Log.rolled (l : Log) : Log :=
  { l with
    sealedPairs := l.sealedPairs ++ [l.activePair]
    activePair := freshPair l.config l.nextOffset }

/-- A roll onto a file that is not there yet, or empty. -/
theorem Log.roll_fresh (crc : Checksum) {l : Log} (hfile : l.fileAt l.nextOffset = [])
    (hstrays : l.strays = []) (io : Faults) :
    l.roll crc io = if io.rollFails then (.error .rollFiles, l) else (.ok (), l.rolled) := by
  simp only [Log.roll, hfile, newSegmentPair_nil, hstrays, List.filter_nil, Log.rolled]

theorem Log.roll_cases {crc : Checksum} {l : Log} (h : l.Ok crc) (io : Faults) :
    (∃ e, l.roll crc io = (.error e, l)) ∨ l.roll crc io = (.ok (), l.rolled) := by
  rw [Log.roll_fresh crc h.fileAt_next h.strays]
  cases io.rollFails with
  | true => exact .inl ⟨_, rfl⟩
  | false => exact .inr rfl

/-- Sealing a segment that is not empty, or any segment if the limits do not
leave room anyway. -/
theorem Log.Ok.rolled {crc : Checksum} {l : Log} (h : l.Ok crc)
    (hne : l.Roomy → l.activePair.segment.batches ≠ []) : Log.Extends crc l l.rolled [] where
  ok :=
    { pair := by
        intro q hq
        rcases List.mem_append.mp hq with hq | hq
        · exact h.pair q hq
        · rw [List.mem_singleton.mp hq]
          exact freshPair_ok crc l.config h.next_lt
      linked := linked_of (linked_append.mpr ⟨_, h.linked, rfl, Nat.le_refl _, rfl⟩)
      strays := h.strays }
  batches := by
    rw [batches_eq_append, batches_eq_append]
    have hnil : l.rolled.activePair.segment.batches = [] :=
      (freshPair_rep crc l.config h.next_lt).batches_eq
    rw [hnil]
    simp [Log.rolled]
  oldest := by
    unfold oldestOffset Log.rolled
    cases l.sealedPairs <;> rfl
  config := rfl
  epochCache := rfl
  checkpoint := rfl
  roomy hr :=
    { indexBytes := hr.indexBytes
      segmentBytes := hr.segmentBytes
      limits := by
        intro q hq
        rcases List.mem_append.mp hq with hq | hq
        · exact hr.limits q hq
        · rw [List.mem_singleton.mp hq]
          exact ⟨rfl, rfl⟩
      nonempty := by
        intro q hq
        rcases List.mem_append.mp hq with hq | hq
        · exact hr.nonempty q hq
        · rw [List.mem_singleton.mp hq]
          exact hne hr }

/-- A full segment or index belongs to a segment with batches. -/
theorem Log.Ok.nonempty_of_full {crc : Checksum} {l : Log} (h : l.Ok crc)
    (hfull : (l.activePair.segment.isFull || l.activePair.index.isFull) = true) (hr : l.Roomy) :
    l.activePair.segment.batches ≠ [] := by
  obtain ⟨hmax, hsize⟩ := hr.limits _ l.active_mem
  have hroom := hr.indexBytes
  have hseg := hr.segmentBytes
  rcases Bool.or_eq_true_iff.mp hfull with hf | hf
  · unfold Segment.isFull at hf
    rw [hsize, decide_eq_true_iff] at hf
    intro hnil
    have := h.active.rep.eq_nil_iff.mp hnil
    omega
  · unfold Index.isFull Index.size at hf
    rw [hmax, decide_eq_true_iff] at hf
    cases hents : l.activePair.index.entries with
    | nil =>
      rw [hents, List.length_nil] at hf
      omega
    | cons e es =>
      obtain ⟨pre, c, post, hcs, -⟩ := h.active.points.entry e (by rw [hents]; simp)
      rw [hcs]
      simp

/-- A fresh index has room for an entry. -/
theorem Log.Roomy.rolled_index {l : Log} (h : l.Roomy) :
    l.rolled.activePair.index.isFull = false := by
  have := h.indexBytes
  have hsize : Index.size ⟨[], l.nextOffset, l.config.maxIndexBytes⟩ = 0 := rfl
  show Index.isFull ⟨[], l.nextOffset, l.config.maxIndexBytes⟩ = false
  rw [Index.isFull, hsize, decide_eq_false_iff_not]
  show ¬ l.config.maxIndexBytes.toInt < _
  omega

/-- The roll before an append: the log has the same batches, and its active index
has room for an entry. -/
theorem Log.rollIfFull_cases {crc : Checksum} {l : Log} (h : l.Ok crc) (io : Faults) :
    ∃ r l', l.rollIfFull crc io = (r, l') ∧ Log.Extends crc l l' [] ∧
      (r = .ok () → l.Roomy → l'.activePair.index.isFull = false) := by
  unfold Log.rollIfFull
  split
  · rename_i hfull
    rcases Log.roll_cases h io with ⟨e, he⟩ | he
    · exact ⟨_, l, he, .refl h, fun hr => by cases hr⟩
    · exact ⟨_, l.rolled, he, h.rolled (h.nonempty_of_full hfull), fun _ hr => hr.rolled_index⟩
  · rename_i hroom
    refine ⟨_, l, rfl, .refl h, fun _ _ => ?_⟩
    simp only [Bool.or_eq_true, not_or, Bool.not_eq_true] at hroom
    exact hroom.2

/-! ## Appending to the active segment -/

/-- The index entry after an append points into the longer segment. -/
theorem Log.noteAppend_cases {l : Log} {base : Nat} {cs : List ByteString}
    (hidx : l.activePair.index.Points base cs) (c : ByteString) (ds : List ByteString)
    (bytes : Nat) :
    ∃ r idx n, l.noteAppend (baseOffset c) cs.flatten.length bytes =
        (r, { l with activePair := ⟨l.activePair.segment, idx, n⟩ }) ∧
      idx.Points base (cs ++ c :: ds) ∧ idx.maxBytes = l.activePair.index.maxBytes ∧
      (l.activePair.index.isFull = false → r = .ok ()) := by
  unfold Log.noteAppend
  simp only
  split
  · cases hfull : l.activePair.index.isFull with
    | true =>
      have hw : l.activePair.index.write (baseOffset c) cs.flatten.length =
          (.error (.full l.activePair.index.size l.activePair.index.maxBytes),
            l.activePair.index) := by rw [Index.write, hfull]; rfl
      rw [hw]
      refine ⟨_, _, _, rfl, hidx.append _ fun _ hcap he => ?_, rfl, fun hroom => by cases hroom⟩
      unfold Index.isFull at hfull
      rw [Index.size, he, decide_eq_true_iff, List.length_nil] at hfull
      omega
    | false =>
      have hcap := Index.not_isFull hfull
      have hentry : ∀ e ∈ l.activePair.index.entries, ∃ pre x post,
          cs ++ c :: ds = pre ++ x :: post ∧ e.filePos = pre.flatten.length ∧
            e.relOffset = l.activePair.index.relative (baseOffset x) := by
        intro e he
        obtain ⟨pre, x, post, rfl, hpos⟩ := hidx.entry e he
        exact ⟨pre, x, post ++ c :: ds, by simp, hpos⟩
      have hfirst : l.activePair.index.entries = [] → cs = [] := by
        intro he
        by_contra hne
        exact hidx.covered hne (by push_cast at hcap; omega) he
      obtain ⟨idx, hw, hp, hmax, -⟩ :=
        Index.write_points hentry hidx.base_eq hidx.head hfirst hfull
      rw [hw]
      exact ⟨_, idx, _, rfl, hp, hmax, fun _ => rfl⟩
  · rename_i hskip
    refine ⟨_, _, _, rfl, hidx.append _ fun _ hcap => hidx.covered ?_ hcap, rfl, fun _ => rfl⟩
    rintro rfl
    exact hskip (.inl rfl)

/-- The active segment has taken the batches `ds`; the index follows. -/
theorem Log.Ok.noteAppend {crc : Checksum} {l : Log} (h : l.Ok crc) {s : Segment}
    {ds : List ByteString} (hne : ds ≠ []) (hrep : s.Rep crc (l.activePair.segment.batches ++ ds))
    (hbase : s.baseOffset = l.activePair.segment.baseOffset)
    (hsize : s.maxSize = l.activePair.segment.maxSize) (bytes : Nat) :
    ∃ r l', (l.withSegment s).noteAppend l.nextOffset l.activePair.segment.currentSize bytes =
        (r, l') ∧ Log.Extends crc l l' ds ∧ (l.activePair.index.isFull = false → r = .ok ()) := by
  obtain ⟨c, ds, rfl⟩ := List.exists_cons_of_ne_nil hne
  have hold := h.active
  have hstart : baseOffset c = l.nextOffset := by
    obtain ⟨m, hm, hc, -⟩ := tiles_append.mp (hbase ▸ hrep.tiles)
    rw [hc]
    exact tiles_end_unique hm hold.rep.tiles
  have hpos := hold.rep.size_flatten
  obtain ⟨r, idx, n, he, hp, hmax, hroom⟩ := Log.noteAppend_cases (l := l.withSegment s)
    hold.points c ds bytes
  rw [hstart, ← hpos] at he
  exact ⟨r, _, he, h.withActive (.of_rep hrep (hbase ▸ hp)) hbase hrep.batches_eq hmax hsize,
    hroom⟩

/-! ## The cached epochs -/

/-- What an assignment of epochs may change. -/
theorem Log.assignLoop_frame {es : List EpochEntry} : ∀ {l l' : Log}
    {r : Except EpochError Unit}, l.assignLoop es = (r, l') →
    ∃ cache dirty, l' = { l with
      epochCache := cache
      epochCheckpointDirty := dirty } := by
  induction es with
  | nil =>
    intro l l' r h
    cases h
    exact ⟨l.epochCache, l.epochCheckpointDirty, rfl⟩
  | cons e es ih =>
    intro l l' r h
    unfold Log.assignLoop at h
    cases ha : l.epochCache.assign e.epoch e.startOffset with
    | error err =>
      rw [ha] at h
      cases h
      exact ⟨l.epochCache, l.epochCheckpointDirty, rfl⟩
    | ok x =>
      rw [ha] at h
      obtain ⟨cache, dirty, rfl⟩ := ih h
      exact ⟨cache, dirty, rfl⟩

theorem Log.persistEpochCheckpoint_frame (l : Log) (io : Faults) :
    ∃ r file dirty, l.persistEpochCheckpoint io = (r, { l with
      checkpoint := file
      epochCheckpointDirty := dirty }) := by
  unfold Log.persistEpochCheckpoint
  split
  · exact ⟨_, l.checkpoint, l.epochCheckpointDirty, rfl⟩
  · cases writeCheckpoint l.checkpoint l.epochCache io.checkpointFails with
    | mk r file =>
      cases r with
      | error e => exact ⟨_, l.checkpoint, l.epochCheckpointDirty, rfl⟩
      | ok _ => exact ⟨_, file, false, rfl⟩

theorem Log.assignLeaderEpochs_frame (l : Log) (es : List EpochEntry) (io : Faults) :
    ∃ r cache file dirty, l.assignLeaderEpochs es io = (r, { l with
      epochCache := cache
      checkpoint := file
      epochCheckpointDirty := dirty }) := by
  unfold Log.assignLeaderEpochs
  cases ha : l.assignLoop es with
  | mk r l' =>
    obtain ⟨cache, dirty, rfl⟩ := Log.assignLoop_frame ha
    cases r with
    | error e => exact ⟨_, cache, l.checkpoint, dirty, rfl⟩
    | ok _ =>
      obtain ⟨r, file, dirty, hp⟩ := Log.persistEpochCheckpoint_frame
        { l with
          epochCache := cache
          epochCheckpointDirty := dirty } io
      exact ⟨r, cache, file, dirty, hp⟩

/-- The cached epochs are no part of a log's representation. -/
theorem Log.Ok.ofEpochs {crc : Checksum} {l : Log} (h : l.Ok crc) (cache : EpochCache)
    (file : Option EpochCache) (dirty : Bool) :
    Log.Ok crc { l with
      epochCache := cache
      checkpoint := file
      epochCheckpointDirty := dirty } :=
  ⟨h.pair, h.linked, h.strays⟩

theorem Log.Roomy.ofEpochs {l : Log} (h : l.Roomy) (cache : EpochCache)
    (file : Option EpochCache) (dirty : Bool) :
    Log.Roomy { l with
      epochCache := cache
      checkpoint := file
      epochCheckpointDirty := dirty } :=
  ⟨h.indexBytes, h.segmentBytes, h.limits, h.nonempty⟩

end MessageBroker.Storage
