import MessageBroker.Storage.Appends
import MessageBroker.Storage.Cutting

/-!
# How a call moves the end of a log

These facts ask for no well-formed log: they hold in whatever state failed
writes and removals have left it. An append that stays in the segment in use, or
starts a new segment on an empty file, moves the end offset by what it stores.
A truncation moves it to the given offset or leaves it. The start of the log
never moves.
-/
namespace MessageBroker.Storage

open Lib.Bytes Lib

namespace Log

/-- A new segment would start on an empty file, or the append needs none because
the segment in use is empty and has room. -/
def Clear (l : Log) : Prop :=
  l.fileAt l.nextOffset = [] ∨
    l.activePair.segment.currentSize = 0 ∧ l.activePair.segment.isFull = false ∧
      l.activePair.index.isFull = false

instance (l : Log) : Decidable l.Clear := inferInstanceAs (Decidable (_ ∨ _))

/-- Besides, a new index has room for an entry. -/
structure Orderly (l : Log) : Prop where
  clear : l.Clear
  indexBytes : (indexEntrySize : Int) ≤ l.config.maxIndexBytes.toInt

/-- Which epochs are cached does not matter for the files. -/
theorem Clear.ofEpochs {l : Log} (h : l.Clear) (cache : EpochCache) (file : Option EpochCache)
    (dirty : Bool) :
    Clear { l with
      epochCache := cache
      checkpoint := file
      epochCheckpointDirty := dirty } := h

/-! ## Rolling -/

/-- What a roll or an index entry leaves as it was. -/
structure SameEnds (l l' : Log) : Prop where
  oldest : l'.oldestOffset = l.oldestOffset
  next : l'.nextOffset = l.nextOffset
  config : l'.config = l.config

theorem SameEnds.refl (l : Log) : SameEnds l l := ⟨rfl, rfl, rfl⟩

/-- A roll onto an empty file fails without a trace, or the active segment is
fresh. -/
theorem roll_vacant (crc : Checksum) {l : Log} (hfile : l.fileAt l.nextOffset = [])
    (io : Faults) :
    io.rollFails = true ∧ (∃ e, l.roll crc io = (.error e, l)) ∨
    io.rollFails = false ∧ ∃ l', l.roll crc io = (.ok (), l') ∧ SameEnds l l' ∧
      l'.activePair = freshPair l.config l.nextOffset := by
  simp only [roll, hfile, newSegmentPair_nil]
  cases io.rollFails with
  | true => exact .inl ⟨rfl, _, rfl⟩
  | false =>
    refine .inr ⟨rfl, _, rfl, ⟨?_, rfl, rfl⟩, rfl⟩
    unfold oldestOffset
    cases l.sealedPairs <;> rfl

theorem fresh_index_room {config : LogConfig}
    (h : (indexEntrySize : Int) ≤ config.maxIndexBytes.toInt)
    (base : Nat) : (freshPair config base).index.isFull = false := by
  have hsize : (freshPair config base).index.size = 0 := rfl
  rw [Index.isFull, hsize, decide_eq_false_iff_not]
  show ¬ config.maxIndexBytes.toInt < _
  omega

/-- Whether the active segment or its index is full. -/
def full (l : Log) : Bool := l.activePair.segment.isFull || l.activePair.index.isFull

/-- The roll before an append. Afterwards a second roll is clear too, and needed
only by a segment that holds something. -/
theorem Clear.rollIfFull (crc : Checksum) {l : Log} (h : l.Clear) (io : Faults) :
    (l.full = true ∧ io.rollFails = true ∧ ∃ e, l.rollIfFull crc io = (.error e, l)) ∨
    ∃ l', l.rollIfFull crc io = (.ok (), l') ∧ SameEnds l l' ∧
      (l.full = false ∧ l' = l ∧ (0 < l.activePair.segment.currentSize →
          l.fileAt l.nextOffset = []) ∨
        l.full = true ∧ io.rollFails = false ∧
          l'.activePair = freshPair l.config l.nextOffset) := by
  unfold Log.rollIfFull
  rw [← full]
  cases hfull : l.full with
  | true =>
    have hfile : l.fileAt l.nextOffset = [] := by
      rcases h with hfile | ⟨-, hseg, hidx⟩
      · exact hfile
      · rw [full, hseg, hidx] at hfull
        cases hfull
    rw [if_pos rfl]
    rcases roll_vacant crc hfile io with ⟨hio, he⟩ | ⟨hio, l', he, hends, hpair⟩
    · exact .inl ⟨rfl, hio, he⟩
    · exact .inr ⟨l', he, hends, .inr ⟨rfl, hio, hpair⟩⟩
  | false =>
    rw [if_neg Bool.false_ne_true]
    refine .inr ⟨l, rfl, .refl l, .inl ⟨rfl, rfl, fun hpos => ?_⟩⟩
    rcases h with hfile | ⟨hzero, -⟩
    · exact hfile
    · omega

/-! ## Storing -/

theorem noteAppend_ends (l : Log) (offset pos bytes : Nat) :
    ∃ r l', l.noteAppend offset pos bytes = (r, l') ∧ SameEnds l l' ∧
      (l.activePair.index.isFull = false → r = .ok ()) := by
  -- only the index and the byte count of the active pair change
  have hends : ∀ (idx : Index) (n : Nat),
      SameEnds l { l with activePair := ⟨l.activePair.segment, idx, n⟩ } := by
    intro idx n
    refine ⟨?_, rfl, rfl⟩
    unfold oldestOffset
    cases l.sealedPairs <;> rfl
  unfold noteAppend Index.write
  simp only
  split
  · cases l.activePair.index.isFull with
    | true => exact ⟨_, _, rfl, hends _ _, fun hf => by cases hf⟩
    | false => exact ⟨_, _, rfl, hends _ _, fun _ => rfl⟩
  · exact ⟨_, _, rfl, hends _ _, fun _ => rfl⟩

theorem withSegment_oldest (l : Log) {s : Segment}
    (hbase : s.baseOffset = l.activePair.segment.baseOffset) :
    (l.withSegment s).oldestOffset = l.oldestOffset := by
  unfold oldestOffset withSegment
  cases l.sealedPairs with
  | nil => exact hbase
  | cons p ps => rfl

end Log

theorem offsetsOf_pos {ds : List ByteString} (h : ds ≠ []) : 0 < offsetsOf ds := by
  obtain ⟨c, cs, rfl⟩ := List.exists_cons_of_ne_nil h
  have hsum : offsetsOf (c :: cs) = lastOffsetDelta c + 1 + offsetsOf cs := rfl
  omega

/-- A raw append to a segment that is at the offset of the batches: an error that
moves nothing, or the segment ends after them. -/
theorem Segment.appendRawBatches_moves {crc : Checksum} {ds : List ByteString}
    (hds : ∀ c ∈ ds, Stored crc c) (hne : ds ≠ []) (s : Segment) (leaderEpoch : Int32)
    (assign : Bool) (fault : Option Nat)
    (hkeep : assign = false → ∃ last, BatchTiles s.nextOffset last ds) :
    (∃ e s', s.appendRawBatches ds.flatten (boundsFrom 0 ds) leaderEpoch assign fault =
        (.error e, s') ∧ s'.baseOffset = s.baseOffset ∧ s'.nextOffset = s.nextOffset ∧
      (e = .segmentFull → 0 < s.currentSize)) ∨
    ∃ s', s.appendRawBatches ds.flatten (boundsFrom 0 ds) leaderEpoch assign fault =
        (.ok (s.nextOffset, s.currentSize, offsetsOf ds), s') ∧ s'.baseOffset = s.baseOffset ∧
      s'.nextOffset = s.nextOffset + offsetsOf ds ∧ s'.nextOffset < 2 ^ 64 := by
  unfold Segment.appendRawBatches
  rw [assigned_eq hne hkeep]
  by_cases hfull : 0 < s.currentSize ∧ s.maxSize.toInt < s.currentSize + ds.flatten.length
  · exact .inl ⟨_, s, if_pos hfull, rfl, rfl, fun _ => hfull.1⟩
  rw [if_neg hfull]
  simp only
  cases hst : stampLoop leaderEpoch assign (boundsFrom 0 ds) ds.flatten s.nextOffset with
  | none => exact .inl ⟨_, s, rfl, rfl, rfl, fun he => by cases he⟩
  | some r =>
    obtain ⟨buf, last⟩ := r
    have hlast : last = s.nextOffset + offsetsOf ds ∧ last < 2 ^ 64 := by
      cases assign with
      | true =>
        obtain ⟨-, h2, h3⟩ := stampLoop_assign [] hds hst
        exact ⟨h2, h3 hne⟩
      | false =>
        obtain ⟨-, h2, h3⟩ := stampLoop_keep hst
        exact ⟨h2, h3 hne⟩
    obtain ⟨rfl, hlt⟩ := hlast
    cases fault with
    | some k => exact .inl ⟨_, _, rfl, rfl, rfl, fun he => by cases he⟩
    | none =>
      have htotal : s.nextOffset + offsetsOf ds - s.nextOffset = offsetsOf ds := by omega
      simp only [Segment.write, htotal]
      exact .inr ⟨_, rfl, rfl, Nat.mod_eq_of_lt hlt, by rw [Nat.mod_eq_of_lt hlt]; exact hlt⟩

namespace Log

/-- How an append that stores `n` offsets may end: it failed and the end is where
it was, or the end moved by `n`, and then only an index without room is an
error. -/
def Advances {α : Type} (l : Log) (n : Nat) (r : Except LogError α) (l' : Log) : Prop :=
  l'.oldestOffset = l.oldestOffset ∧
    ((∃ e, r = .error e) ∧ l'.nextOffset = l.nextOffset ∨
      l'.nextOffset = l.nextOffset + n ∧ l'.nextOffset < 2 ^ 64 ∧
        ((indexEntrySize : Int) ≤ l.config.maxIndexBytes.toInt → ∃ x, r = .ok x))

/-- The segment took the batches; the index entry decides about the result. -/
theorem advances_note {l l₁ : Log} (hends : SameEnds l l₁)
    (hroom : (indexEntrySize : Int) ≤ l.config.maxIndexBytes.toInt →
      l₁.activePair.index.isFull = false)
    {s : Segment} {n : Nat} (hbase : s.baseOffset = l₁.activePair.segment.baseOffset)
    (hnext : s.nextOffset = l₁.nextOffset + n) (hlt : s.nextOffset < 2 ^ 64)
    {α : Type} (x : α) (offset pos bytes : Nat) :
    ∃ r l', (match (l₁.withSegment s).noteAppend offset pos bytes with
        | (.error e, l) => ((.error e, l) : Except LogError α × Log)
        | (.ok (), l) => (.ok x, l)) = (r, l') ∧ l.Advances n r l' := by
  obtain ⟨r, l', hn, hsame, hok⟩ := noteAppend_ends (l₁.withSegment s) offset pos bytes
  have holdest : l'.oldestOffset = l.oldestOffset :=
    hsame.oldest.trans ((l₁.withSegment_oldest hbase).trans hends.oldest)
  have hmoved : l'.nextOffset = l.nextOffset + n := by
    rw [hsame.next, ← hends.next]
    exact hnext
  have hlt' : l'.nextOffset < 2 ^ 64 := by
    rw [hsame.next]
    exact hlt
  rw [hn]
  cases r with
  | error e =>
    refine ⟨_, l', rfl, holdest, .inr ⟨hmoved, hlt', fun hbytes => ?_⟩⟩
    cases hok (hroom hbytes)
  | ok _ => exact ⟨_, l', rfl, holdest, .inr ⟨hmoved, hlt', fun _ => ⟨x, rfl⟩⟩⟩

/-- An error of the segment moves nothing. -/
theorem advances_error {l l₁ : Log} (hends : SameEnds l l₁) {s : Segment}
    (hbase : s.baseOffset = l₁.activePair.segment.baseOffset)
    (hnext : s.nextOffset = l₁.nextOffset) {α : Type} (n : Nat) (e : LogError) :
    l.Advances n (.error e : Except LogError α) (l₁.withSegment s) :=
  ⟨(l₁.withSegment_oldest hbase).trans hends.oldest,
    .inl ⟨⟨e, rfl⟩, hnext.trans hends.next⟩⟩

theorem Clear.store {crc : Checksum} {l : Log} (h : l.Clear) {ds : List ByteString}
    (hds : ∀ c ∈ ds, Stored crc c) (hne : ds ≠ []) (leaderEpoch : Int32) (assign : Bool)
    (hkeep : assign = false → ∃ last, BatchTiles l.nextOffset last ds) (io : Faults) :
    ∃ r l', l.store crc ds.flatten (boundsFrom 0 ds) leaderEpoch assign io = (r, l') ∧
      l.Advances (offsetsOf ds) r l' := by
  unfold Log.store
  rcases h.rollIfFull crc io with ⟨-, -, e, he⟩ | ⟨l₁, he, hends, hcase⟩
  · rw [he]
    exact ⟨_, l, rfl, rfl, .inl ⟨⟨e, rfl⟩, rfl⟩⟩
  rw [he]
  have hroom : (indexEntrySize : Int) ≤ l.config.maxIndexBytes.toInt →
      l₁.activePair.index.isFull = false := by
    intro hbytes
    rcases hcase with ⟨hfull, rfl, -⟩ | ⟨-, -, hpair⟩
    · exact (Bool.or_eq_false_iff.mp hfull).2
    · rw [hpair]
      exact fresh_index_room hbytes _
  have hnext : l₁.activePair.segment.nextOffset = l.nextOffset := hends.next
  simp only
  rcases Segment.appendRawBatches_moves hds hne l₁.activePair.segment leaderEpoch assign
      io.writeFails (by rwa [hnext]) with ⟨e, s, hs, hbase, hsame, hpos⟩
      | ⟨s, hs, hbase, hmoved, hlt⟩
  · rw [hs]
    by_cases hfull : e = .segmentFull
    · -- the segment has batches, so it is the one the log had, and the next file is empty
      subst hfull
      have hpos := hpos rfl
      rcases hcase with ⟨-, rfl, hfile⟩ | ⟨-, -, hpair⟩
      · simp only
        rcases roll_vacant crc (hfile hpos) io with ⟨-, e, hroll⟩ | ⟨-, l₂, hroll, hends₂, hpair⟩
        · rw [hroll]
          exact ⟨_, l₁, rfl, rfl, .inl ⟨⟨e, rfl⟩, rfl⟩⟩
        · rw [hroll]
          have hnext₂ : l₂.activePair.segment.nextOffset = l₁.nextOffset := hends₂.next
          simp only
          rcases Segment.appendRawBatches_moves hds hne l₂.activePair.segment leaderEpoch assign
              io.writeFails (by rwa [hnext₂]) with
            ⟨e, s, hs, hbase, hsame, -⟩ | ⟨s, hs, hbase, hmoved, hlt⟩
          · rw [hs]
            exact ⟨_, _, rfl, advances_error hends₂ hbase hsame _ _⟩
          · rw [hs]
            exact advances_note hends₂ (fun hbytes => hpair ▸ fresh_index_room hbytes _) hbase
              hmoved hlt _ _ _ _
      · rw [hpair] at hpos
        exact absurd hpos (Nat.lt_irrefl 0)
    · cases e <;> first
        | exact absurd rfl hfull
        | exact ⟨_, _, rfl, advances_error hends hbase hsame _ _⟩
  · rw [hs]
    exact advances_note hends hroom hbase hmoved hlt _ _ _ _

/-! ## The raw appends -/

/-- What every raw append does to the ends of the log. -/
structure Grown {α : Type} (l : Log) (r : Except LogError α) (l' : Log) : Prop where
  oldest : l'.oldestOffset = l.oldestOffset
  next_le : l.nextOffset ≤ l'.nextOffset
  error_next : (indexEntrySize : Int) ≤ l.config.maxIndexBytes.toInt → (∃ e, r = .error e) →
    l'.nextOffset = l.nextOffset

theorem Grown.refl {α : Type} (l : Log) (r : Except LogError α) : l.Grown r l :=
  ⟨rfl, Nat.le_refl _, fun _ _ => rfl⟩

theorem Advances.grown {α β : Type} {l l' : Log} {n : Nat} {r : Except LogError α}
    (h : l.Advances n r l') (f : α → β) : l.Grown (r.map f) l' := by
  obtain ⟨holdest, ⟨-, hnext⟩ | ⟨hnext, -, hok⟩⟩ := h
  · exact ⟨holdest, hnext.ge, fun _ _ => hnext⟩
  · refine ⟨holdest, by omega, fun hbytes ⟨e, he⟩ => ?_⟩
    obtain ⟨x, rfl⟩ := hok hbytes
    cases he

theorem Clear.appendRaw (crc : Checksum) {l : Log} (h : l.Clear) (data : ByteString)
    (leaderEpoch : Int32) (io : Faults) :
    ∃ r l', l.appendRaw crc data leaderEpoch io = (r, l') ∧ l.Grown r l' := by
  rcases appendRaw_cases crc l data leaderEpoch io with ⟨e, he⟩ | ⟨ds, rfl, hne, hvalid, he⟩
  · exact ⟨_, l, he, .refl l _⟩
  obtain ⟨r, l', hs, hadv⟩ := h.store (fun c hc => (hvalid c hc).toStored) hne leaderEpoch true
    (fun hf => by cases hf) io
  rw [he, hs]
  have hgrown := hadv.grown fun x => (x.1, (x.2 - 1) % 2 ^ 32)
  cases r with
  | error e => exact ⟨_, l', rfl, hgrown⟩
  | ok x => exact ⟨_, l', rfl, hgrown⟩

theorem Clear.appendReplicaRaw (crc : Checksum) {l : Log} (h : l.Clear) (data : ByteString)
    (fetchEpoch : Int32) (io : Faults) :
    ∃ r l', l.appendReplicaRaw crc data fetchEpoch io = (r, l') ∧ l.Grown r l' := by
  rcases appendReplicaRaw_cases crc l data fetchEpoch io with ⟨r, he, -⟩ | ⟨acc, hacc, he⟩
  · exact ⟨r, l, he, .refl l r⟩
  obtain ⟨r₁, cache, file, dirty, hassign⟩ :=
    assignLeaderEpochs_frame l (epochStarts none acc) io
  rw [he, hassign]
  cases r₁ with
  | error e => exact ⟨_, _, rfl, ⟨rfl, Nat.le_refl _, fun _ _ => rfl⟩⟩
  | ok _ =>
    obtain ⟨r, l', hs, hadv⟩ := (h.ofEpochs cache file dirty).store hacc.stored.1 hacc.ne_nil 0
      false (fun _ => hacc.tiles) io
    have hgrown := hadv.grown fun x => x.2
    simp only [hs]
    cases r with
    | error e => exact ⟨_, l', rfl, ⟨hgrown.oldest, hgrown.next_le, hgrown.error_next⟩⟩
    | ok x => exact ⟨_, l', rfl, ⟨hgrown.oldest, hgrown.next_le, hgrown.error_next⟩⟩

end Log

/-! ## The internal append -/

theorem Segment.appendBatch_outcome (crc : Checksum) (s : Segment) {batch : Batch}
    (hne : batch.messages ≠ []) (fault : Option Nat) :
    s.maxSize.toInt < s.currentSize + encodedBatchSize batch ∧
      s.appendBatch crc batch fault = (.error .segmentFull, s) ∨
    s.currentSize + encodedBatchSize batch ≤ s.maxSize.toInt ∧
      ∃ r s', s.appendBatch crc batch fault = (r, s') ∧ s'.baseOffset = s.baseOffset ∧
        (fault ≠ none ∧ r = .error .write ∧ s'.nextOffset = s.nextOffset ∨
          fault = none ∧ r = .ok (s.currentSize, s.nextOffset) ∧
            s'.nextOffset = (s.nextOffset + batch.messages.length) % 2 ^ 64) := by
  unfold Segment.appendBatch
  rw [if_neg hne]
  by_cases hfull : s.maxSize.toInt < s.currentSize + encodedBatchSize batch
  · exact .inl ⟨hfull, if_pos hfull⟩
  · rw [if_neg hfull]
    refine .inr ⟨not_lt.mp hfull, ?_⟩
    cases fault with
    | some k => exact ⟨_, _, rfl, rfl, .inl ⟨by simp, rfl, rfl⟩⟩
    | none => exact ⟨_, _, rfl, rfl, .inr ⟨rfl, rfl, rfl⟩⟩

namespace Log

/-- A batch of this size goes to a new segment. -/
def RollsFor (l : Log) (size : Nat) : Prop :=
  l.full = true ∨ 0 < l.activePair.segment.currentSize ∧
    l.activePair.segment.maxSize.toInt < l.activePair.segment.currentSize + size

instance (l : Log) (size : Nat) : Decidable (l.RollsFor size) := inferInstanceAs (Decidable (_ ∨ _))

/-- `Append` stores the batch: it has messages, fits where it goes, and no file
operation on the way fails. -/
def Takes (l : Log) (batch : Batch) (io : Faults) : Prop :=
  batch.messages ≠ [] ∧ io.writeFails = none ∧
    if l.RollsFor (encodedBatchSize batch) then
      io.rollFails = false ∧ encodedBatchSize batch ≤ l.config.maxSegmentBytes.toInt
    else l.activePair.segment.currentSize + encodedBatchSize batch ≤
      l.activePair.segment.maxSize.toInt

instance (l : Log) (batch : Batch) (io : Faults) : Decidable (l.Takes batch io) :=
  inferInstanceAs (Decidable (_ ∧ _ ∧ ite _ _ _))

/-- How the active segment's answer to `batch` leaves the log. -/
def Settles (l : Log) (batch : Batch) (io : Faults) (r : Except LogError (Nat × Nat)) (l₂ : Log) :
    Prop :=
  l₂.oldestOffset = l.oldestOffset ∧
    (¬ l.Takes batch io ∧ (∃ e, r = .error e) ∧ l₂.nextOffset = l.nextOffset ∨
      l.Takes batch io ∧ (∃ pos, r = .ok (pos, l.nextOffset)) ∧
        l₂.nextOffset = (l.nextOffset + batch.messages.length) % 2 ^ 64 ∧
        ((indexEntrySize : Int) ≤ l.config.maxIndexBytes.toInt →
          l₂.activePair.index.isFull = false))

theorem settles_refused {l l₂ : Log} (hends : SameEnds l l₂) {batch : Batch} {io : Faults}
    (hnot : ¬ l.Takes batch io) (e : LogError) : l.Settles batch io (.error e) l₂ :=
  ⟨hends.oldest, .inl ⟨hnot, ⟨e, rfl⟩, hends.next⟩⟩

/-- A segment with room takes the batch unless the write fails. -/
theorem settles_fitting (crc : Checksum) {l l₁ : Log} (hends : SameEnds l l₁) {batch : Batch}
    {io : Faults} (hne : batch.messages ≠ [])
    (hfit : l₁.activePair.segment.currentSize + encodedBatchSize batch ≤
      l₁.activePair.segment.maxSize.toInt)
    (hroom : (indexEntrySize : Int) ≤ l.config.maxIndexBytes.toInt →
      l₁.activePair.index.isFull = false)
    (htakes : l.Takes batch io ↔ io.writeFails = none) :
    ∃ s, (l₁.activePair.segment.appendBatch crc batch io.writeFails = (.error .write, s) ∧
        l.Settles batch io (.error (.segment .write)) (l₁.withSegment s)) ∨
      ∃ x, l₁.activePair.segment.appendBatch crc batch io.writeFails = (.ok x, s) ∧
        l.Settles batch io (.ok x) (l₁.withSegment s) := by
  have hnext : l₁.activePair.segment.nextOffset = l.nextOffset := hends.next
  rcases Segment.appendBatch_outcome crc l₁.activePair.segment hne io.writeFails with
    ⟨hfull, -⟩ | ⟨-, r, s, hs, hbase, ⟨hfault, rfl, hsame⟩ | ⟨hfault, rfl, hmoved⟩⟩
  · omega
  · refine ⟨s, .inl ⟨hs, (l₁.withSegment_oldest hbase).trans hends.oldest, .inl ⟨?_, ⟨_, rfl⟩, ?_⟩⟩⟩
    · exact fun ht => hfault (htakes.mp ht)
    · exact hsame.trans hnext
  · refine ⟨s, .inr ⟨_, hs, (l₁.withSegment_oldest hbase).trans hends.oldest, .inr
      ⟨htakes.mpr hfault, ⟨_, by rw [hnext]⟩, ?_, hroom⟩⟩⟩
    rw [← hnext]
    exact hmoved

/-- A segment just started for a batch that rolls the log. -/
theorem settles_fresh (crc : Checksum) {l l₁ : Log} (hends : SameEnds l l₁) {batch : Batch}
    {io : Faults} (hne : batch.messages ≠ []) (hrolls : l.RollsFor (encodedBatchSize batch))
    (hio : io.rollFails = false) (hpair : l₁.activePair = freshPair l.config l.nextOffset) :
    (l₁.activePair.segment.appendBatch crc batch io.writeFails =
        (.error .segmentFull, l₁.activePair.segment) ∧ ¬ l.Takes batch io) ∨
      ∃ s, (l₁.activePair.segment.appendBatch crc batch io.writeFails = (.error .write, s) ∧
          l.Settles batch io (.error (.segment .write)) (l₁.withSegment s)) ∨
        ∃ x, l₁.activePair.segment.appendBatch crc batch io.writeFails = (.ok x, s) ∧
          l.Settles batch io (.ok x) (l₁.withSegment s) := by
  have hmax : l₁.activePair.segment.maxSize = l.config.maxSegmentBytes := by rw [hpair]; rfl
  have hzero : l₁.activePair.segment.currentSize = 0 := by rw [hpair]; rfl
  have htakes : l.Takes batch io ↔ io.writeFails = none ∧
      (encodedBatchSize batch : Int) ≤ l.config.maxSegmentBytes.toInt := by
    unfold Takes
    rw [if_pos hrolls]
    simp [hne, hio]
  rcases Segment.appendBatch_outcome crc l₁.activePair.segment hne io.writeFails with
    ⟨hfull, hs⟩ | ⟨hfit, -⟩
  · refine .inl ⟨hs, fun ht => ?_⟩
    rw [hmax, hzero] at hfull
    have := (htakes.mp ht).2
    omega
  · refine .inr (settles_fitting crc hends hne hfit
      (fun hbytes => hpair ▸ fresh_index_room hbytes _) ?_)
    rw [hmax, hzero] at hfit
    rw [htakes]
    exact and_iff_left (by omega)

/-- The second half of `Append`, after the roll if there was one. -/
theorem settles_appendBatchToActive (crc : Checksum) {l l₁ : Log} {batch : Batch} {io : Faults}
    (hne : batch.messages ≠ []) (hends : SameEnds l l₁)
    (hcase : l.full = false ∧ l₁ = l ∧ (0 < l.activePair.segment.currentSize →
        l.fileAt l.nextOffset = []) ∨
      l.full = true ∧ io.rollFails = false ∧
        l₁.activePair = freshPair l.config l.nextOffset) :
    ∃ r l₂, l₁.appendBatchToActive crc batch io = (r, l₂) ∧ l.Settles batch io r l₂ := by
  unfold Log.appendBatchToActive
  rcases hcase with ⟨hfull, rfl, hfile⟩ | ⟨hfull, hio, hpair⟩
  · rcases Segment.appendBatch_outcome crc l₁.activePair.segment hne io.writeFails with
      ⟨hbig, hs⟩ | ⟨hfit, -⟩
    · rw [hs]
      simp only
      by_cases hzero : l₁.activePair.segment.currentSize = 0
      · -- an empty segment is never given up: the batch is too large
        rw [if_pos hzero]
        refine ⟨_, l₁, rfl, settles_refused hends (fun ht => ?_) _⟩
        have hstays : ¬ l₁.RollsFor (encodedBatchSize batch) := by
          rintro (hr | ⟨hpos, -⟩)
          · rw [hfull] at hr
            cases hr
          · omega
        have hfits := ht.2.2
        rw [if_neg hstays] at hfits
        omega
      · rw [if_neg hzero]
        have hrolls : l₁.RollsFor (encodedBatchSize batch) := .inr ⟨by omega, hbig⟩
        rcases roll_vacant crc (hfile (by omega)) io with
          ⟨hio, e, hroll⟩ | ⟨hio, l₂, hroll, hends₂, hpair⟩
        · rw [hroll]
          refine ⟨_, l₁, rfl, settles_refused hends (fun ht => ?_) _⟩
          have hfits := ht.2.2
          rw [if_pos hrolls, hio] at hfits
          cases hfits.1
        · rw [hroll]
          simp only
          rcases settles_fresh crc hends₂ hne hrolls hio hpair with
            ⟨hs, hnot⟩ | ⟨s, ⟨hs, hset⟩ | ⟨x, hs, hset⟩⟩
          · rw [hs]
            exact ⟨_, _, rfl, settles_refused hends₂ hnot _⟩
          · rw [hs]
            exact ⟨_, _, rfl, hset⟩
          · rw [hs]
            exact ⟨_, _, rfl, hset⟩
    · have hstays : ¬ l₁.RollsFor (encodedBatchSize batch) := by
        rintro (hr | ⟨-, hbig⟩)
        · rw [hfull] at hr
          cases hr
        · omega
      have htakes : l₁.Takes batch io ↔ io.writeFails = none := by
        unfold Takes
        rw [if_neg hstays]
        simp [hne, hfit]
      rcases settles_fitting crc hends hne hfit
          (fun _ => (Bool.or_eq_false_iff.mp hfull).2) htakes with
        ⟨s, ⟨hs, hset⟩ | ⟨x, hs, hset⟩⟩
      · rw [hs]
        exact ⟨_, _, rfl, hset⟩
      · rw [hs]
        exact ⟨_, _, rfl, hset⟩
  · have hzero : l₁.activePair.segment.currentSize = 0 := by rw [hpair]; rfl
    rcases settles_fresh crc hends hne (.inl hfull) hio hpair with
      ⟨hs, hnot⟩ | ⟨s, ⟨hs, hset⟩ | ⟨x, hs, hset⟩⟩
    · rw [hs]
      simp only
      rw [if_pos hzero]
      exact ⟨_, _, rfl, settles_refused hends hnot _⟩
    · rw [hs]
      exact ⟨_, _, rfl, hset⟩
    · rw [hs]
      exact ⟨_, _, rfl, hset⟩

/-- `Append` stores the batch exactly if the log takes it, and then reports an
error only for an index without room. -/
theorem Clear.append (crc : Checksum) {l : Log} (h : l.Clear) (batch : Batch) (io : Faults) :
    ∃ r l', l.append crc batch io = (r, l') ∧
      (¬ l.Takes batch io ∧ (∃ e, r = .error e) ∧ l'.nextOffset = l.nextOffset ∨
        l.Takes batch io ∧
          l'.nextOffset = (l.nextOffset + batch.messages.length) % 2 ^ 64 ∧
          ((indexEntrySize : Int) ≤ l.config.maxIndexBytes.toInt → r = .ok l.nextOffset)) := by
  unfold Log.append
  rcases h.rollIfFull crc io with ⟨hfull, hio, e, he⟩ | ⟨l₁, he, hends, hcase⟩
  · rw [he]
    refine ⟨_, l, rfl, .inl ⟨fun ht => ?_, ⟨e, rfl⟩, rfl⟩⟩
    have hfits := ht.2.2
    rw [if_pos (show l.RollsFor _ from .inl hfull), hio] at hfits
    cases hfits.1
  rw [he]
  by_cases hne : batch.messages = []
  · have hs : l₁.activePair.segment.appendBatch crc batch io.writeFails =
        (.error .emptyBatch, l₁.activePair.segment) := by
      unfold Segment.appendBatch
      exact if_pos hne
    simp only [Log.appendBatchToActive, hs]
    exact ⟨_, _, rfl, .inl ⟨fun ht => ht.1 hne, ⟨_, rfl⟩, hends.next⟩⟩
  · obtain ⟨r, l₂, hr, -, ⟨hnot, ⟨e, rfl⟩, hnext⟩ | ⟨ht, ⟨pos, rfl⟩, hnext, hroom⟩⟩ :=
      settles_appendBatchToActive crc hne hends hcase
    · simp only [hr]
      exact ⟨_, l₂, rfl, .inl ⟨hnot, ⟨e, rfl⟩, hnext⟩⟩
    · obtain ⟨r, l', hn, hsame, hok⟩ :=
        noteAppend_ends l₂ l.nextOffset pos (encodedBatchSize batch)
      simp only [hr, hn]
      have hmoved := hsame.next.trans hnext
      cases r with
      | error e =>
        refine ⟨_, l', rfl, .inr ⟨ht, hmoved, fun hbytes => ?_⟩⟩
        cases hok (hroom hbytes)
      | ok _ => exact ⟨_, l', rfl, .inr ⟨ht, hmoved, fun _ => rfl⟩⟩

/-! ## Segment files that are already there -/

end Log

/-- The offsets of the intact batches from a position of a file on. -/
def intactLoop (crc : Checksum) (file : ByteString) : Nat → Nat → Nat
  | 0, _ => 0
  | fuel + 1, pos =>
      if pos < file.length then
        match intactBatchAt crc file pos with
        | .ok (some (size, lod)) => lod + 1 + intactLoop crc file fuel (pos + size)
        | _ => 0
      else 0

/-- The offsets that opening the file as a segment finds in it. -/
def intactOffsets (crc : Checksum) (file : ByteString) : Nat := intactLoop crc file file.length 0

theorem recoverLoop_intact {crc : Checksum} {file : ByteString} {pos' next' : Nat} :
    ∀ (fuel pos next : Nat), next + intactLoop crc file fuel pos < 2 ^ 64 →
      recoverLoop crc file fuel pos next = .ok (pos', next') →
      next' = next + intactLoop crc file fuel pos ∧
        (pos' ≠ pos → 0 < intactLoop crc file fuel pos) := by
  intro fuel
  induction fuel with
  | zero =>
    intro pos next hlt h
    cases h
    exact ⟨rfl, fun hne => absurd rfl hne⟩
  | succ fuel ih =>
    intro pos next hlt h
    unfold recoverLoop at h
    unfold intactLoop at hlt ⊢
    split at h
    · rename_i hpos
      rw [if_pos hpos] at hlt ⊢
      cases hb : intactBatchAt crc file pos with
      | error e =>
        rw [hb] at h
        cases h
      | ok b =>
        rw [hb] at h hlt
        cases b with
        | none =>
          cases h
          exact ⟨rfl, fun hne => absurd rfl hne⟩
        | some x =>
          obtain ⟨size, lod⟩ := x
          simp only at h hlt ⊢
          have hmod : (next + (lod + 1)) % 2 ^ 64 = next + (lod + 1) :=
            Nat.mod_eq_of_lt (by omega)
          rw [hmod] at h
          obtain ⟨hnext, -⟩ := ih _ _ (by omega) h
          exact ⟨by omega, fun _ => by omega⟩
    · rename_i hpos
      rw [if_neg hpos] at hlt ⊢
      cases h
      exact ⟨rfl, fun hne => absurd rfl hne⟩

/-- A segment opened on a file ends after the intact batches, if the offsets do
not overflow. -/
theorem newSegment_intact {crc : Checksum} {file : ByteString} {base : Nat} {maxSize : Int64}
    {s : Segment} (hlt : base + intactOffsets crc file < 2 ^ 64)
    (h : newSegment crc file base maxSize = .ok s) :
    s.baseOffset = base ∧ s.nextOffset = base + intactOffsets crc file ∧
      (0 < s.currentSize → 0 < intactOffsets crc file) := by
  unfold newSegment at h
  split at h
  · rename_i hzero
    cases h
    have : intactOffsets crc file = 0 := by
      rw [intactOffsets, hzero]
      rfl
    exact ⟨rfl, by simp [this], fun hpos => absurd hpos (Nat.lt_irrefl 0)⟩
  · cases hr : recoverLoop crc file file.length 0 base with
    | error e =>
      rw [hr] at h
      cases h
    | ok x =>
      obtain ⟨pos, next⟩ := x
      obtain ⟨hnext, hpos⟩ := recoverLoop_intact file.length 0 base hlt hr
      simp only [hr] at h
      split at h
      · cases h
      · cases h
        exact ⟨rfl, hnext, fun hp => hpos (Nat.pos_iff_ne_zero.mp hp)⟩

namespace Log

theorem fileAt_roll {l l' : Log} (hpairs : l'.pairs = l.pairs ++ [l'.activePair])
    (hbase : l'.activePair.segment.baseOffset = l.nextOffset)
    (hstrays : l'.strays = l.strays.filter fun f => f.1 != l.nextOffset) {base : Nat}
    (hne : base ≠ l.nextOffset) : l'.fileAt base = l.fileAt base := by
  have htest : (fun f : Nat × ByteString => decide ((f.1 != l.nextOffset) = true ∧
      (f.1 == base) = true)) = fun f => f.1 == base := by
    funext f
    by_cases hf : f.1 = base
    · simp [hf, hne]
    · simp [hf]
  unfold fileAt
  rw [hpairs, List.reverse_append, List.reverse_singleton, List.singleton_append,
    List.find?_cons_of_neg (by simpa [hbase] using Ne.symm hne), hstrays, List.find?_filter, htest]

/-- A roll onto whatever file is there: the end moves past its intact batches, and
the other files are as before. -/
theorem roll_intact (crc : Checksum) {l : Log}
    (hlt : l.nextOffset + intactOffsets crc (l.fileAt l.nextOffset) < 2 ^ 64) (io : Faults) :
    (∃ e, l.roll crc io = (.error e, l)) ∨
    ∃ l', l.roll crc io = (.ok (), l') ∧ l'.oldestOffset = l.oldestOffset ∧
      l'.nextOffset = l.nextOffset + intactOffsets crc (l.fileAt l.nextOffset) ∧
      (0 < l'.activePair.segment.currentSize → l'.nextOffset ≠ l.nextOffset) ∧
      ∀ base, base ≠ l.nextOffset → l'.fileAt base = l.fileAt base := by
  unfold roll
  simp only
  split
  · exact .inl ⟨_, rfl⟩
  cases hp : newSegmentPair crc l.config (l.fileAt l.nextOffset) l.nextOffset with
  | error e => exact .inl ⟨_, rfl⟩
  | ok p =>
    obtain ⟨hbase, hnext, hpos⟩ := newSegment_intact hlt (newSegmentPair_newSegment hp)
    refine .inr ⟨_, rfl, ?_, hnext, fun hp => ?_, fun base hne => ?_⟩
    · unfold oldestOffset
      cases l.sealedPairs <;> rfl
    · have := hpos hp
      show p.segment.nextOffset ≠ _
      omega
    · exact fileAt_roll (by simp [pairs]) hbase rfl hne

end Log

/-- A raw append to a segment that need not be at the offset of the batches. -/
theorem Segment.appendRawBatches_adds {crc : Checksum} {ds : List ByteString}
    (hds : ∀ c ∈ ds, Stored crc c) (hne : ds ≠ []) (s : Segment) (leaderEpoch : Int32)
    (assign : Bool) (fault : Option Nat) :
    ∃ r s', s.appendRawBatches ds.flatten (boundsFrom 0 ds) leaderEpoch assign fault = (r, s') ∧
      s'.baseOffset = s.baseOffset ∧
      ((∃ e, r = .error e ∧ (e = .segmentFull → 0 < s.currentSize)) ∧
          s'.nextOffset = s.nextOffset ∨
        (∃ x, r = .ok x) ∧ s'.nextOffset = (s.nextOffset + offsetsOf ds) % 2 ^ 64) := by
  obtain ⟨assigned, hassigned⟩ : ∃ a, (if assign then some s.nextOffset
      else (boundsFrom 0 ds).head?.map (·.baseOffset)) = some a := by
    cases assign with
    | true => exact ⟨_, rfl⟩
    | false =>
      obtain ⟨c, cs, rfl⟩ := List.exists_cons_of_ne_nil hne
      exact ⟨_, rfl⟩
  unfold Segment.appendRawBatches
  rw [hassigned]
  by_cases hfull : 0 < s.currentSize ∧ s.maxSize.toInt < s.currentSize + ds.flatten.length
  · exact ⟨_, s, if_pos hfull, rfl, .inl ⟨⟨_, rfl, fun _ => hfull.1⟩, rfl⟩⟩
  rw [if_neg hfull]
  simp only
  cases hst : stampLoop leaderEpoch assign (boundsFrom 0 ds) ds.flatten assigned with
  | none => exact ⟨_, s, rfl, rfl, .inl ⟨⟨_, rfl, fun he => by cases he⟩, rfl⟩⟩
  | some r =>
    obtain ⟨buf, last⟩ := r
    have hlast : last = assigned + offsetsOf ds := by
      cases assign with
      | true => exact (stampLoop_assign [] hds hst).2.1
      | false => exact (stampLoop_keep hst).2.1
    subst hlast
    cases fault with
    | some k => exact ⟨_, _, rfl, rfl, .inl ⟨⟨_, rfl, fun he => by cases he⟩, rfl⟩⟩
    | none =>
      have htotal : assigned + offsetsOf ds - assigned = offsetsOf ds := by omega
      simp only [Segment.write, htotal]
      exact ⟨_, _, rfl, rfl, .inr ⟨⟨_, rfl⟩, rfl⟩⟩

namespace Log

/-- No segment file holds more than `bound` offsets, and the end offset is so far
from the largest one that two files and `n` offsets more do not reach it. -/
def Headroom (crc : Checksum) (l : Log) (n : Nat) : Prop :=
  ∃ bound, (∀ base, intactOffsets crc (l.fileAt base) ≤ bound) ∧
    l.nextOffset + 2 * bound + n < 2 ^ 64

/-- What was stored and noted in the index keeps the start and the end. -/
theorem store_note {l : Log} {s : Segment}
    (hbase : s.baseOffset = l.activePair.segment.baseOffset) {α : Type} (x : α)
    (offset pos bytes : Nat) :
    ∃ r l', (match (l.withSegment s).noteAppend offset pos bytes with
        | (.error e, l) => ((.error e, l) : Except LogError α × Log)
        | (.ok (), l) => (.ok x, l)) = (r, l') ∧ l'.oldestOffset = l.oldestOffset ∧
      l'.nextOffset = s.nextOffset := by
  obtain ⟨r, l', hn, hsame, -⟩ := noteAppend_ends (l.withSegment s) offset pos bytes
  have holdest := hsame.oldest.trans (l.withSegment_oldest hbase)
  rw [hn]
  cases r with
  | error e => exact ⟨_, l', rfl, holdest, hsame.next⟩
  | ok _ => exact ⟨_, l', rfl, holdest, hsame.next⟩

/-- Storing with room for the offsets of files that are already there moves the
end forward only. -/
theorem Headroom.store {crc : Checksum} {l : Log} {ds : List ByteString}
    (h : l.Headroom crc (offsetsOf ds)) (hds : ∀ c ∈ ds, Stored crc c) (hne : ds ≠ [])
    (leaderEpoch : Int32) (assign : Bool) (io : Faults) :
    ∃ r l', l.store crc ds.flatten (boundsFrom 0 ds) leaderEpoch assign io = (r, l') ∧
      l'.oldestOffset = l.oldestOffset ∧ l.nextOffset ≤ l'.nextOffset := by
  obtain ⟨bound, hfiles, hsum⟩ := h
  have hfirst := hfiles l.nextOffset
  -- after the first roll, if there was one, a second one finds a file the log had
  have hrolled : (∃ e, l.rollIfFull crc io = (.error e, l)) ∨
      ∃ l₁, l.rollIfFull crc io = (.ok (), l₁) ∧ l₁.oldestOffset = l.oldestOffset ∧
        l.nextOffset ≤ l₁.nextOffset ∧ l₁.nextOffset ≤ l.nextOffset + bound ∧
        (0 < l₁.activePair.segment.currentSize →
          intactOffsets crc (l₁.fileAt l₁.nextOffset) ≤ bound) := by
    unfold Log.rollIfFull
    split
    · rcases roll_intact crc (l := l) (by omega) io with he | ⟨l₁, he, hold, hnext, hmoved, hkeep⟩
      · exact .inl he
      · refine .inr ⟨l₁, he, hold, by omega, by omega, fun hpos => ?_⟩
        rw [hkeep _ (hmoved hpos)]
        exact hfiles _
    · exact .inr ⟨l, rfl, rfl, Nat.le_refl _, by omega, fun _ => hfirst⟩
  unfold Log.store
  rcases hrolled with ⟨e, he⟩ | ⟨l₁, he, hold, hge, hle, hfile⟩
  · rw [he]
    exact ⟨_, l, rfl, rfl, Nat.le_refl _⟩
  rw [he]
  simp only
  have hend₁ : l₁.activePair.segment.nextOffset = l₁.nextOffset := rfl
  obtain ⟨r, s, hs, hbase, hcase⟩ := Segment.appendRawBatches_adds hds hne
    l₁.activePair.segment leaderEpoch assign io.writeFails
  rw [hs]
  rcases hcase with ⟨⟨e, rfl, hfull⟩, hsame⟩ | ⟨⟨x, rfl⟩, hadds⟩
  · by_cases hseg : e = .segmentFull
    · subst hseg
      simp only
      rcases roll_intact crc (l := l₁) (by have := hfile (hfull rfl); omega) io with
        ⟨e, hroll⟩ | ⟨l₂, hroll, hold₂, hnext₂, -, -⟩
      · rw [hroll]
        exact ⟨_, l₁, rfl, hold, hge⟩
      · rw [hroll]
        have hend₂ : l₂.activePair.segment.nextOffset = l₂.nextOffset := rfl
        have hbound := hfile (hfull rfl)
        simp only
        obtain ⟨r, s, hs, hbase, hcase⟩ := Segment.appendRawBatches_adds hds hne
          l₂.activePair.segment leaderEpoch assign io.writeFails
        rw [hs]
        rcases hcase with ⟨⟨e, rfl, -⟩, hsame⟩ | ⟨⟨x, rfl⟩, hadds⟩
        · refine ⟨_, _, rfl, ?_, ?_⟩
          · rw [withSegment_oldest _ hbase, hold₂, hold]
          · show l.nextOffset ≤ s.nextOffset
            omega
        · obtain ⟨r, l', hn, hold', hnext'⟩ := store_note hbase (x.1, x.2.2) x.1 x.2.1
            ds.flatten.length
          refine ⟨r, l', hn, ?_, ?_⟩
          · rw [hold', hold₂, hold]
          · rw [hnext', hadds, Nat.mod_eq_of_lt (by omega)]
            omega
    · cases e <;> first
        | exact absurd rfl hseg
        | exact ⟨_, _, rfl, (withSegment_oldest _ hbase).trans hold, by
            show l.nextOffset ≤ s.nextOffset
            omega⟩
  · obtain ⟨r, l', hn, hold', hnext'⟩ := store_note hbase (x.1, x.2.2) x.1 x.2.1
      ds.flatten.length
    refine ⟨r, l', hn, hold'.trans hold, ?_⟩
    rw [hnext', hadds, Nat.mod_eq_of_lt (by omega)]
    omega

theorem Headroom.mono {crc : Checksum} {l : Log} {m n : Nat} (h : l.Headroom crc n) (hmn : m ≤ n) :
    l.Headroom crc m := by
  obtain ⟨bound, hfiles, hsum⟩ := h
  exact ⟨bound, hfiles, by omega⟩

/-- A raw append of these bytes does not run out of offsets: it meets no segment
file with bytes in it, or the offsets in the files leave room. -/
def Spacious (crc : Checksum) (l : Log) (data : ByteString) : Prop :=
  l.Clear ∨ l.Headroom crc (offsetsOf (rawBatches data))

theorem Spacious.appendRaw {crc : Checksum} {l : Log} {data : ByteString}
    (h : l.Spacious crc data) (leaderEpoch : Int32) (io : Faults) :
    ∃ r l', l.appendRaw crc data leaderEpoch io = (r, l') ∧ l'.oldestOffset = l.oldestOffset ∧
      l.nextOffset ≤ l'.nextOffset := by
  rcases h with hclear | hroom
  · obtain ⟨r, l', he, hg⟩ := hclear.appendRaw crc data leaderEpoch io
    exact ⟨r, l', he, hg.oldest, hg.next_le⟩
  rcases appendRaw_cases crc l data leaderEpoch io with ⟨e, he⟩ | ⟨ds, rfl, hne, hvalid, he⟩
  · exact ⟨_, l, he, rfl, Nat.le_refl _⟩
  have hstored : ∀ c ∈ ds, Stored crc c := fun c hc => (hvalid c hc).toStored
  rw [rawBatches_flatten hstored] at hroom
  obtain ⟨r, l', hs, hends⟩ := hroom.store hstored hne leaderEpoch true io
  rw [he, hs]
  cases r with
  | error e => exact ⟨_, l', rfl, hends⟩
  | ok x => exact ⟨_, l', rfl, hends⟩

theorem offsetsOf_accepted_le (fetchEpoch : Int32) (ds : List ByteString) :
    offsetsOf (acceptedBatches fetchEpoch ds) ≤ offsetsOf ds := by
  unfold offsetsOf
  exact ((List.takeWhile_sublist _).map _).sum_le_sum fun _ _ => Nat.zero_le _

theorem Spacious.appendReplicaRaw {crc : Checksum} {l : Log} {data : ByteString}
    (h : l.Spacious crc data) (fetchEpoch : Int32) (io : Faults) :
    ∃ r l', l.appendReplicaRaw crc data fetchEpoch io = (r, l') ∧
      l'.oldestOffset = l.oldestOffset ∧ l.nextOffset ≤ l'.nextOffset := by
  rcases h with hclear | hroom
  · obtain ⟨r, l', he, hg⟩ := hclear.appendReplicaRaw crc data fetchEpoch io
    exact ⟨r, l', he, hg.oldest, hg.next_le⟩
  rcases appendReplicaRaw_cases crc l data fetchEpoch io with ⟨r, he, -⟩ | ⟨acc, hacc, he⟩
  · exact ⟨r, l, he, rfl, Nat.le_refl _⟩
  obtain ⟨r₁, cache, file, dirty, hassign⟩ :=
    assignLeaderEpochs_frame l (epochStarts none acc) io
  rw [he, hassign]
  cases r₁ with
  | error e => exact ⟨_, _, rfl, rfl, Nat.le_refl _⟩
  | ok _ =>
    have hle : offsetsOf acc ≤ offsetsOf (rawBatches data) := by
      rw [← hacc.stored.2]
      exact offsetsOf_accepted_le fetchEpoch _
    -- which epochs are cached does not matter for the files
    have hroom₁ : Headroom crc { l with
        epochCache := cache
        checkpoint := file
        epochCheckpointDirty := dirty } (offsetsOf acc) := hroom.mono hle
    obtain ⟨r, l', hs, hends⟩ := hroom₁.store hacc.stored.1 hacc.ne_nil 0 false io
    simp only [hs]
    cases r with
    | error e => exact ⟨_, l', rfl, hends⟩
    | ok x => exact ⟨_, l', rfl, hends⟩

/-! ## Truncation -/

theorem findSegment_sealed {l : Log} {offset i : Nat}
    (h : l.findSegment offset = some (.sealed i)) : i < l.sealedPairs.length := by
  unfold findSegment at h
  split at h
  · cases h
  · simp only at h
    split at h
    · cases h
    · rename_i hk
      have hle := Search.sortSearch_le l.sealedPairs.length
        (fun i => decide (offset < (l.sealedAt i).segment.baseOffset))
      cases h
      omega

/-- Cutting a pair keeps its base; its end moves to the offset or stays. -/
theorem truncateSegmentPair_moves (p : SegmentPair) (position offset : Nat) (interval : Int64)
    (fault : Bool) :
    ∃ r p', truncateSegmentPair p position offset interval fault = (r, p') ∧
      p'.segment.baseOffset = p.segment.baseOffset ∧
      (p'.segment.nextOffset = offset ∨
        p'.segment.nextOffset = p.segment.nextOffset ∧ ∃ e, r = .error e) := by
  unfold truncateSegmentPair Segment.truncateAt
  split
  · rename_i heq
    split at heq
    · cases heq
      exact ⟨_, _, rfl, rfl, .inr ⟨rfl, _, rfl⟩⟩
    split at heq
    · cases heq
      exact ⟨_, _, rfl, rfl, .inr ⟨rfl, _, rfl⟩⟩
    split at heq
    · cases heq
      exact ⟨_, _, rfl, rfl, .inr ⟨rfl, _, rfl⟩⟩
    · cases heq
  · rename_i heq
    split at heq
    · cases heq
    split at heq
    · cases heq
    split at heq
    · cases heq
    cases heq
    split
    · exact ⟨_, _, rfl, rfl, .inl rfl⟩
    · exact ⟨_, _, rfl, rfl, .inl rfl⟩

theorem oldest_withActive {l : Log} {p : SegmentPair}
    (h : p.segment.baseOffset = l.activePair.segment.baseOffset) :
    oldestOffset { l with activePair := p } = l.oldestOffset := by
  unfold oldestOffset
  cases l.sealedPairs with
  | nil => exact h
  | cons q qs => rfl

/-- The first pair keeps its base when a sealed pair is replaced by its cut. -/
theorem oldest_set {l : Log} {i : Nat} (hi : i < l.sealedPairs.length) {p : SegmentPair}
    (h : p.segment.baseOffset = (l.sealedAt i).segment.baseOffset) :
    oldestOffset { l with sealedPairs := l.sealedPairs.set i p } = l.oldestOffset := by
  unfold sealedAt at h
  unfold oldestOffset
  cases hs : l.sealedPairs with
  | nil =>
    rw [hs] at hi
    exact absurd hi (Nat.not_lt_zero i)
  | cons q qs =>
    rw [hs] at h
    cases i with
    | zero => exact h
    | succ i => rfl

theorem oldest_take {l : Log} {i : Nat} (hi : i < l.sealedPairs.length) {p : SegmentPair}
    (h : p.segment.baseOffset = (l.sealedAt i).segment.baseOffset) :
    oldestOffset { l with
      sealedPairs := l.sealedPairs.take i
      activePair := p } = l.oldestOffset := by
  unfold sealedAt at h
  unfold oldestOffset
  cases hs : l.sealedPairs with
  | nil =>
    rw [hs] at hi
    exact absurd hi (Nat.not_lt_zero i)
  | cons q qs =>
    rw [hs] at h
    cases i with
    | zero => exact h
    | succ i => rfl

/-- A truncation leaves the end where it is or moves it back to the offset. -/
theorem truncateTo_moves (l : Log) (offset : Nat) (io : Faults) :
    ∃ r l', l.truncateTo offset io = (r, l') ∧ l'.oldestOffset = l.oldestOffset ∧
      (l'.nextOffset = l.nextOffset ∨
        l.oldestOffset ≤ offset ∧ offset < l.nextOffset ∧ l'.nextOffset = offset) := by
  unfold truncateTo
  split
  · exact ⟨_, l, rfl, rfl, .inl rfl⟩
  split
  · exact ⟨_, l, rfl, rfl, .inl rfl⟩
  rename_i hstart
  split
  · rename_i hlt
    have hge := Nat.le_of_not_lt hstart
    cases hfind : l.findSegment offset with
    | none => exact ⟨_, l, rfl, rfl, .inl rfl⟩
    | some target =>
      simp only
      cases (l.pairAt target).segment.findTruncationPosition offset with
      | error e => exact ⟨_, l, rfl, rfl, .inl rfl⟩
      | ok position =>
        obtain ⟨r, p, hp, hbase, hnext⟩ := truncateSegmentPair_moves (l.pairAt target) position
          offset l.config.indexIntervalBytes io.truncateFails
        simp only [hp]
        cases target with
        | active =>
          have holdest := oldest_withActive (l := l) (p := p) hbase
          cases r with
          | error e =>
            refine ⟨_, _, rfl, holdest, ?_⟩
            rcases hnext with hnext | ⟨hnext, -⟩
            · exact .inr ⟨hge, hlt, hnext⟩
            · exact .inl hnext
          | ok _ =>
            obtain ⟨r, file, dirty, hf⟩ :=
              finishTruncate_frame { l with activePair := p } offset true [] io
            refine ⟨r, _, hf, holdest, .inr ⟨hge, hlt, ?_⟩⟩
            rcases hnext with hnext | ⟨-, e, he⟩
            · exact hnext
            · cases he
        | «sealed» i =>
          have hi := findSegment_sealed hfind
          cases r with
          | error e => exact ⟨_, _, rfl, oldest_set hi hbase, .inl rfl⟩
          | ok _ =>
            simp only
            generalize (l.sealedPairs.drop (i + 1) ++ [l.activePair]).filter
              (fun p => io.removeFails p.segment.baseOffset) = kept
            obtain ⟨r, file, dirty, hf⟩ := finishTruncate_frame { l with
              sealedPairs := l.sealedPairs.take i
              activePair := p
              strays := l.strays ++ kept.map fun p => (p.segment.baseOffset, p.segment.file) }
              offset true (kept.map (·.segment.baseOffset)) io
            refine ⟨r, _, hf, oldest_take hi hbase, .inr ⟨hge, hlt, ?_⟩⟩
            rcases hnext with hnext | ⟨-, e, he⟩
            · exact hnext
            · cases he
  · obtain ⟨r, file, dirty, hf⟩ := finishTruncate_frame l offset false [] io
    exact ⟨r, _, hf, rfl, .inl rfl⟩

end Log

end MessageBroker.Storage
