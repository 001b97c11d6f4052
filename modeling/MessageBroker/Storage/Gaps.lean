import MessageBroker.Storage.Opening
import MessageBroker.Storage.Tiling

/-!
# Logs with gaps

A truncation that fails while it rebuilds an index leaves a gap between two
segments, so the segments of a reachable log are in order but need not follow
one another. The appends see only the last segments, and do the same whatever
lies before these; truncations and reopenings keep the order.
-/
namespace MessageBroker.Storage

open Lib.Bytes Lib.Tiling Lib

namespace Log

/-! ## Appends do not look back -/

/-- The log with older pairs before its own. -/
def behind (l : Log) (older : List SegmentPair) : Log :=
  { l with sealedPairs := older ++ l.sealedPairs }

/-- No pair has bytes in a file at this offset. -/
def Vacant (older : List SegmentPair) (offset : Nat) : Prop :=
  ∀ p ∈ older, p.segment.baseOffset = offset → p.segment.file = []

/-- The outcome with older pairs before those of the log. -/
def outcomeBehind {α : Type} (older : List SegmentPair) (x : α × Log) : α × Log :=
  (x.1, x.2.behind older)

section Behind

variable {crc : Checksum} {l : Log} {older : List SegmentPair}

theorem fileAt_behind (hl : l.fileAt l.nextOffset = []) (hs : l.strays = [])
    (ho : Vacant older l.nextOffset) : (l.behind older).fileAt l.nextOffset = [] := by
  unfold fileAt at hl ⊢
  have hpairs : (l.behind older).pairs = older ++ l.pairs := by simp [behind, pairs]
  rw [hpairs, List.reverse_append, List.find?_append]
  cases hf : l.pairs.reverse.find? (fun p => p.segment.baseOffset == l.nextOffset) with
  | some p =>
    rw [hf] at hl
    exact hl
  | none =>
    rw [Option.none_or]
    cases hg : older.reverse.find? (fun p => p.segment.baseOffset == l.nextOffset) with
    | some p =>
      have hp : p ∈ older := List.mem_reverse.mp (List.mem_of_find?_eq_some hg)
      exact ho p hp (by simpa using List.find?_some hg)
    | none =>
      show (((l.behind older).strays.find? _).map _).getD [] = []
      rw [show (l.behind older).strays = [] from hs]
      rfl

theorem roll_behind (h : l.Ok crc) (ho : Vacant older l.nextOffset) (io : Faults) :
    (l.behind older).roll crc io = outcomeBehind older (l.roll crc io) := by
  have hfile := fileAt_behind h.fileAt_next h.strays ho
  rw [roll_fresh crc h.fileAt_next h.strays, roll_fresh crc hfile h.strays]
  cases io.rollFails with
  | true => rfl
  | false => simp [outcomeBehind, behind, rolled, nextOffset]

theorem rollIfFull_behind (h : l.Ok crc) (ho : Vacant older l.nextOffset) (io : Faults) :
    (l.behind older).rollIfFull crc io = outcomeBehind older (l.rollIfFull crc io) := by
  unfold rollIfFull
  rw [roll_behind h ho]
  show (if l.activePair.segment.isFull || l.activePair.index.isFull then _ else _) = _
  split <;> rfl

theorem noteAppend_behind (l : Log) (older : List SegmentPair) (offset pos bytes : Nat) :
    (l.behind older).noteAppend offset pos bytes =
      outcomeBehind older (l.noteAppend offset pos bytes) := by
  unfold noteAppend
  rw [show (l.behind older).activePair = l.activePair from rfl,
    show (l.behind older).config = l.config from rfl]
  simp only
  split
  · rcases l.activePair.index.write offset pos with ⟨_ | _, idx⟩ <;> rfl
  · rfl

theorem store_behind (h : l.Ok crc) (ho : Vacant older l.nextOffset) (data : ByteString)
    (bounds : List BatchBounds) (leaderEpoch : Int32) (assign : Bool) (io : Faults) :
    (l.behind older).store crc data bounds leaderEpoch assign io =
      outcomeBehind older (l.store crc data bounds leaderEpoch assign io) := by
  have hnote : ∀ (l : Log) (s : Segment) (assigned pos total : Nat),
      ((l.behind older).withSegment s).noted assigned pos total data.length =
        outcomeBehind older ((l.withSegment s).noted assigned pos total data.length) := by
    intro l s assigned pos total
    unfold noted
    rw [show (l.behind older).withSegment s = (l.withSegment s).behind older from rfl,
      noteAppend_behind]
    rcases (l.withSegment s).noteAppend assigned pos data.length with ⟨_ | _, l'⟩ <;> rfl
  unfold store
  rw [rollIfFull_behind h ho]
  obtain ⟨r, l₁, hr, hx, -⟩ := rollIfFull_cases h io
  rw [hr]
  cases r with
  | error e => rfl
  | ok _ =>
    have ho₁ : Vacant older l₁.nextOffset := by rwa [hx.next_eq h]
    simp only [outcomeBehind]
    rw [show (l₁.behind older).activePair = l₁.activePair from rfl]
    rcases l₁.activePair.segment.appendRawBatches data bounds leaderEpoch assign io.writeFails with
      ⟨e | ⟨assigned, pos, total⟩, s⟩
    · by_cases he : e = .segmentFull
      · subst he
        simp only
        rw [roll_behind hx.ok ho₁]
        rcases l₁.roll crc io with ⟨_ | _, l₂⟩
        · rfl
        · simp only [outcomeBehind]
          rw [show (l₂.behind older).activePair = l₂.activePair from rfl]
          rcases l₂.activePair.segment.appendRawBatches data bounds leaderEpoch assign
            io.writeFails with ⟨e | ⟨assigned, pos, total⟩, s⟩
          · rfl
          · exact hnote l₂ s assigned pos total
      · cases e <;> first | rfl | exact absurd rfl he
    · exact hnote l₁ s assigned pos total

theorem appendRaw_behind (h : l.Ok crc) (ho : Vacant older l.nextOffset) (data : ByteString)
    (leaderEpoch : Int32) (io : Faults) :
    (l.behind older).appendRaw crc data leaderEpoch io =
      outcomeBehind older (l.appendRaw crc data leaderEpoch io) := by
  unfold appendRaw
  cases scanRawBatches crc data with
  | error e => rfl
  | ok bounds =>
    simp only [store_behind h ho]
    split
    · rfl
    · rw [show (l.behind older).config = l.config from rfl]
      cases checkSizes l.config.maxMessageBytes bounds.length 0 bounds with
      | error e => rfl
      | ok _ =>
        simp only
        rcases l.store crc data bounds leaderEpoch true io with ⟨_ | _, l'⟩ <;> rfl

theorem assignLoop_behind (older : List SegmentPair) (es : List EpochEntry) : ∀ l : Log,
    (l.behind older).assignLoop es = outcomeBehind older (l.assignLoop es) := by
  induction es with
  | nil => exact fun l => rfl
  | cons e es ih =>
    intro l
    unfold assignLoop
    rw [show (l.behind older).epochCache = l.epochCache from rfl]
    cases l.epochCache.assign e.epoch e.startOffset with
    | error err => rfl
    | ok x => exact ih { l with
        epochCache := x.2
        epochCheckpointDirty := l.epochCheckpointDirty || x.1 }

theorem persistEpochCheckpoint_behind (l : Log) (older : List SegmentPair) (io : Faults) :
    (l.behind older).persistEpochCheckpoint io =
      outcomeBehind older (l.persistEpochCheckpoint io) := by
  unfold persistEpochCheckpoint
  rw [show (l.behind older).epochCheckpointDirty = l.epochCheckpointDirty from rfl,
    show (l.behind older).checkpoint = l.checkpoint from rfl,
    show (l.behind older).epochCache = l.epochCache from rfl]
  split
  · rfl
  · rcases writeCheckpoint l.checkpoint l.epochCache io.checkpointFails with ⟨_ | _, file⟩ <;> rfl

theorem assignLeaderEpochs_behind (l : Log) (older : List SegmentPair) (es : List EpochEntry)
    (io : Faults) :
    (l.behind older).assignLeaderEpochs es io =
      outcomeBehind older (l.assignLeaderEpochs es io) := by
  unfold assignLeaderEpochs
  rw [assignLoop_behind]
  rcases l.assignLoop es with ⟨_ | _, l'⟩
  · rfl
  · exact persistEpochCheckpoint_behind l' older io

theorem appendReplicaRaw_behind (h : l.Ok crc) (ho : Vacant older l.nextOffset)
    (data : ByteString) (fetchEpoch : Int32) (io : Faults) :
    (l.behind older).appendReplicaRaw crc data fetchEpoch io =
      outcomeBehind older (l.appendReplicaRaw crc data fetchEpoch io) := by
  unfold appendReplicaRaw
  cases scanRawBatches crc data with
  | error e => rfl
  | ok bounds =>
    simp only
    split
    · rfl
    cases bounds.takeWhile (fun b => decide (b.leaderEpoch ≤ fetchEpoch)) with
    | nil => rfl
    | cons first rest =>
      simp only
      rw [show (l.behind older).nextOffset = l.nextOffset from rfl]
      split
      · rfl
      cases transitionsLoop 1 first rest with
      | error e => rfl
      | ok entries =>
        simp only [assignLeaderEpochs_behind]
        obtain ⟨r, cache, file, dirty, ha⟩ :=
          assignLeaderEpochs_frame l (⟨first.leaderEpoch, first.baseOffset⟩ :: entries) io
        rw [ha]
        cases r with
        | error e => rfl
        | ok _ =>
          simp only [outcomeBehind]
          rw [store_behind (h.ofEpochs cache file dirty) ho]
          generalize Log.store crc _ _ _ _ _ _ = x
          rcases x with ⟨_ | _, l'⟩ <;> rfl

theorem appendBatchToActive_behind (h : l.Ok crc) (ho : Vacant older l.nextOffset) (batch : Batch)
    (io : Faults) :
    (l.behind older).appendBatchToActive crc batch io =
      outcomeBehind older (l.appendBatchToActive crc batch io) := by
  unfold appendBatchToActive
  rw [show (l.behind older).activePair = l.activePair from rfl]
  rcases l.activePair.segment.appendBatch crc batch io.writeFails with ⟨e | x, s⟩
  · by_cases he : e = .segmentFull
    · subst he
      simp only
      split
      · rfl
      rw [roll_behind h ho]
      rcases l.roll crc io with ⟨_ | _, l₂⟩
      · rfl
      · simp only [outcomeBehind]
        rw [show (l₂.behind older).activePair = l₂.activePair from rfl]
        rcases l₂.activePair.segment.appendBatch crc batch io.writeFails with ⟨_ | _, s⟩ <;> rfl
    · cases e <;> first | rfl | exact absurd rfl he
  · rfl

theorem append_behind (h : l.Ok crc) (ho : Vacant older l.nextOffset) (batch : Batch)
    (io : Faults) :
    (l.behind older).append crc batch io = outcomeBehind older (l.append crc batch io) := by
  unfold append
  rw [rollIfFull_behind h ho]
  obtain ⟨r, l₁, hr, hx, -⟩ := rollIfFull_cases h io
  rw [hr]
  cases r with
  | error e => rfl
  | ok _ =>
    have ho₁ : Vacant older l₁.nextOffset := by rwa [hx.next_eq h]
    simp only [outcomeBehind]
    rw [appendBatchToActive_behind hx.ok ho₁]
    rcases l₁.appendBatchToActive crc batch io with ⟨e | ⟨pos, first⟩, l₂⟩
    · rfl
    · simp only [outcomeBehind]
      rw [noteAppend_behind]
      rcases l₂.noteAppend first pos (encodedBatchSize batch) with ⟨_ | _, l'⟩ <;> rfl

end Behind

/-! ## Segments in order -/

/-- What every reachable log is: its segments are in order, if not without gaps. -/
structure Apart (crc : Checksum) (l : Log) : Prop where
  pair : ∀ p ∈ l.pairs, p.Ok crc
  apart : l.pairs.Pairwise fun p q => p.segment.nextOffset ≤ q.segment.baseOffset
  strays : l.strays = []
  increasing : l.epochCache.Increasing

/-- The log without its sealed pairs. -/
def front (l : Log) : Log := { l with sealedPairs := [] }

theorem front_behind (l : Log) : l.front.behind l.sealedPairs = l := by
  simp [front, behind]

theorem Ok.apart {crc : Checksum} {l : Log} (h : l.Ok crc) (hinc : l.epochCache.Increasing) :
    l.Apart crc :=
  ⟨h.pair, h.linked.pairwise, h.strays, hinc⟩

namespace Apart

variable {crc : Checksum} {l : Log}

theorem ordered (h : l.Apart crc) : Ordered l.pairs :=
  h.apart.imp_of_mem fun hp _ hpq => (h.pair _ hp).rep.base_le_next.trans hpq

theorem active (h : l.Apart crc) : l.activePair.Ok crc := h.pair _ l.active_mem

theorem front (h : l.Apart crc) : l.front.Ok crc where
  pair := by
    intro p hp
    rw [List.mem_singleton.mp hp]
    exact h.active
  linked := ⟨rfl, h.active.rep.base_le_next, rfl⟩
  strays := h.strays

theorem sealed_le (h : l.Apart crc) {p : SegmentPair} (hp : p ∈ l.sealedPairs) :
    p.segment.nextOffset ≤ l.activePair.segment.baseOffset := by
  obtain ⟨-, -, hcross⟩ := List.pairwise_append.mp h.apart
  exact hcross p hp _ (List.mem_singleton.mpr rfl)

theorem next_le (h : l.Apart crc) {p : SegmentPair} (hp : p ∈ l.pairs) :
    p.segment.nextOffset ≤ l.nextOffset := by
  rcases List.mem_append.mp hp with hp | hp
  · exact (h.sealed_le hp).trans h.active.rep.base_le_next
  · rw [List.mem_singleton.mp hp]
    exact Nat.le_refl _

theorem vacant (h : l.Apart crc) : Vacant l.sealedPairs l.nextOffset := by
  intro p hp hbase
  have hrep := (h.pair p (List.mem_append_left _ hp)).rep
  have hle := h.sealed_le hp
  have hact : l.activePair.segment.baseOffset ≤ l.nextOffset := h.active.rep.base_le_next
  have hself := hrep.base_le_next
  rw [hrep.file_eq, hrep.eq_nil_iff_next.mpr (by omega)]
  rfl

/-- The batches of a log are in the order of their offsets. -/
theorem pairwise (h : l.Apart crc) :
    l.batches.Pairwise fun c d => endOffset c ≤ baseOffset d := by
  refine List.pairwise_flatMap.mpr ⟨fun p hp => (h.pair p hp).rep.tiles.pairwise, ?_⟩
  refine h.apart.imp_of_mem fun {p q} hp hq hpq c hc d hd => ?_
  have hcp := ((h.pair p hp).rep.tiles.mem hc).2.2
  have hdq := ((h.pair q hq).rep.tiles.mem hd).1
  omega

theorem base_lt (h : l.Apart crc) {c : ByteString} (hc : c ∈ l.batches) :
    baseOffset c < endOffset c := by
  obtain ⟨p, hp, hcp⟩ := List.mem_flatMap.mp hc
  exact ((h.pair p hp).rep.tiles.mem hcp).2.1

theorem endOffset_le (h : l.Apart crc) {c : ByteString} (hc : c ∈ l.batches) :
    endOffset c ≤ l.nextOffset := by
  obtain ⟨p, hp, hcp⟩ := List.mem_flatMap.mp hc
  exact ((h.pair p hp).rep.tiles.mem hcp).2.2.trans (h.next_le hp)

/-- An operation that leaves the pairs from the active one on well formed. -/
theorem of_front (h : l.Apart crc) {l' : Log} (hl : l'.Ok crc)
    (hold : l'.oldestOffset = l.front.oldestOffset) (hinc : l'.epochCache.Increasing) :
    (l'.behind l.sealedPairs).Apart crc where
  pair := by
    intro p hp
    simp only [behind, pairs, List.append_assoc] at hp
    rcases List.mem_append.mp hp with hp | hp
    · exact h.pair p (List.mem_append_left _ hp)
    · exact hl.pair p hp
  apart := by
    simp only [behind, pairs, List.append_assoc]
    obtain ⟨hs, -, -⟩ := List.pairwise_append.mp h.apart
    refine List.pairwise_append.mpr ⟨hs, hl.linked.pairwise, fun p hp q hq => ?_⟩
    have hle := h.sealed_le hp
    have hq := (hl.linked.mem hq).1
    rw [hold] at hq
    exact hle.trans hq
  strays := hl.strays
  increasing := hinc

end Apart

/-- What every assignment keeps true of the cached epochs holds after the loop. -/
theorem assignLoop_keeps {P : EpochCache → Prop}
    (hP : ∀ {c c' : EpochCache} {epoch : Int32} {startOffset : Nat} {changed : Bool}, P c →
      c.assign epoch startOffset = .ok (changed, c') → P c') (es : List EpochEntry) :
    ∀ {l : Log}, P l.epochCache → P (l.assignLoop es).2.epochCache := by
  induction es with
  | nil => exact id
  | cons e es ih =>
    intro l h
    unfold assignLoop
    cases ha : l.epochCache.assign e.epoch e.startOffset with
    | error err => exact h
    | ok x => exact ih (hP h ha)

theorem assignLeaderEpochs_epochCache (l : Log) (es : List EpochEntry) (io : Faults) :
    (l.assignLeaderEpochs es io).2.epochCache = (l.assignLoop es).2.epochCache := by
  unfold assignLeaderEpochs
  rcases l.assignLoop es with ⟨_ | _, l'⟩
  · rfl
  · obtain ⟨r, file, dirty, hp⟩ := persistEpochCheckpoint_frame l' io
    simp only [hp]

theorem assignLeaderEpochs_increasing {l : Log} (h : l.epochCache.Increasing)
    (es : List EpochEntry) (io : Faults) :
    (l.assignLeaderEpochs es io).2.epochCache.Increasing := by
  rw [assignLeaderEpochs_epochCache]
  exact assignLoop_keeps (fun hc ha => (EpochCache.assign_cases hc ha).2.1) es h

theorem assignLeaderEpochs_wf {l : Log} (h : l.epochCache.Wf) (es : List EpochEntry)
    (io : Faults) : (l.assignLeaderEpochs es io).2.epochCache.Wf := by
  rw [assignLeaderEpochs_epochCache]
  exact assignLoop_keeps (fun hc ha => hc.assign ha) es h

/-! ## Truncating such a log -/

/-- A pair cut at the offset, in the place of the one that was found. -/
structure Recut (crc : Checksum) (l : Log) (offset : Nat) (target : Target) (p : SegmentPair) :
    Prop where
  lt : offset < l.nextOffset
  split : l.pairs = l.before target ++ l.pairAt target :: l.after target
  after : ∀ q ∈ l.after target, offset < q.segment.baseOffset
  ok : p.Ok crc
  batches : ∃ cut, (l.pairAt target).segment.batches = p.segment.batches ++ cut ∧
    BatchTiles offset (l.pairAt target).segment.nextOffset cut
  base : p.segment.baseOffset = (l.pairAt target).segment.baseOffset
  next : p.segment.nextOffset = offset
  index : p.index.maxBytes = (l.pairAt target).index.maxBytes

/-- Everything that `TruncateTo` can do: nothing; write the checkpoint; cut a pair
and fail to rebuild its index; cut it and drop what comes after. -/
theorem Apart.truncateTo_cases {crc : Checksum} {l : Log} (h : l.Apart crc) {io : Faults}
    (hio : io.Harmless) (offset : Nat) :
    ∃ r l', l.truncateTo offset io = (r, l') ∧ l'.strays = [] ∧
      ((∃ e, r = .error e) ∧ l' = l ∨
        offset = l.nextOffset ∧ l'.pairs = l.pairs ∧ l'.epochCache = l.epochCache ∨
        ∃ target p, Recut crc l offset target p ∧
          ((∃ e, r = .error e) ∧ l'.pairs = l.before target ++ p :: l.after target ∧
              l'.epochCache = l.epochCache ∨
            l'.pairs = l.before target ++ [p] ∧
              l'.epochCache = l.epochCache.truncateFromEnd offset)) := by
  unfold Log.truncateTo
  split
  · exact ⟨_, l, rfl, h.strays, .inl ⟨⟨_, rfl⟩, rfl⟩⟩
  rename_i hle
  split
  · exact ⟨_, l, rfl, h.strays, .inl ⟨⟨_, rfl⟩, rfl⟩⟩
  rename_i hge
  split
  · rename_i hlt
    obtain ⟨hsealed, -, -⟩ := List.pairwise_append.mp h.ordered
    obtain ⟨target, hfind, hsplit, -, hafter⟩ :=
      findSegment_ordered hsealed (Nat.le_of_not_lt hge)
    have hp := h.pair (l.pairAt target) (by rw [hsplit]; simp)
    rw [hfind]
    simp only
    cases hpos : (l.pairAt target).segment.findTruncationPosition offset with
    | error e => exact ⟨_, l, rfl, h.strays, .inl ⟨⟨_, rfl⟩, rfl⟩⟩
    | ok position =>
      simp only
      rcases truncateSegmentPair_cases hp hpos l.config.indexIntervalBytes io.truncateFails with
        ⟨-, e, he⟩ | ⟨r, p, cut, he, hp', -, hcut, hbase, hnext, hindex, -, -⟩
      · rw [he]
        refine ⟨.error e, l, ?_, h.strays, .inl ⟨⟨e, rfl⟩, rfl⟩⟩
        cases target with
        | active => rfl
        | sealed i =>
          show (_, { l with sealedPairs := l.sealedPairs.set i (l.sealedAt i) }) = _
          rw [Log.set_sealedAt]
      · rw [he]
        have hrecut : Recut crc l offset target p := by
          refine ⟨hlt, hsplit, hafter, hp', ⟨cut, hcut, ?_⟩, hbase, hnext, hindex⟩
          have ht := hp.rep.tiles
          rw [hcut] at ht
          obtain ⟨m, hm, htail⟩ := tiles_append.mp ht
          rw [← hbase] at hm
          rwa [tiles_end_unique hm hp'.rep.tiles, hnext] at htail
        cases target with
        | active =>
          cases r with
          | error e => exact ⟨_, _, rfl, h.strays, .inr (.inr ⟨_, p, hrecut,
              .inl ⟨⟨e, rfl⟩, rfl, rfl⟩⟩)⟩
          | ok _ =>
            obtain ⟨r, file, dirty, hf⟩ :=
              Log.finishTruncate_frame { l with activePair := p } offset true [] io
            exact ⟨r, _, hf, h.strays, .inr (.inr ⟨_, p, hrecut, .inr ⟨rfl, rfl⟩⟩)⟩
        | sealed i =>
          cases r with
          | error e =>
            refine ⟨_, _, rfl, h.strays, .inr (.inr ⟨_, p, hrecut, .inl ⟨⟨e, rfl⟩, ?_, rfl⟩⟩)⟩
            have hi : i < l.sealedPairs.length := by
              have hlen := congrArg List.length hsplit
              simp [pairs, before, after] at hlen
              omega
            simp only [pairs, before, after, List.set_eq_take_append_cons_drop, if_pos hi,
              List.append_assoc, List.cons_append]
          | ok _ =>
            have hkept : (l.sealedPairs.drop (i + 1) ++ [l.activePair]).filter
                (fun p => io.removeFails p.segment.baseOffset) = [] :=
              List.filter_eq_nil_iff.mpr fun q _ => by simp [hio.remove]
            simp only [hkept, List.map_nil, List.append_nil]
            obtain ⟨r, file, dirty, hf⟩ := Log.finishTruncate_frame { l with
              sealedPairs := l.sealedPairs.take i
              activePair := p } offset true [] io
            exact ⟨r, _, hf, h.strays, .inr (.inr ⟨_, p, hrecut, .inr ⟨rfl, rfl⟩⟩)⟩
  · rename_i heq
    obtain ⟨r, file, dirty, hf⟩ := Log.finishTruncate_frame l offset false [] io
    exact ⟨r, _, hf, h.strays, .inr (.inl ⟨by omega, rfl, rfl⟩)⟩

/-- A pair cut in its place is still in order with the others. -/
theorem Recut.apart {crc : Checksum} {l : Log} (h : l.Apart crc) {offset : Nat} {target : Target}
    {p : SegmentPair} (hr : Recut crc l offset target p) {l' : Log} {rest : List SegmentPair}
    (hrest : rest.Sublist (l.after target)) (hpairs : l'.pairs = l.before target ++ p :: rest)
    (hstrays : l'.strays = []) (hinc : l'.epochCache.Increasing) : l'.Apart crc := by
  have hold := h.apart
  rw [hr.split] at hold
  obtain ⟨hbefore, htail, hcross⟩ := List.pairwise_append.mp hold
  obtain ⟨-, hafter⟩ := List.pairwise_cons.mp htail
  refine ⟨fun q hq => ?_, ?_, hstrays, hinc⟩
  · rw [hpairs] at hq
    rcases List.mem_append.mp hq with hq | hq
    · exact h.pair q (by rw [hr.split]; exact List.mem_append_left _ hq)
    · rcases List.mem_cons.mp hq with rfl | hq
      · exact hr.ok
      · refine h.pair q ?_
        rw [hr.split]
        exact List.mem_append_right _ (List.mem_cons_of_mem _ (hrest.subset hq))
  · rw [hpairs]
    refine List.pairwise_append.mpr ⟨hbefore, List.pairwise_cons.mpr ⟨fun q hq => ?_,
      hafter.sublist hrest⟩, fun x hx q hq => ?_⟩
    · rw [hr.next]
      exact (hr.after q (hrest.subset hq)).le
    · rcases List.mem_cons.mp hq with rfl | hq
      · rw [hr.base]
        exact hcross x hx _ List.mem_cons_self
      · exact hcross x hx q (List.mem_cons_of_mem _ (hrest.subset hq))

theorem Apart.truncateTo {crc : Checksum} {l : Log} (h : l.Apart crc) {io : Faults}
    (hio : io.Harmless) (offset : Nat) : (l.truncateTo offset io).2.Apart crc := by
  obtain ⟨r, l', he, hstrays, hcase⟩ := h.truncateTo_cases hio offset
  rw [he]
  rcases hcase with ⟨-, rfl⟩ | ⟨-, hpairs, hcache⟩ | ⟨target, p, hr, hcase⟩
  · exact h
  · exact ⟨hpairs ▸ h.pair, hpairs ▸ h.apart, hstrays, hcache ▸ h.increasing⟩
  · rcases hcase with ⟨-, hpairs, hcache⟩ | ⟨hpairs, hcache⟩
    · exact hr.apart h (.refl _) hpairs hstrays (hcache ▸ h.increasing)
    · refine hr.apart h (List.nil_sublist _) hpairs hstrays ?_
      rw [hcache]
      exact h.increasing.takeWhile _

/-! ## Reopening such a log -/

/-- Of the files of a name the directory has the last, and it has them in order. -/
theorem lastOfEach_sublist (ps : List SegmentPair) :
    ∃ qs, lastOfEach (ps.map SegmentPair.fileEntry) = qs.map SegmentPair.fileEntry ∧
      qs.Sublist ps ∧ (ps ≠ [] → qs ≠ []) := by
  induction ps with
  | nil => exact ⟨[], rfl, .refl _, id⟩
  | cons p ps ih =>
    cases ps with
    | nil => exact ⟨[p], rfl, .refl _, id⟩
    | cons q rest =>
      obtain ⟨qs, hl, hsub, hne⟩ := ih
      simp only [List.map_cons] at hl ⊢
      by_cases hsame : p.fileEntry.1 = q.fileEntry.1
      · exact ⟨qs, by rw [lastOfEach, if_pos hsame, hl], hsub.cons p, fun _ => hne (by simp)⟩
      · exact ⟨p :: qs, by rw [lastOfEach, if_neg hsame, hl]; rfl, hsub.cons_cons p, by simp⟩

theorem recoverEpochCache_wf {ss : List Segment} {leo : Nat}
    {checkpoint : Option EpochCache} {io : Faults} {cache : EpochCache} {file : Option EpochCache}
    (h : recoverEpochCache ss leo checkpoint io = .ok (cache, file)) : cache.Wf := by
  obtain ⟨replayed, hreplay, hx⟩ := recoverEpochCache_inv h
  rcases hx with ⟨-, ⟨scanned, rebuilt, -, hrebuilt, rfl⟩, -⟩ | ⟨-, rfl, -⟩
  · exact (EpochCache.wf_replay EpochCache.wf_nil hrebuilt).takeWhile _
  · exact (EpochCache.wf_replay EpochCache.wf_nil hreplay).takeWhile _

theorem newLog_wf {crc : Checksum} {config : LogConfig} {files : List (Nat × ByteString)}
    {checkpoint : Option EpochCache} {io : Faults} {l : Log}
    (h : newLog crc config files checkpoint io = .ok l) : l.epochCache.Wf := by
  unfold newLog at h
  simp only at h
  split at h
  · cases h
  split at h
  · cases h
  rename_i hrec
  cases h
  exact recoverEpochCache_wf hrec

theorem newLog_increasing {crc : Checksum} {config : LogConfig} {files : List (Nat × ByteString)}
    {checkpoint : Option EpochCache} {io : Faults} {l : Log}
    (h : newLog crc config files checkpoint io = .ok l) : l.epochCache.Increasing :=
  (newLog_wf h).increasing

theorem Apart.directory {crc : Checksum} {l : Log} (h : l.Apart crc) :
    ∃ qs, l.directory = qs.map SegmentPair.fileEntry ∧ qs.Sublist l.pairs ∧ qs ≠ [] := by
  have hsorted : (l.pairs.map SegmentPair.fileEntry).Pairwise fun a b => a.1 ≤ b.1 := by
    rw [List.pairwise_map]
    exact h.ordered
  obtain ⟨qs, hl, hsub, hne⟩ := lastOfEach_sublist l.pairs
  refine ⟨qs, ?_, hsub, hne (by simp [pairs])⟩
  unfold Log.directory
  rw [h.strays, List.nil_append, ← hl]
  exact congrArg lastOfEach hsorted.insertionSort_eq

/-- Opening a file finds what the pair had that wrote it. -/
theorem Apart.reopen {crc : Checksum} {l l' : Log} (h : l.Apart crc) {config : LogConfig}
    {io : Faults} (hre : l.reopen crc config io = .ok l') : l'.Apart crc := by
  obtain ⟨qs, hdir, hsub, hne⟩ := h.directory
  unfold Log.reopen at hre
  rw [hdir] at hre
  obtain ⟨hopen, hstrays⟩ := newLog_pairs (by simpa using hne) hre
  obtain ⟨hlen, hget⟩ :=
    List.forall₂_iff_get.mp (List.forall₂_map_left_iff.mp (openPairs_forall₂ hopen))
  have hall : ∀ i (hi : i < qs.length) (hi' : i < l'.pairs.length), l'.pairs[i].Ok crc ∧
      l'.pairs[i].segment.baseOffset = qs[i].segment.baseOffset ∧
      l'.pairs[i].segment.nextOffset = qs[i].segment.nextOffset := by
    intro i hi hi'
    obtain ⟨hok, hbase, hnext, -⟩ := newSegmentPair_rep
      (h.pair _ (hsub.subset (List.getElem_mem hi))) (hget i hi hi')
    exact ⟨hok, hbase, hnext⟩
  refine ⟨fun p hp => ?_, ?_, hstrays, newLog_increasing hre⟩
  · obtain ⟨i, hi, rfl⟩ := List.getElem_of_mem hp
    exact (hall i (hlen ▸ hi) hi).1
  · refine List.pairwise_iff_getElem.mpr fun i j hi hj hij => ?_
    have hle := List.pairwise_iff_getElem.mp (h.apart.sublist hsub) i j (hlen ▸ hi) (hlen ▸ hj) hij
    rw [(hall i (hlen ▸ hi) hi).2.2, (hall j (hlen ▸ hj) hj).2.1]
    exact hle

theorem Apart.assignLeaderEpoch {crc : Checksum} {l : Log} (h : l.Apart crc) (epoch : Int32)
    (offset : Nat) (io : Faults) : (l.assignLeaderEpoch epoch offset io).2.Apart crc := by
  have hinc := assignLeaderEpochs_increasing h.increasing [⟨epoch, offset⟩] io
  obtain ⟨r, cache, file, dirty, ha⟩ := l.assignLeaderEpochs_frame [⟨epoch, offset⟩] io
  rw [ha] at hinc
  rw [Log.assignLeaderEpoch, ha]
  exact ⟨h.pair, h.apart, h.strays, hinc⟩

/-! ## Whole runs -/

/-- What a call needs: no write or removal fails, and an encoding fits its length
field and its offsets. -/
def Encodes (l : Log) (x : Call × Faults) : Prop :=
  x.2.Harmless ∧
    match x.1 with
    | .append batch => encodedBatchSize batch < 2 ^ 32 + 12 ∧
        l.nextOffset + batch.messages.length < 2 ^ 64
    | _ => True

theorem Apart.exec {crc : Checksum} {l : Log} (h : l.Apart crc) {x : Call × Faults}
    (hx : l.Encodes x) : (l.exec crc x).2.Apart crc := by
  obtain ⟨hio, hx⟩ := hx
  obtain ⟨c, io⟩ := x
  have hextends : ∀ {l' : Log} {ds : List ByteString}, Extends crc l.front l' ds →
      (l'.behind l.sealedPairs).Apart crc := fun hx =>
    h.of_front hx.ok hx.oldest (hx.epochCache ▸ h.increasing)
  unfold Log.exec
  cases c with
  | append batch =>
    obtain ⟨r, l', he, hcase⟩ := h.front.append hx.1 hio hx.2
    have hbehind := append_behind h.front h.vacant batch io
    rw [front_behind, he] at hbehind
    simp only [hbehind]
    have hapart : (l'.behind l.sealedPairs).Apart crc := by
      rcases hcase with ⟨-, hx⟩ | ⟨hx, -⟩ <;> exact hextends hx
    cases r <;> exact hapart
  | appendRaw data leaderEpoch =>
    obtain ⟨r, l', he, hcase⟩ := h.front.appendRaw hio data leaderEpoch
    have hbehind := appendRaw_behind h.front h.vacant data leaderEpoch io
    rw [front_behind, he] at hbehind
    simp only [hbehind]
    have hapart : (l'.behind l.sealedPairs).Apart crc := by
      rcases hcase with ⟨-, hx⟩ | ⟨ds, -, -, -, hx, -⟩ <;> exact hextends hx
    cases r <;> exact hapart
  | appendReplicaRaw data fetchEpoch =>
    obtain ⟨r, l', he, hcase⟩ := h.front.appendReplicaRaw hio data fetchEpoch
    have hbehind := appendReplicaRaw_behind h.front h.vacant data fetchEpoch io
    rw [front_behind, he] at hbehind
    simp only [hbehind]
    have hapart : (l'.behind l.sealedPairs).Apart crc := by
      rcases hcase with ⟨rfl, -⟩ | ⟨l₁, r₁, acc, hrep, hx⟩
      · rwa [front_behind]
      · have hinc := assignLeaderEpochs_increasing (l := l.front) h.increasing
          (epochStarts none acc) io
        obtain ⟨r', cache, file, dirty, ha⟩ :=
          assignLeaderEpochs_frame l.front (epochStarts none acc) io
        obtain ⟨-, rfl⟩ := Prod.mk.inj (hrep.assigned.symm.trans ha)
        rw [hrep.assigned] at hinc
        rcases hx with ⟨-, hx⟩ | ⟨-, hx, -⟩ <;>
          exact h.of_front hx.ok hx.oldest (hx.epochCache ▸ hinc)
    cases r <;> exact hapart
  | truncateTo offset =>
    have hapart := h.truncateTo hio offset
    simp only
    revert hapart
    rcases l.truncateTo offset io with ⟨_ | _, l'⟩ <;> exact id
  | reopen config =>
    simp only
    cases he : l.reopen crc config io with
    | error e => exact h
    | ok l' => exact h.reopen he

theorem run_apart {crc : Checksum} {config : LogConfig} {io : Faults} {l : Log}
    (hnew : newLog crc config [] none io = .ok l) (calls : List (Call × Faults))
    (hg : Runs.Guarded (Log.exec crc) Encodes l calls) :
    (Runs.final (Log.exec crc) l calls).Apart crc :=
  Runs.invariant_guarded (Log.exec crc) (P := Apart crc) (G := Encodes)
    (fun _ _ h hs => h.exec hs) ((newLog_ok hnew).1.apart (newLog_increasing hnew)) calls hg

end Log

end MessageBroker.Storage
