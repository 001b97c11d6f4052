import MessageBroker.Storage.Reading
import MessageBroker.Storage.Replication

/-!
# Offsets that do not fit 32 bits

A batch says itself how many records it has, up to `2^31 - 1`, and nothing
compares that with its bytes. So the offsets of one request can add up to more
than `2^32`, and so can those of one segment, while `AppendRaw` returns the last
offset delta of a request, and an index stores the offset of a batch within its
segment, as 32-bit numbers.
-/
namespace MessageBroker.Storage

open Lib.Bytes Lib.Tiling Lib

namespace Log

/-! ## The acknowledgement of a request -/

theorem storeInActive_ends {crc : Checksum} {l l' : Log} {ds : List ByteString}
    (hds : ∀ c ∈ ds, Stored crc c) (hne : ds ≠ []) {leaderEpoch : Int32} {fault : Option Nat}
    {x : Nat × Nat}
    (h : l.storeInActive ds.flatten (boundsFrom 0 ds) leaderEpoch true fault = (.ok x, l')) :
    x = (l.nextOffset, offsetsOf ds) ∧ l'.nextOffset = l.nextOffset + offsetsOf ds := by
  unfold storeInActive at h
  rcases Segment.appendRawBatches_moves hds hne l.activePair.segment leaderEpoch true fault
      (fun hf => by cases hf) with ⟨e, s, he, -⟩ | ⟨s, he, -, hnext, -⟩
  · rw [he] at h
    cases h
  · rw [he] at h
    obtain ⟨r, l₂, hn, hsame, -⟩ := noteAppend_ends (l.withSegment s) l.nextOffset
      l.activePair.segment.currentSize ds.flatten.length
    have hnoted : (l.withSegment s).noted l.nextOffset l.activePair.segment.currentSize
        (offsetsOf ds) ds.flatten.length = (.ok x, l') := h
    unfold noted at hnoted
    rw [hn] at hnoted
    cases r with
    | error e => cases hnoted
    | ok _ =>
      cases hnoted
      exact ⟨rfl, hsame.next.trans hnext⟩

/-- The segment files hold no offset from `n` on. -/
def FilesBelow (crc : Checksum) (l : Log) (n : Nat) : Prop :=
  ∀ base, l.fileAt base ≠ [] → base + intactOffsets crc (l.fileAt base) ≤ n

theorem intactOffsets_nil (crc : Checksum) : intactOffsets crc [] = 0 := rfl

/-- Bytes that were stored start at the end of the log, unless a roll found a
segment file with batches in it. -/
theorem stored_at_end_iff {crc : Checksum} {l l₁ : Log} {n : Nat} {io : Faults}
    (hnext : l.nextOffset ≤ 2 ^ 63) (hfiles : l.FilesBelow crc (2 ^ 63))
    (h : ¬ l.RollsFor n ∧ l₁ = l ∨ l.RollsFor n ∧ ∃ l₂, l.roll crc io = (.ok (), l₂) ∧
      (l₁ = l₂ ∨ l₂.Overflows n ∧ l₂.roll crc io = (.ok (), l₁))) :
    l₁.nextOffset = l.nextOffset ↔
      (l.RollsFor n → intactOffsets crc (l.fileAt l.nextOffset) = 0) := by
  have hbound : ∀ base, base ≤ 2 ^ 63 → base + intactOffsets crc (l.fileAt base) ≤ 2 ^ 63 := by
    intro base hbase
    by_cases hnil : l.fileAt base = []
    · rw [hnil, intactOffsets_nil]
      exact hbase
    · exact hfiles base hnil
  rcases h with ⟨hstay, rfl⟩ | ⟨hrolls, l₂, hroll, hland⟩
  · exact ⟨fun _ hr => absurd hr hstay, fun _ => rfl⟩
  have hfirst := hbound l.nextOffset hnext
  rcases roll_intact crc (l := l) (by omega) io with
    ⟨e, he⟩ | ⟨l₂', he, -, hmoved, hpos, hkeep⟩
  · cases he.symm.trans hroll
  obtain ⟨-, rfl⟩ := Prod.mk.inj (he.symm.trans hroll)
  rcases hland with rfl | ⟨hover, hroll₂⟩
  · rw [hmoved]
    exact ⟨fun heq _ => by omega, fun hzero => by rw [hzero hrolls]; rfl⟩
  · -- the file had batches, so the end has moved, and moves no way back
    have hne := hpos hover.1
    have hsecond := hbound l₂'.nextOffset (by omega)
    rw [← hkeep _ hne] at hsecond
    rcases roll_intact crc (l := l₂') (by omega) io with
      ⟨e, he₂⟩ | ⟨l₃, he₂, -, hmoved₂, -, -⟩
    · cases he₂.symm.trans hroll₂
    obtain ⟨-, rfl⟩ := Prod.mk.inj (he₂.symm.trans hroll₂)
    exact ⟨fun heq => by omega, fun hzero => by have := hzero hrolls; omega⟩

/-- The acknowledged range of a request that `AppendRaw` took. `Partition.AppendRaw`
waits for the high watermark `(base + delta + 1) % 2^64`. -/
theorem acknowledgement_covers_iff {crc : Checksum} {l l' : Log} {data : ByteString}
    {leaderEpoch : Int32} {io : Faults} {base delta : Nat}
    (h : l.appendRaw crc data leaderEpoch io = (.ok (base, delta), l'))
    (hnext : l.nextOffset ≤ 2 ^ 63) (hfiles : l.FilesBelow crc (2 ^ 63))
    (hend : l'.nextOffset ≤ 2 ^ 63) :
    (base = l.nextOffset ∧ (base + delta + 1) % 2 ^ 64 = l'.nextOffset) ↔
      offsetsOf (rawBatches data) ≤ 2 ^ 32 ∧
        (l.RollsFor data.length → intactOffsets crc (l.fileAt l.nextOffset) = 0) := by
  rcases appendRaw_cases crc l data leaderEpoch io with ⟨e, he⟩ | ⟨ds, rfl, hne, hvalid, he⟩
  · cases he.symm.trans h
  have hstored : ∀ c ∈ ds, Stored crc c := fun c hc => (hvalid c hc).toStored
  rw [rawBatches_flatten hstored]
  rw [he] at h
  rcases hs : l.store crc ds.flatten (boundsFrom 0 ds) leaderEpoch true io with ⟨e | x, l''⟩
  · rw [hs] at h
    cases h
  rw [hs] at h
  cases h
  obtain ⟨l₁, hactive, hland⟩ := store_ok_cases hs
  obtain ⟨rfl, hmoved⟩ := storeInActive_ends hstored hne hactive
  rw [← stored_at_end_iff hnext hfiles hland]
  have hpos := offsetsOf_pos hne
  simp only
  omega

/-- A batch of 61 bytes that claims `2^31 - 1` records. -/
def hugeBatch : ByteString :=
  let body := beBytes 2 0 ++ beBytes 4 (2 ^ 31 - 2) ++ beBytes 8 0 ++ beBytes 8 0 ++
    beBytes 8 0xFFFFFFFFFFFFFFFF ++ beBytes 2 0xFFFF ++ beBytes 4 0xFFFFFFFF ++
    beBytes 4 (2 ^ 31 - 1)
  beBytes 8 0 ++ beBytes 4 49 ++ beBytes 4 0 ++ [2] ++ beBytes 4 (crc32c body).toNat ++ body

/-- Segments of a megabyte with an index entry for every append. -/
def denseConfig : LogConfig := ⟨1000000, 1000, 1, 1000⟩

/-- Three such batches in one request: the acknowledgement waits for a third of
their offsets. -/
theorem acknowledgement_wraps :
    ((fresh denseConfig).appendRaw crc32c (hugeBatch ++ hugeBatch ++ hugeBatch) 0 .none).1 =
        .ok (0, 2147483644) ∧
      ((fresh denseConfig).appendRaw crc32c (hugeBatch ++ hugeBatch ++ hugeBatch) 0
        .none).2.nextOffset = 6442450941 ∧
      (0 + 2147483644 + 1) % 2 ^ 64 ≠ 6442450941 := by
  decide +kernel

theorem fileAt_fresh (config : LogConfig) (base : Nat) : (fresh config).fileAt base = [] := by
  unfold fileAt
  split
  · rename_i p hp
    rw [List.mem_singleton.mp (List.mem_reverse.mp (List.mem_of_find?_eq_some hp))]
    rfl
  · rfl

theorem acknowledgement_covers_iff_sampleRequest :
    ∃ l', (fresh tightConfig).appendRaw crc32c (sampleRequest 2) 0 .none = (.ok (0, 1), l') ∧
      (0 + 1 + 1) % 2 ^ 64 = l'.nextOffset := by
  obtain ⟨⟨r, l'⟩, hrun⟩ : ∃ x,
      (fresh tightConfig).appendRaw crc32c (sampleRequest 2) 0 .none = x :=
    ⟨_, rfl⟩
  have hr : r = .ok (0, 1) := by
    rw [← show ((fresh tightConfig).appendRaw crc32c (sampleRequest 2) 0 .none).1 = r from
      congrArg Prod.fst hrun]
    decide +kernel
  have hend : l'.nextOffset ≤ 2 ^ 63 := by
    rw [← show ((fresh tightConfig).appendRaw crc32c (sampleRequest 2) 0 .none).2 = l' from
      congrArg Prod.snd hrun]
    decide +kernel
  subst hr
  have hiff := acknowledgement_covers_iff hrun (by decide)
    (fun base hne => absurd (fileAt_fresh tightConfig base) hne) hend
  exact ⟨l', hrun, (hiff.mpr ⟨by decide +kernel, fun _ => by rw [fileAt_fresh]; rfl⟩).2⟩

end Log

/-! ## The entries of an index -/

/-- The entries of the index are the offsets of batches within the segment, in
order, and a lookup of an offset lands on the batch that has it or before. -/
structure SegmentPair.Exact (p : SegmentPair) : Prop where
  entry : ∀ e ∈ p.index.entries, ∃ pre c post, p.segment.batches = pre ++ c :: post ∧
    e.filePos = pre.flatten.length ∧ e.relOffset = baseOffset c - p.segment.baseOffset
  increasing : p.index.entries.Pairwise fun a b => a.relOffset < b.relOffset

theorem freshPair_exact (config : LogConfig) (base : Nat) : (freshPair config base).Exact :=
  ⟨fun _ he => absurd he List.not_mem_nil, List.Pairwise.nil⟩

theorem Index.relative_le {idx : Index} {offset : Nat} (hb : idx.baseOffset ≤ offset) :
    idx.relative offset ≤ offset - idx.baseOffset := by
  unfold Index.relative
  have h1 := Nat.mod_le ((offset + 2 ^ 64 - idx.baseOffset) % 2 ^ 64) (2 ^ 32)
  by_cases hlt : offset - idx.baseOffset < 2 ^ 64
  · omega
  · have h2 := Nat.mod_lt (offset + 2 ^ 64 - idx.baseOffset) (show 0 < 2 ^ 64 by decide)
    omega

/-- A lookup in exact entries does not land after the batch it is for. -/
theorem SegmentPair.Exact.lookup {crc : Checksum} {p : SegmentPair} (h : p.Exact) (hp : p.Ok crc)
    {offset : Nat} (hlo : p.segment.baseOffset ≤ offset) (hhi : offset < p.segment.nextOffset) :
    ∃ pos pre c post, p.index.lookup offset = .ok pos ∧ p.segment.batches = pre ++ c :: post ∧
      baseOffset c ≤ offset ∧ offset < endOffset c ∧ pos ≤ pre.flatten.length := by
  have hbase := hp.points.base_eq
  have htiles := hp.rep.tiles
  rcases hp.points.lookup_cases hlo with hstart | ⟨e, he, hlook, hle⟩
  · obtain ⟨pre, c, post, hcs, hcl, hch⟩ := htiles.find hlo hhi
    exact ⟨0, pre, c, post, hstart, hcs, hcl, hch, Nat.zero_le _⟩
  · obtain ⟨pre, c, post, hcs, hpos, hrel⟩ := h.entry e he
    -- the entry's batch starts at or before the offset, so the one over it is not earlier
    rw [hrel] at hle
    have hrange : p.index.relative offset ≤ offset - p.index.baseOffset :=
      Index.relative_le (by omega)
    have hmem := htiles.mem (x := c) (by rw [hcs]; simp)
    rw [hcs] at htiles
    obtain ⟨m, hpre, hpost⟩ := tiles_append.mp htiles
    obtain ⟨mid, d, rest, hsplit, hdl, hdh⟩ := hpost.find (o := offset)
      (by rw [← hpost.1]; omega) hhi
    refine ⟨_, pre ++ mid, d, rest, hlook, by rw [hcs, hsplit, List.append_assoc], hdl, hdh, ?_⟩
    rw [hpos, List.flatten_append, List.length_append]
    omega

namespace Log

/-- Bytes of this size go to a new segment, or need no index entry yet, or are not
far from the start of their segment. -/
def WithinReach (l : Log) (size : Nat) : Prop :=
  l.RollsFor size ∨ (l.activePair.bytesSinceIndex + size : Int) <
      l.config.indexIntervalBytes.toInt ∨
    l.nextOffset < l.activePair.segment.baseOffset + 2 ^ 32

instance (l : Log) (size : Nat) : Decidable (l.WithinReach size) :=
  inferInstanceAs (Decidable (_ ∨ _ ∨ _))

/-- More batches behind those of a pair, and at most one more entry, for them. -/
theorem exact_noted {crc : Checksum} {l : Log} (hp : l.activePair.Ok crc)
    (h : l.activePair.Exact) {s : Segment} {ds : List ByteString} (hne : ds ≠ [])
    (hrep : s.Rep crc (l.activePair.segment.batches ++ ds))
    (hbase : s.baseOffset = l.activePair.segment.baseOffset) (bytes : Nat)
    (hreach : (l.activePair.bytesSinceIndex + bytes : Int) < l.config.indexIntervalBytes.toInt ∨
      l.nextOffset < l.activePair.segment.baseOffset + 2 ^ 32) :
    ((l.withSegment s).noteAppend l.nextOffset l.activePair.segment.currentSize
      bytes).2.activePair.Exact := by
  obtain ⟨c, ds, rfl⟩ := List.exists_cons_of_ne_nil hne
  have hstart : baseOffset c = l.nextOffset := by
    obtain ⟨m, hm, hc, -⟩ := tiles_append.mp (hbase ▸ hrep.tiles)
    rw [hc]
    exact tiles_end_unique hm hp.rep.tiles
  have hkeep : ∀ e ∈ l.activePair.index.entries, ∃ pre x post, s.batches = pre ++ x :: post ∧
      e.filePos = pre.flatten.length ∧ e.relOffset = baseOffset x - s.baseOffset := by
    intro e he
    obtain ⟨pre, x, post, hcs, hpos, hrel⟩ := h.entry e he
    exact ⟨pre, x, post ++ c :: ds, by rw [hrep.batches_eq, hcs]; simp, hpos, by rw [hbase, hrel]⟩
  unfold noteAppend
  simp only
  split
  · rename_i hnote
    cases hfull : l.activePair.index.isFull with
    | true =>
      have hw : (l.withSegment s).activePair.index.write l.nextOffset
          l.activePair.segment.currentSize = (.error (.full l.activePair.index.size
            l.activePair.index.maxBytes), l.activePair.index) := by
        rw [show (l.withSegment s).activePair.index = l.activePair.index from rfl, Index.write,
          hfull]
        rfl
      rw [hw]
      exact ⟨hkeep, h.increasing⟩
    | false =>
      have hw : (l.withSegment s).activePair.index.write l.nextOffset
          l.activePair.segment.currentSize = (.ok (), { l.activePair.index with
            entries := l.activePair.index.entries ++ [⟨l.activePair.index.relative l.nextOffset,
              l.activePair.segment.currentSize⟩] }) := by
        rw [show (l.withSegment s).activePair.index = l.activePair.index from rfl, Index.write,
          hfull]
        rfl
      have hle := hp.rep.base_le_next
      have hnear : l.nextOffset < l.activePair.segment.baseOffset + 2 ^ 32 := by
        rcases hnote with hzero | hdue
        · have hnil := hp.rep.eq_nil_iff_next.mp (hp.rep.eq_nil_iff.mpr hzero)
          have hsame : l.nextOffset = l.activePair.segment.baseOffset := hnil
          omega
        · rcases hreach with hfar | hnear
          · have hdue' : l.config.indexIntervalBytes.toInt ≤
                (l.activePair.bytesSinceIndex + bytes : Nat) := hdue
            omega
          · exact hnear
      have hrel : l.activePair.index.relative l.nextOffset =
          l.nextOffset - l.activePair.segment.baseOffset := by
        have hbe := hp.points.base_eq
        have hle' : l.activePair.segment.baseOffset ≤ l.nextOffset := hle
        rw [Index.relative_eq (by omega) (by omega), hbe]
      rw [hw]
      refine ⟨fun e he => ?_, ?_⟩
      · rcases List.mem_append.mp he with he | he
        · exact hkeep e he
        · rw [List.mem_singleton.mp he]
          exact ⟨l.activePair.segment.batches, c, ds, hrep.batches_eq, hp.rep.size_flatten,
            by rw [hrel, hstart, show (l.withSegment s).activePair.segment = s from rfl, hbase]⟩
      · refine List.pairwise_append.mpr ⟨h.increasing, List.pairwise_singleton _ _, ?_⟩
        intro a ha b hb
        obtain ⟨pre, x, post, hcs, -, harel⟩ := h.entry a ha
        have hx := hp.rep.tiles.mem (x := x) (by rw [hcs]; simp)
        have hlast : l.nextOffset = l.activePair.segment.nextOffset := rfl
        rw [List.mem_singleton.mp hb, harel]
        show _ < l.activePair.index.relative l.nextOffset
        rw [hrel]
        omega
  · exact ⟨hkeep, h.increasing⟩

theorem noteAppend_sealedPairs (l : Log) (offset pos bytes : Nat) :
    (l.noteAppend offset pos bytes).2.sealedPairs = l.sealedPairs := by
  unfold noteAppend
  simp only
  split
  · split <;> rfl
  · rfl

/-- Storing within reach keeps the indexes exact. -/
theorem Ok.store_exact {crc : Checksum} {l : Log} (h : l.Ok crc) (hex : ∀ p ∈ l.pairs, p.Exact)
    {io : Faults} (hio : io.Harmless) {ds : List ByteString} (hds : ∀ c ∈ ds, Stored crc c)
    (hne : ds ≠ []) (leaderEpoch : Int32) (assign : Bool)
    (hkeep : assign = false → ∃ last, BatchTiles l.nextOffset last ds)
    (hreach : l.WithinReach ds.flatten.length) :
    ∀ p ∈ (l.store crc ds.flatten (boundsFrom 0 ds) leaderEpoch assign io).2.pairs, p.Exact := by
  rw [store_eq h.fileAt_next h.strays, hio.write]
  split
  · exact hex
  -- the pair that takes the batches, and what it needs for an entry
  have hland : (∀ p ∈ (l.landing ds.flatten.length).sealedPairs, p.Exact) ∧
      (l.landing ds.flatten.length).activePair.Exact ∧
      (l.landing ds.flatten.length).activePair.Ok crc ∧
      (((l.landing ds.flatten.length).activePair.bytesSinceIndex + ds.flatten.length : Int) <
          (l.landing ds.flatten.length).config.indexIntervalBytes.toInt ∨
        (l.landing ds.flatten.length).nextOffset <
          (l.landing ds.flatten.length).activePair.segment.baseOffset + 2 ^ 32) := by
    unfold landing
    split
    · refine ⟨fun p hp => hex p hp, freshPair_exact _ _, freshPair_ok crc _ h.next_lt, .inr ?_⟩
      show l.nextOffset < l.nextOffset + 2 ^ 32
      omega
    · rename_i hstay
      exact ⟨fun p hp => hex p (List.mem_append_left _ hp), hex _ l.active_mem, h.active,
        hreach.resolve_left hstay⟩
  obtain ⟨hsealed, hactive, hok, hreach⟩ := hland
  have hnext := l.landing_next ds.flatten.length
  generalize l.landing ds.flatten.length = l₁ at hsealed hactive hok hreach hnext ⊢
  have hpairs : ∀ {l' : Log}, l'.sealedPairs = l₁.sealedPairs → l'.activePair.Exact →
      ∀ p ∈ l'.pairs, p.Exact := by
    intro l' hs ha p hp
    rcases List.mem_append.mp hp with hp | hp
    · exact hsealed p (hs ▸ hp)
    · rw [List.mem_singleton.mp hp]
      exact ha
  unfold Log.storeInActive
  rcases appendRawBatches_cases hok.rep hds hne leaderEpoch assign
      (by rwa [show l₁.activePair.segment.nextOffset = l.nextOffset from hnext]) with
    ⟨e, he, -⟩ | ⟨s, he, hrep, hbase, -⟩
  · rw [he]
    exact hpairs rfl hactive
  · have hnoted := exact_noted hok hactive (written_ne_nil hne) hrep hbase ds.flatten.length hreach
    have hsame := (l₁.withSegment s).noteAppend_sealedPairs l₁.nextOffset
      l₁.activePair.segment.currentSize ds.flatten.length
    rw [he]
    show ∀ p ∈ ((l₁.withSegment s).noted l₁.nextOffset l₁.activePair.segment.currentSize
      (offsetsOf ds) ds.flatten.length).2.pairs, p.Exact
    rw [noted_snd]
    exact hpairs hsame hnoted

/-! ## Runs of raw appends -/

inductive RawAppend
  | appendRaw (data : ByteString) (leaderEpoch : Int32)
  | appendReplicaRaw (data : ByteString) (fetchEpoch : Int32)

def RawAppend.call : RawAppend → Call
  | .appendRaw data leaderEpoch => .appendRaw data leaderEpoch
  | .appendReplicaRaw data fetchEpoch => .appendReplicaRaw data fetchEpoch

/-- The bytes that the append would store. -/
def RawAppend.bytes : RawAppend → ByteString
  | .appendRaw data _ => data
  | .appendReplicaRaw data fetchEpoch => (acceptedBatches fetchEpoch (rawBatches data)).flatten

def rawAppend (crc : Checksum) (l : Log) (x : RawAppend × Faults) : Option LogError × Log :=
  l.exec crc (x.1.call, x.2)

/-- No write fails, and the bytes are within reach of the index. -/
def Near (l : Log) (x : RawAppend × Faults) : Prop :=
  x.2.Harmless ∧ l.WithinReach x.1.bytes.length

section RawAppend

variable (crc : Checksum) (l : Log) (data : ByteString) (epoch : Int32) (io : Faults)

theorem rawAppend_appendRaw :
    (l.rawAppend crc (.appendRaw data epoch, io)).2 = (l.appendRaw crc data epoch io).2 := by
  unfold rawAppend RawAppend.call exec
  simp only
  rcases l.appendRaw crc data epoch io with ⟨_ | _, l'⟩ <;> rfl

theorem rawAppend_appendReplicaRaw :
    (l.rawAppend crc (.appendReplicaRaw data epoch, io)).2 =
      (l.appendReplicaRaw crc data epoch io).2 := by
  unfold rawAppend RawAppend.call exec
  simp only
  rcases l.appendReplicaRaw crc data epoch io with ⟨_ | _, l'⟩ <;> rfl

end RawAppend

theorem Ok.rawAppend_exact {crc : Checksum} {l : Log} (h : l.Ok crc)
    (hex : ∀ p ∈ l.pairs, p.Exact) {x : RawAppend × Faults} (hx : l.Near x) :
    ∀ p ∈ (l.rawAppend crc x).2.pairs, p.Exact := by
  obtain ⟨a, io⟩ := x
  obtain ⟨hio, hreach⟩ := hx
  cases a with
  | appendRaw data leaderEpoch =>
    rw [rawAppend_appendRaw]
    rcases appendRaw_cases crc l data leaderEpoch io with ⟨e, he⟩ | ⟨ds, rfl, hne, hvalid, he⟩
    · rw [he]
      exact hex
    · have hstore := h.store_exact hex hio (fun c hc => (hvalid c hc).toStored) hne leaderEpoch
        true (fun hf => by cases hf) hreach
      rw [he]
      revert hstore
      rcases l.store crc ds.flatten (boundsFrom 0 ds) leaderEpoch true io with ⟨_ | _, l'⟩ <;>
        exact id
  | appendReplicaRaw data fetchEpoch =>
    rw [rawAppend_appendReplicaRaw]
    rcases appendReplicaRaw_cases crc l data fetchEpoch io with ⟨r, he, -⟩ | ⟨acc, hacc, he⟩
    · rw [he]
      exact hex
    · obtain ⟨r₁, cache, file, dirty, hassign⟩ :=
        assignLeaderEpochs_frame l (epochStarts none acc) io
      rw [he, hassign]
      cases r₁ with
      | error e => exact hex
      | ok _ =>
        obtain ⟨hstored, hbytes⟩ := hacc.stored
        -- which epochs are cached does not matter for the files
        have hstore := (h.ofEpochs cache file dirty).store_exact hex hio hstored hacc.ne_nil 0
          false (fun _ => hacc.tiles) (hbytes ▸ hreach)
        simp only
        revert hstore
        rcases Log.store crc _ acc.flatten (boundsFrom 0 acc) 0 false io with ⟨_ | _, l'⟩ <;>
          exact id

theorem Ok.rawAppend {crc : Checksum} {l : Log} (h : l.Ok crc) {x : RawAppend × Faults}
    (hio : x.2.Harmless) : (l.rawAppend crc x).2.Ok crc := by
  obtain ⟨a, io⟩ := x
  have hsafe : l.Safe (a.call, io) := by
    cases a with
    | appendRaw data leaderEpoch => exact ⟨hio, trivial⟩
    | appendReplicaRaw data fetchEpoch => exact ⟨hio, trivial⟩
  exact (h.exec hsafe).1

/-- In a run of raw appends within reach, every index entry is the offset of its
batch within the segment, the entries increase, and no lookup lands after the
batch that has the offset. -/
theorem index_entries_exact {crc : Checksum} {config : LogConfig} {io : Faults} {l : Log}
    (hnew : newLog crc config [] none io = .ok l) (appends : List (RawAppend × Faults))
    (hg : Runs.Guarded (Log.rawAppend crc) Near l appends) :
    ∀ p ∈ (Runs.final (Log.rawAppend crc) l appends).pairs, p.Exact ∧
      ∀ offset, p.segment.baseOffset ≤ offset → offset < p.segment.nextOffset →
        ∃ pos pre c post, p.index.lookup offset = .ok pos ∧
          p.segment.batches = pre ++ c :: post ∧ baseOffset c ≤ offset ∧ offset < endOffset c ∧
          pos ≤ pre.flatten.length := by
  have hfresh : ∀ p ∈ l.pairs, p.Exact := by
    rw [newLog_nil] at hnew
    cases hnew
    intro p hp
    rw [List.mem_singleton.mp hp]
    exact freshPair_exact _ _
  obtain ⟨hok, hex⟩ := Runs.invariant_guarded (Log.rawAppend crc)
    (P := fun l => l.Ok crc ∧ ∀ p ∈ l.pairs, p.Exact) (G := Near)
    (fun _ _ h hs => ⟨h.1.rawAppend hs.1, h.1.rawAppend_exact h.2 hs⟩)
    ⟨(newLog_ok hnew).1, hfresh⟩ appends hg
  exact fun p hp => ⟨hex p hp, fun offset hlo hhi => (hex p hp).lookup (hok.pair p hp) hlo hhi⟩

/-- A leader's append and a replica's, in one segment. -/
def nearRun : List (RawAppend × Faults) :=
  [(.appendRaw (sampleRequest 2) 1, .none),
    (.appendReplicaRaw (stamp 1 2 (sampleRequest 1)) 1, .none)]

theorem index_entries_exact_nearRun :
    (Runs.final (Log.rawAppend crc32c) (fresh denseConfig) nearRun).activePair.index.entries =
        [⟨0, 0⟩, ⟨2, 138⟩] ∧
      (Runs.final (Log.rawAppend crc32c) (fresh denseConfig) nearRun).activePair.Exact := by
  refine ⟨by decide +kernel, (index_entries_exact (newLog_nil crc32c denseConfig .none) nearRun
    ?_ _ (active_mem _)).1⟩
  exact ⟨⟨Faults.none_harmless, by decide +kernel⟩, ⟨Faults.none_harmless, by decide +kernel⟩,
    trivial⟩

def farRun : List (RawAppend × Faults) := List.replicate 4 (.appendRaw hugeBatch 0, .none)

def farLog : Log := Runs.final (Log.rawAppend crc32c) (fresh denseConfig) farRun

/-- Four appends of 61 bytes: the fourth entry has lost `2^32`, a lookup of an
offset of the third batch lands on the fourth, and a read at that offset fails. -/
theorem index_entry_truncated :
    newLog crc32c denseConfig [] none .none = .ok (fresh denseConfig) ∧
      Runs.outputs (Log.rawAppend crc32c) (fresh denseConfig) farRun = [none, none, none, none] ∧
      farLog.activePair.segment.batches.map baseOffset =
        [0, 2147483647, 4294967294, 6442450941] ∧
      farLog.activePair.index.entries.map (·.relOffset) =
        [0, 2147483647, 4294967294, 2147483645] ∧
      farLog.activePair.index.entries.map (·.filePos) = [0, 61, 122, 183] ∧
      farLog.activePair.index.lookup 4294967294 = .ok 183 ∧
      farLog.readRaw 4294967294 1000 = .error (.gap 4294967294 6442450941) := by
  refine ⟨newLog_nil crc32c denseConfig .none, ?_⟩
  decide +kernel

end Log

end MessageBroker.Storage
