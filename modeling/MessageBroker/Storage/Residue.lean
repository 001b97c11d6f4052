import MessageBroker.Storage.Crash

/-!
# Bytes that failed writes leave behind

A segment write that fails leaves what it wrote beyond the recorded size. The log
in memory never looks at these bytes: it runs as the log without them, which the
first half shows call by call. Recovery does look at them. It goes on after the
last batch as long as it finds an intact one, so a log reopens as it was exactly
if no segment has an intact batch at its recorded end.
-/
namespace MessageBroker.Storage

open Lib.Bytes Lib.Tiling Lib

/-! ## The log without the residue -/

/-- The segment without the bytes beyond its recorded size. -/
def Segment.trimmed (s : Segment) : Segment :=
  { s with
    file := s.file.take s.currentSize }

def SegmentPair.trimmed (p : SegmentPair) : SegmentPair :=
  { p with
    segment := p.segment.trimmed }

/-- The faults of a call whose failing write leaves nothing. -/
def Faults.quiet (io : Faults) : Faults :=
  { io with
    writeFails := io.writeFails.map fun _ => 0
    removeFails := fun _ => false }

namespace Log

def trimmed (l : Log) : Log :=
  { l with
    sealedPairs := l.sealedPairs.map SegmentPair.trimmed
    activePair := l.activePair.trimmed }

/-- Every segment file has at least the recorded bytes. -/
def Wide (l : Log) : Prop := ∀ p ∈ l.pairs, p.segment.currentSize ≤ p.segment.file.length

/-- The second result is the first one without its residue. -/
def Shadows {α : Type*} (x y : α × Log) : Prop := y = (x.1, x.2.trimmed) ∧ x.2.Wide

theorem pairs_trimmed (l : Log) : l.trimmed.pairs = l.pairs.map SegmentPair.trimmed := by
  simp [pairs, trimmed]

theorem batches_trimmed (l : Log) : l.trimmed.batches = l.batches := by
  have hb : ∀ p : SegmentPair, p.trimmed.segment.batches = p.segment.batches := by
    intro p
    show splitBatches p.segment.currentSize
      ((p.segment.file.take p.segment.currentSize).take p.segment.currentSize) = _
    rw [List.take_take, Nat.min_self]
    rfl
  rw [batches, batches, pairs_trimmed, List.flatMap_map]
  exact List.flatMap_congr fun p _ => hb p

theorem segments_trimmed (l : Log) : l.trimmed.segments = l.segments.map Segment.trimmed := by
  rw [segments, segments, pairs_trimmed, List.map_map, List.map_map]
  rfl

end Log

/-! ## A call on the log shadows the call on the trimmed log -/

section Segments

variable {crc : Checksum} {s : Segment} {ds : List ByteString}

theorem stampLoop_length (hds : ∀ c ∈ ds, Stored crc c) {leaderEpoch : Int32} {assign : Bool}
    {offset last : Nat} {buf : ByteString}
    (h : stampLoop leaderEpoch assign (boundsFrom 0 ds) ds.flatten offset = some (buf, last)) :
    buf.length = ds.flatten.length := by
  cases assign with
  | true =>
    have hbuf : buf = [] ++ (stampAll leaderEpoch offset ds).flatten :=
      (stampLoop_assign [] hds h).1
    rw [hbuf]
    exact length_flatten_stampAll hds
  | false => rw [(stampLoop_keep h).1]

/-- A raw append to a segment, with its residue and without. -/
theorem Segment.appendRawBatches_trimmed (hs : s.currentSize ≤ s.file.length)
    (hds : ∀ c ∈ ds, Stored crc c) (leaderEpoch : Int32) (assign : Bool) (fault : Option Nat) :
    ∃ r s', s.appendRawBatches ds.flatten (boundsFrom 0 ds) leaderEpoch assign fault = (r, s') ∧
      s.trimmed.appendRawBatches ds.flatten (boundsFrom 0 ds) leaderEpoch assign
        (fault.map fun _ => 0) = (r, s'.trimmed) ∧
      s'.currentSize ≤ s'.file.length := by
  unfold Segment.appendRawBatches
  by_cases hfull : 0 < s.currentSize ∧ s.maxSize.toInt < s.currentSize + ds.flatten.length
  · exact ⟨_, _, if_pos hfull, if_pos hfull, hs⟩
  rw [if_neg hfull, if_neg (show ¬ (0 < s.trimmed.currentSize ∧
    s.trimmed.maxSize.toInt < s.trimmed.currentSize + ds.flatten.length) from hfull)]
  have hsame : (if assign then some s.trimmed.nextOffset
      else (boundsFrom 0 ds).head?.map (·.baseOffset)) =
        (if assign then some s.nextOffset else (boundsFrom 0 ds).head?.map (·.baseOffset)) := rfl
  rw [hsame]
  cases (if assign then some s.nextOffset else (boundsFrom 0 ds).head?.map (·.baseOffset)) with
  | none => exact ⟨_, _, rfl, rfl, hs⟩
  | some assigned =>
    simp only
    cases hst : stampLoop leaderEpoch assign (boundsFrom 0 ds) ds.flatten assigned with
    | none => exact ⟨_, _, rfl, rfl, hs⟩
    | some x =>
      obtain ⟨buf, last⟩ := x
      have hlen := stampLoop_length hds hst
      cases fault with
      | none =>
        refine ⟨_, _, rfl, ?_, hlen ▸ le_length_writeAt⟩
        have hfile : (writeAt s.file s.currentSize buf).take (s.currentSize + ds.flatten.length) =
            writeAt (s.file.take s.currentSize) s.currentSize buf := by
          rw [← hlen, take_writeAt hs, writeAt_take hs]
        simp only [Segment.write, Segment.trimmed, Option.map_none, hfile]
      | some k =>
        have hk : s.currentSize ≤ (writeAt s.file s.currentSize (buf.take k)).length :=
          (Nat.le_add_right _ _).trans le_length_writeAt
        refine ⟨_, _, rfl, ?_, hk⟩
        have hfile : (writeAt s.file s.currentSize (buf.take k)).take s.currentSize =
            writeAt (s.file.take s.currentSize) s.currentSize (buf.take 0) := by
          rw [take_writeAt_before hs, writeAt_take hs, List.take_zero, List.append_nil]
        simp only [Segment.write, Segment.trimmed, Option.map_some, hfile]

theorem Segment.pos_of_segmentFull {data : ByteString} {bounds : List BatchBounds}
    {leaderEpoch : Int32} {assign : Bool} {fault : Option Nat} {s' : Segment}
    (h : s.appendRawBatches data bounds leaderEpoch assign fault = (.error .segmentFull, s')) :
    0 < s.currentSize := by
  unfold Segment.appendRawBatches at h
  split at h
  · rename_i hfull
    exact hfull.1
  · split at h
    · cases h
    split at h
    · cases h
    cases fault <;> cases h

end Segments

namespace Log

section Calls

variable {crc : Checksum} {l : Log}

/-- The log without its residue is well formed, and rolls only full segments. -/
structure Clean (crc : Checksum) (l : Log) : Prop where
  ok : l.trimmed.Ok crc
  roomy : l.trimmed.Roomy
  wide : l.Wide

theorem Wide.active (h : l.Wide) :
    l.activePair.segment.currentSize ≤ l.activePair.segment.file.length :=
  h _ l.active_mem

theorem Wide.withSegment (h : l.Wide) {s : Segment} (hs : s.currentSize ≤ s.file.length) :
    (l.withSegment s).Wide := by
  intro p hp
  rcases List.mem_append.mp hp with hp | hp
  · exact h p (List.mem_append_left _ hp)
  · rw [List.mem_singleton.mp hp]
    exact hs

theorem Wide.rolled (h : l.Wide) : l.rolled.Wide := by
  intro p hp
  rcases List.mem_append.mp hp with hp | hp
  · exact h p hp
  · rw [List.mem_singleton.mp hp]
    exact Nat.le_refl 0

theorem rolled_trimmed (l : Log) : l.rolled.trimmed = l.trimmed.rolled := by
  simp only [rolled, trimmed, List.map_append, List.map_cons, List.map_nil]
  rfl

/-- Only an empty segment shares its file with the next one, and those are never
sealed. -/
theorem Clean.fileAt_next (h : l.Clean crc) (hne : l.trimmed.activePair.segment.batches ≠ []) :
    l.fileAt l.nextOffset = [] := by
  have hstrays : l.strays = [] := h.ok.strays
  unfold fileAt
  cases hf : l.pairs.reverse.find? (fun p => p.segment.baseOffset == l.nextOffset) with
  | none =>
    rw [hstrays]
    rfl
  | some p =>
    exfalso
    have hp : p ∈ l.pairs := List.mem_reverse.mp (List.mem_of_find?_eq_some hf)
    have hbase : p.segment.baseOffset = l.nextOffset := by simpa using List.find?_some hf
    have hmem : p.trimmed ∈ l.trimmed.pairs := by
      rw [pairs_trimmed]
      exact List.mem_map_of_mem hp
    have hrange := h.ok.linked.mem hmem
    have hle : p.trimmed.segment.nextOffset ≤ p.trimmed.segment.baseOffset :=
      hrange.2.2.trans (Nat.le_of_eq hbase.symm)
    have hnil := (h.ok.pair _ hmem).rep.eq_nil_iff_next.mpr (Nat.le_antisymm hle hrange.2.1)
    rcases List.mem_append.mp hmem with hs | ha
    · exact h.roomy.nonempty _ hs hnil
    · rw [List.mem_singleton.mp ha] at hnil
      exact hne hnil

theorem Clean.roll (h : l.Clean crc) (hne : l.trimmed.activePair.segment.batches ≠ [])
    (io : Faults) : Shadows (l.roll crc io) (l.trimmed.roll crc io.quiet) := by
  rw [roll_fresh crc (h.fileAt_next hne) h.ok.strays, roll_fresh crc h.ok.fileAt_next h.ok.strays]
  show Shadows _ (if io.rollFails then _ else _)
  cases io.rollFails with
  | true => exact ⟨rfl, h.wide⟩
  | false => exact ⟨by rw [← rolled_trimmed]; rfl, h.wide.rolled⟩

theorem Clean.rollIfFull (h : l.Clean crc) (io : Faults) :
    Shadows (l.rollIfFull crc io) (l.trimmed.rollIfFull crc io.quiet) := by
  unfold Log.rollIfFull
  by_cases hfull : (l.activePair.segment.isFull || l.activePair.index.isFull) = true
  · rw [if_pos hfull, if_pos (show (l.trimmed.activePair.segment.isFull ||
      l.trimmed.activePair.index.isFull) = true from hfull)]
    exact h.roll (h.ok.nonempty_of_full hfull h.roomy) io
  · rw [if_neg hfull, if_neg (show ¬ (l.trimmed.activePair.segment.isFull ||
      l.trimmed.activePair.index.isFull) = true from hfull)]
    exact ⟨rfl, h.wide⟩

theorem noteAppend_shadows (h : l.Wide) (offset pos bytes : Nat) :
    Shadows (l.noteAppend offset pos bytes) (l.trimmed.noteAppend offset pos bytes) := by
  have hpair : ∀ (idx : Index) (n : Nat),
      Log.Wide { l with activePair := ⟨l.activePair.segment, idx, n⟩ } := by
    intro idx n p hp
    rcases List.mem_append.mp hp with hp | hp
    · exact h p (List.mem_append_left _ hp)
    · rw [List.mem_singleton.mp hp]
      exact h.active
  have hidx : l.trimmed.activePair.index = l.activePair.index := rfl
  have hbytes : l.trimmed.activePair.bytesSinceIndex = l.activePair.bytesSinceIndex := rfl
  have hcfg : l.trimmed.config = l.config := rfl
  unfold noteAppend
  simp only [hidx, hbytes, hcfg]
  by_cases hdue : pos = 0 ∨
      l.config.indexIntervalBytes.toInt ≤ (l.activePair.bytesSinceIndex + bytes : Nat)
  · rw [if_pos hdue, if_pos hdue]
    cases l.activePair.index.write offset pos with
    | mk r idx =>
      cases r with
      | error e => exact ⟨rfl, hpair _ _⟩
      | ok _ => exact ⟨rfl, hpair _ _⟩
  · rw [if_neg hdue, if_neg hdue]
    exact ⟨rfl, hpair _ _⟩

section Store

variable {ds : List ByteString} (hds : ∀ c ∈ ds, Stored crc c) (leaderEpoch : Int32)
  (assign : Bool) (io : Faults)

include hds

theorem Clean.store (h : l.Clean crc) :
    Shadows (l.store crc ds.flatten (boundsFrom 0 ds) leaderEpoch assign io)
      (l.trimmed.store crc ds.flatten (boundsFrom 0 ds) leaderEpoch assign io.quiet) := by
  -- the index entry of a successful append
  have hnote : ∀ (m : Log) (s : Segment) (assigned pos total : Nat), m.Wide →
      s.currentSize ≤ s.file.length →
      Shadows ((m.withSegment s).noted assigned pos total ds.flatten.length)
        ((m.trimmed.withSegment s.trimmed).noted assigned pos total ds.flatten.length) := by
    intro m s assigned pos total hm hs
    unfold noted
    obtain ⟨he, hw⟩ := noteAppend_shadows (hm.withSegment hs) assigned pos ds.flatten.length
    have he : (m.trimmed.withSegment s.trimmed).noteAppend assigned pos ds.flatten.length =
      (((m.withSegment s).noteAppend assigned pos ds.flatten.length).1,
        ((m.withSegment s).noteAppend assigned pos ds.flatten.length).2.trimmed) := he
    rw [he]
    revert hw
    cases (m.withSegment s).noteAppend assigned pos ds.flatten.length with
    | mk r l' => cases r <;> exact fun hw => ⟨rfl, hw⟩
  unfold Log.store
  obtain ⟨hroll, hwide⟩ := h.rollIfFull io
  obtain ⟨r₀, l₀, hquiet, hx, -⟩ := rollIfFull_cases h.ok io.quiet
  cases hr₁ : l.rollIfFull crc io with
  | mk r₁ l₁ =>
    rw [hr₁] at hroll hwide
    simp only at hroll hwide
    obtain ⟨-, rfl⟩ := Prod.mk.inj (hquiet.symm.trans hroll)
    have h₁ : l₁.Clean crc := ⟨hx.ok, hx.roomy h.roomy, hwide⟩
    rw [hroll]
    cases r₁ with
    | error e => exact ⟨rfl, hwide⟩
    | ok _ =>
      simp only
      obtain ⟨r, s, he, het, hs⟩ := Segment.appendRawBatches_trimmed hwide.active hds leaderEpoch
        assign io.writeFails
      have het : l₁.trimmed.activePair.segment.appendRawBatches ds.flatten (boundsFrom 0 ds)
        leaderEpoch assign io.quiet.writeFails = (r, s.trimmed) := het
      rw [he, het]
      cases r with
      | ok x => exact hnote l₁ s _ _ _ hwide hs
      | error e =>
        by_cases hfull : e = .segmentFull
        · subst hfull
          have hpos := Segment.pos_of_segmentFull he
          have hne : l₁.trimmed.activePair.segment.batches ≠ [] := by
            intro hnil
            have : l₁.activePair.segment.currentSize = 0 := h₁.ok.active.rep.eq_nil_iff.mp hnil
            omega
          obtain ⟨hroll₂, hwide₂⟩ := h₁.roll hne io
          cases hr₂ : l₁.roll crc io with
          | mk r₂ l₂ =>
            rw [hr₂] at hroll₂ hwide₂
            simp only at hroll₂ hwide₂
            rw [hroll₂]
            cases r₂ with
            | error e => exact ⟨rfl, hwide₂⟩
            | ok _ =>
              simp only
              obtain ⟨r, s, he, het, hs⟩ := Segment.appendRawBatches_trimmed hwide₂.active hds
                leaderEpoch assign io.writeFails
              have het : l₂.trimmed.activePair.segment.appendRawBatches ds.flatten
                (boundsFrom 0 ds) leaderEpoch assign io.quiet.writeFails = (r, s.trimmed) := het
              rw [he, het]
              cases r with
              | ok x => exact hnote l₂ s _ _ _ hwide₂ hs
              | error e => exact ⟨rfl, hwide₂.withSegment hs⟩
        · cases e <;> first
            | exact absurd rfl hfull
            | exact ⟨rfl, hwide.withSegment hs⟩

end Store

/-- A write of no bytes that fails leaves a well-formed log as it was, but for a
roll before it. -/
theorem Ok.store_fault (h : l.Ok crc) {io : Faults} (hio : io.writeFails = some 0)
    (data : ByteString) (bounds : List BatchBounds) (leaderEpoch : Int32) (assign : Bool) :
    ∃ e l', l.store crc data bounds leaderEpoch assign io = (.error e, l') ∧
      Log.Extends crc l l' [] := by
  have hattempt : ∀ m : Log, m.Ok crc → ∃ e, m.activePair.segment.appendRawBatches data bounds
      leaderEpoch assign (some 0) = (.error e, m.activePair.segment) := by
    intro m hm
    unfold Segment.appendRawBatches
    split
    · exact ⟨_, rfl⟩
    split
    · exact ⟨_, rfl⟩
    split
    · exact ⟨_, rfl⟩
    refine ⟨.write, ?_⟩
    have hsame : writeAt m.activePair.segment.file m.activePair.segment.currentSize [] =
        m.activePair.segment.file := by
      rw [hm.active.rep.size_eq, writeAt_length, List.append_nil]
    simp only [Segment.write, List.take_zero, hsame]
  unfold Log.store
  simp only [hio]
  obtain ⟨r₁, l₁, hr, hx, -⟩ := rollIfFull_cases h io
  rw [hr]
  cases r₁ with
  | error e => exact ⟨_, l₁, rfl, hx⟩
  | ok _ =>
    simp only
    obtain ⟨e, he⟩ := hattempt l₁ hx.ok
    rw [he]
    by_cases hfull : e = .segmentFull
    · subst hfull
      have hpos := Segment.pos_of_segmentFull he
      have hne : l₁.activePair.segment.batches ≠ [] := by
        intro hnil
        have := hx.ok.active.rep.eq_nil_iff.mp hnil
        omega
      simp only
      rcases roll_cases hx.ok io with ⟨e, hroll⟩ | hroll
      · rw [hroll]
        exact ⟨_, l₁, rfl, hx⟩
      · rw [hroll]
        have hx₂ := hx.trans (hx.ok.rolled fun _ => hne)
        obtain ⟨e, he⟩ := hattempt l₁.rolled hx₂.ok
        simp only [he]
        exact ⟨_, l₁.rolled, rfl, hx₂⟩
    · cases e <;> first
        | exact absurd rfl hfull
        | exact ⟨_, l₁, rfl, hx⟩

/-- Storing batches, with any write failing anywhere: an error and the batches as
before, or they are all there. -/
theorem Clean.store_step (h : l.Clean crc) {ds : List ByteString} (hds : ∀ c ∈ ds, Stored crc c)
    (hne : ds ≠ []) (leaderEpoch : Int32) (assign : Bool)
    (hkeep : assign = false → ∃ last, BatchTiles l.nextOffset last ds) (io : Faults) :
    ∃ r l', l.store crc ds.flatten (boundsFrom 0 ds) leaderEpoch assign io = (r, l') ∧
      l'.Clean crc ∧
      ((∃ e, r = .error e) ∧ l'.batches = l.batches ∨
        r = .ok (l.nextOffset, offsetsOf ds) ∧
          l'.batches = l.batches ++ written assign leaderEpoch l.nextOffset ds) := by
  obtain ⟨hs, hwide⟩ := h.store hds leaderEpoch assign io
  cases he : l.store crc ds.flatten (boundsFrom 0 ds) leaderEpoch assign io with
  | mk r l' =>
    rw [he] at hs hwide
    have hclean : ∀ {cs : List ByteString}, Log.Extends crc l.trimmed l'.trimmed cs →
        l'.Clean crc ∧ l'.batches = l.batches ++ cs := by
      intro cs hx
      refine ⟨⟨hx.ok, hx.roomy h.roomy, hwide⟩, ?_⟩
      rw [← batches_trimmed, hx.batches, batches_trimmed]
    refine ⟨r, l', rfl, ?_⟩
    cases hf : io.writeFails with
    | none =>
      have hio : io.quiet.Harmless := ⟨by rw [Faults.quiet, hf]; rfl, fun _ => rfl⟩
      obtain ⟨r₀, l₀, he₀, hcase⟩ := h.ok.store hio hds hne leaderEpoch assign hkeep
      obtain ⟨rfl, rfl⟩ := Prod.mk.inj (he₀.symm.trans hs)
      rcases hcase with ⟨hr, hx⟩ | ⟨hx, hr, hroom⟩
      · exact ⟨(hclean hx).1, .inl ⟨hr, by simpa using (hclean hx).2⟩⟩
      · obtain ⟨x, rfl⟩ := hroom h.roomy
        exact ⟨(hclean hx).1, .inr ⟨by rw [hr x rfl]; rfl, (hclean hx).2⟩⟩
    | some k =>
      have hio : io.quiet.writeFails = some 0 := by rw [Faults.quiet, hf]; rfl
      obtain ⟨e, l₀, he₀, hx⟩ := h.ok.store_fault hio ds.flatten (boundsFrom 0 ds)
        leaderEpoch assign
      obtain ⟨rfl, rfl⟩ := Prod.mk.inj (he₀.symm.trans hs)
      exact ⟨(hclean hx).1, .inl ⟨⟨e, rfl⟩, by simpa using (hclean hx).2⟩⟩

/-- The batches of a call that answered without an error. -/
def answered (crc : Checksum) (l : Log) (x : Call × Faults) : List ByteString :=
  match x.1 with
  | .appendRaw data leaderEpoch =>
      match (l.appendRaw crc data leaderEpoch x.2).1 with
      | .ok (first, _) => stampAll leaderEpoch first (rawBatches data)
      | .error _ => []
  | .appendReplicaRaw data fetchEpoch =>
      match (l.appendReplicaRaw crc data fetchEpoch x.2).1 with
      | .ok _ => acceptedBatches fetchEpoch (rawBatches data)
      | .error _ => []
  | _ => []

theorem Clean.appendRaw (h : l.Clean crc) (data : ByteString) (leaderEpoch : Int32)
    (io : Faults) :
    (l.appendRaw crc data leaderEpoch io).2.Clean crc ∧
      (l.appendRaw crc data leaderEpoch io).2.batches =
        l.batches ++ l.answered crc (.appendRaw data leaderEpoch, io) := by
  unfold answered
  simp only
  rcases appendRaw_cases crc l data leaderEpoch io with ⟨e, he⟩ | ⟨ds, rfl, hne, hvalid, he⟩
  · rw [he]
    exact ⟨h, (List.append_nil _).symm⟩
  have hst : ∀ c ∈ ds, Stored crc c := fun c hc => (hvalid c hc).toStored
  obtain ⟨r, l', hs, hclean, hcase⟩ := h.store_step hst hne leaderEpoch true
    (fun hf => by cases hf) io
  rw [he, hs]
  rcases hcase with ⟨⟨e, rfl⟩, hb⟩ | ⟨rfl, hb⟩
  · exact ⟨hclean, by simpa using hb⟩
  · refine ⟨hclean, ?_⟩
    simp only [rawBatches_flatten hst]
    exact hb

theorem Clean.appendReplicaRaw (h : l.Clean crc) (data : ByteString) (fetchEpoch : Int32)
    (io : Faults) :
    (l.appendReplicaRaw crc data fetchEpoch io).2.Clean crc ∧
      (l.appendReplicaRaw crc data fetchEpoch io).2.batches =
        l.batches ++ l.answered crc (.appendReplicaRaw data fetchEpoch, io) := by
  unfold answered
  simp only
  rcases appendReplicaRaw_cases crc l data fetchEpoch io with ⟨r, he, -, hr⟩ | ⟨acc, hacc, he⟩
  · rw [he]
    refine ⟨h, ?_⟩
    cases r with
    | error e => exact (List.append_nil _).symm
    | ok n =>
      simp only [(hr n rfl).2]
      exact (List.append_nil _).symm
  obtain ⟨r₁, cache, file, dirty, hassign⟩ :=
    assignLeaderEpochs_frame l (epochStarts none acc) io
  have h₁ : Clean crc { l with
      epochCache := cache
      checkpoint := file
      epochCheckpointDirty := dirty } :=
    ⟨h.ok.ofEpochs cache file dirty, h.roomy.ofEpochs cache file dirty, h.wide⟩
  rw [he, hassign]
  cases r₁ with
  | error e => exact ⟨h₁, (List.append_nil _).symm⟩
  | ok _ =>
    obtain ⟨r, l', hs, hclean, hcase⟩ := h₁.store_step hacc.stored.1 hacc.ne_nil 0 false
      (fun _ => hacc.tiles) io
    simp only [hs]
    rcases hcase with ⟨⟨e, rfl⟩, hb⟩ | ⟨rfl, hb⟩
    · exact ⟨hclean, hb.trans (List.append_nil _).symm⟩
    · refine ⟨hclean, ?_⟩
      simp only [hacc.stored.2]
      exact hb

end Calls

/-- The raw appends. -/
def RawCall (c : Call) : Prop :=
  match c with
  | .appendRaw _ _ => True
  | .appendReplicaRaw _ _ => True
  | _ => False

/-- A raw append, with any of its file operations failing, adds the batches of its
answer. -/
theorem Clean.exec {crc : Checksum} {l : Log} (h : l.Clean crc) {x : Call × Faults}
    (hx : RawCall x.1) :
    (l.exec crc x).2.Clean crc ∧ (l.exec crc x).2.batches = l.batches ++ l.answered crc x := by
  obtain ⟨c, io⟩ := x
  cases c with
  | append batch => cases hx
  | appendRaw data leaderEpoch =>
    have hstep := h.appendRaw data leaderEpoch io
    unfold Log.exec
    simp only
    revert hstep
    generalize l.appendRaw crc data leaderEpoch io = y
    obtain ⟨r, l'⟩ := y
    cases r <;> exact id
  | appendReplicaRaw data fetchEpoch =>
    have hstep := h.appendReplicaRaw data fetchEpoch io
    unfold Log.exec
    simp only
    revert hstep
    generalize l.appendReplicaRaw crc data fetchEpoch io = y
    obtain ⟨r, l'⟩ := y
    cases r <;> exact id
  | truncateTo offset => cases hx
  | reopen config => cases hx

end Log

/-! ## Recovery goes on into the residue -/

theorem intactBatchAt_bounds {crc : Checksum} {file : ByteString} {pos size lod : Nat}
    (h : intactBatchAt crc file pos = .ok (some (size, lod))) :
    21 ≤ size ∧ pos + size ≤ file.length := by
  unfold intactBatchAt at h
  split at h
  · cases h
  simp only at h
  split at h
  · cases h
  rename_i hfit
  split at h
  · cases h
  split at h
  · cases h
  rename_i hsize
  split at h
  · cases h
  split at h
  · cases h
  · cases h
    omega

theorem recoverLoop_bounds {crc : Checksum} {file : ByteString} :
    ∀ {fuel pos next pos' next' : Nat}, pos ≤ file.length →
      recoverLoop crc file fuel pos next = .ok (pos', next') → pos ≤ pos' ∧ pos' ≤ file.length := by
  intro fuel
  induction fuel with
  | zero =>
    intro pos next pos' next' hpos h
    cases h
    exact ⟨Nat.le_refl _, hpos⟩
  | succ fuel ih =>
    intro pos next pos' next' hpos h
    rw [recoverLoop] at h
    split at h
    · split at h
      · cases h
      · cases h
        exact ⟨Nat.le_refl _, hpos⟩
      · rename_i size lod hintact
        have hb := intactBatchAt_bounds hintact
        have hrec := ih hb.2 h
        omega
    · cases h
      exact ⟨Nat.le_refl _, hpos⟩

/-- What recovery makes of a segment file: the batches, and more exactly if there
is an intact batch after them. -/
structure Segment.RecoversAs (crc : Checksum) (maxSize : Int64) (s t : Segment) : Prop where
  length_eq : t.file.length = t.currentSize
  size_le : s.currentSize ≤ t.currentSize
  noBatch : t.currentSize = s.currentSize → NoBatch crc s.file s.currentSize
  trimmed : NoBatch crc s.file s.currentSize → t = s.trimmed.resized maxSize

theorem newSegment_residue {crc : Checksum} {s t : Segment} {cs : List ByteString}
    (h : s.trimmed.Rep crc cs) (hs : s.currentSize ≤ s.file.length) {maxSize : Int64}
    (ht : newSegment crc s.file s.baseOffset maxSize = .ok t) : s.RecoversAs crc maxSize t := by
  have hfile : cs.flatten = s.file.take s.currentSize := h.file_eq.symm
  have hsize : cs.flatten.length = s.currentSize := h.size_flatten.symm
  have hsplit : s.file = cs.flatten ++ s.file.drop s.currentSize := by
    rw [hfile, List.take_append_drop]
  have hresized : NoBatch crc s.file s.currentSize → t = s.trimmed.resized maxSize := by
    intro hno
    rw [hsplit, ← hsize] at hno
    have hopen := newSegment_stored h.stored h.tiles h.next_lt hno maxSize
    rw [hsize, ← hsplit] at hopen
    obtain rfl := Except.ok.inj (hopen.symm.trans ht)
    rw [hfile]
    rfl
  by_cases hno : NoBatch crc s.file s.currentSize
  · rw [hresized hno]
    have hlen : s.trimmed.file.length = s.currentSize := by
      rw [Segment.trimmed, List.length_take]
      omega
    exact ⟨hlen, Nat.le_refl _, fun _ => hno, fun _ => rfl⟩
  have hmore : s.currentSize < s.file.length := Nat.lt_of_not_le fun hle => hno (.inl hle)
  -- the loop stands at the recorded end with fuel left
  have hcs : cs.length + 1 ≤ s.file.length := by
    have : cs.length ≤ s.currentSize := h.length_le
    omega
  obtain ⟨fuel, hfuel⟩ := Nat.exists_eq_add_of_le hcs
  have hpast : recoverLoop crc s.file s.file.length 0 s.baseOffset =
      recoverLoop crc s.file (fuel + 1) s.currentSize s.nextOffset := by
    have hloop : recoverLoop crc (cs.flatten ++ s.file.drop s.currentSize)
        (cs.length + (fuel + 1)) 0 s.baseOffset =
          recoverLoop crc (cs.flatten ++ s.file.drop s.currentSize) (fuel + 1) cs.flatten.length
            s.nextOffset := recoverLoop_past [] (fuel + 1) s.baseOffset h.stored h.tiles h.next_lt
    rw [← hsplit, hsize] at hloop
    rw [← hloop, hfuel]
    congr 1
    omega
  unfold newSegment at ht
  rw [if_neg (by omega), hpast, recoverLoop, if_pos hmore] at ht
  cases hint : intactBatchAt crc s.file s.currentSize with
  | error e =>
    rw [hint] at ht
    cases ht
  | ok found =>
    cases found with
    | none => exact absurd (.inr hint) hno
    | some x =>
      obtain ⟨size, lod⟩ := x
      have hb := intactBatchAt_bounds hint
      rw [hint] at ht
      simp only at ht
      split at ht
      · cases ht
      rename_i pos' next' hrec
      have hle := recoverLoop_bounds hb.2 hrec
      split at ht
      · cases ht
      · cases ht
        refine ⟨?_, by show s.currentSize ≤ pos'; omega, fun he => ?_, fun h => absurd h hno⟩
        · show (s.file.take pos').length = pos'
          rw [List.length_take]
          omega
        · have he : pos' = s.currentSize := he
          omega

section Recovered

variable {crc : Checksum} {maxSize : Int64} {ss ts : List Segment}

/-- Recovery that finds no byte too many found no batch too many. -/
theorem noBatch_of_sum (h : List.Forall₂ (Segment.RecoversAs crc maxSize) ss ts) :
    (ss.map Segment.currentSize).sum ≤ (ts.map Segment.currentSize).sum ∧
      ((ts.map Segment.currentSize).sum = (ss.map Segment.currentSize).sum →
        ∀ s ∈ ss, NoBatch crc s.file s.currentSize) := by
  induction h with
  | nil => exact ⟨Nat.le_refl _, fun _ s hs => absurd hs List.not_mem_nil⟩
  | cons hst _ ih =>
    obtain ⟨hle, hno⟩ := ih
    have := hst.size_le
    simp only [List.map_cons, List.sum_cons]
    refine ⟨by omega, fun hsum => List.forall_mem_cons.mpr ⟨hst.noBatch (by omega), ?_⟩⟩
    exact hno (by omega)

theorem recovered_wide (h : List.Forall₂ (Segment.RecoversAs crc maxSize) ss ts) :
    ∀ t ∈ ts, t.currentSize ≤ t.file.length := by
  induction h with
  | nil => exact fun t ht => absurd ht List.not_mem_nil
  | cons hst _ ih => exact List.forall_mem_cons.mpr ⟨Nat.le_of_eq hst.length_eq.symm, ih⟩

theorem recovered_eq (h : List.Forall₂ (Segment.RecoversAs crc maxSize) ss ts)
    (hno : ∀ s ∈ ss, NoBatch crc s.file s.currentSize) :
    ts = (ss.map Segment.trimmed).map (Segment.resized maxSize) := by
  induction h with
  | nil => rfl
  | cons hst _ ih =>
    rw [hst.trimmed (hno _ List.mem_cons_self), ih fun x hx => hno x (List.mem_cons_of_mem _ hx)]
    rfl

end Recovered

/-- The batches of segments have their recorded bytes. -/
theorem length_flatten_batches {ss : List Segment}
    (h : ∀ s ∈ ss, s.currentSize ≤ s.file.length) :
    (ss.flatMap Segment.batches).flatten.length = (ss.map Segment.currentSize).sum := by
  induction ss with
  | nil => rfl
  | cons s ss ih =>
    have hs := h s List.mem_cons_self
    have hlen : (s.file.take s.currentSize).length = s.currentSize := by
      rw [List.length_take]
      omega
    have hflat : s.batches.flatten = s.file.take s.currentSize :=
      flatten_splitBatches _ _ (Nat.le_of_eq hlen)
    rw [List.flatMap_cons, List.flatten_append, List.length_append, hflat, hlen,
      ih fun x hx => h x (List.mem_cons_of_mem _ hx), List.map_cons, List.sum_cons]

namespace Log

section Reopen

variable {crc : Checksum} {l : Log}

theorem Clean.segment (h : l.Clean crc) {s : Segment} (hs : s ∈ l.segments) :
    s.trimmed.Rep crc s.trimmed.batches ∧ s.currentSize ≤ s.file.length := by
  obtain ⟨p, hp, rfl⟩ := List.mem_map.mp hs
  have hmem : p.trimmed ∈ l.trimmed.pairs := by
    rw [pairs_trimmed]
    exact List.mem_map_of_mem hp
  exact ⟨(h.ok.pair _ hmem).rep, h.wide p hp⟩

/-- Every segment has its own file. -/
theorem Clean.directory (h : l.Clean crc) : l.directory = l.segments.map Segment.fileEntry := by
  have hbases := (h.ok.tiled h.roomy).bases
  have hstrays : l.strays = [] := h.ok.strays
  rw [segments_trimmed, List.map_map, List.pairwise_map] at hbases
  refine directory_of_perm ?_ (List.pairwise_map.mpr hbases)
  rw [hstrays, segments, fileEntry_segment]
  exact .refl _

/-- Reopening gives the batches back exactly if no segment has an intact batch at
its recorded end. -/
theorem Clean.reopen_iff (h : l.Clean crc) {config : LogConfig} {io : Faults} {l' : Log}
    (hopen : l.reopen crc config io = .ok l') :
    (l'.batches = l.batches ∧ l'.nextOffset = l.nextOffset) ↔
      ∀ s ∈ l.segments, NoBatch crc s.file s.currentSize := by
  have hne : l.segments.map Segment.fileEntry ≠ [] := by simp [segments, pairs]
  unfold Log.reopen at hopen
  rw [h.directory] at hopen
  have hall := List.forall₂_map_left_iff.mp (openPairs_forall₂ (newLog_pairs hne hopen).1)
  have hall : List.Forall₂ (Segment.RecoversAs crc (applyDefaults config).maxSegmentBytes)
      l.segments l'.segments := by
    refine List.forall₂_map_right_iff.mpr ?_
    refine ((List.forall₂_and_left _ _).mpr ⟨fun s hs => h.segment hs, hall⟩).imp ?_
    exact fun s p hsp => newSegment_residue hsp.1.1 hsp.1.2 (newSegmentPair_newSegment hsp.2)
  constructor
  · rintro ⟨hbatches, -⟩
    refine (noBatch_of_sum hall).2 ?_
    rw [← length_flatten_batches (recovered_wide hall),
      ← length_flatten_batches fun s hs => (h.segment hs).2,
      flatMap_segments, flatMap_segments, hbatches]
  · intro hno
    have hsegs := recovered_eq hall hno
    rw [← segments_trimmed] at hsegs
    constructor
    · rw [← flatMap_segments l', hsegs, ← batches_trimmed, ← flatMap_segments l.trimmed,
        List.flatMap_map]
      exact List.flatMap_congr fun s hs => ((h.ok.segment_rep hs).resized _).batches_eq
    · have hlast : l'.segments =
          (l.trimmed.sealedPairs.map (·.segment)).map
              (Segment.resized (applyDefaults config).maxSegmentBytes) ++
            [l.activePair.segment.trimmed.resized (applyDefaults config).maxSegmentBytes] := by
        rw [hsegs, segments, pairs, List.map_append, List.map_append]
        rfl
      exact (nextOffset_of_last hlast).trans rfl

end Reopen

theorem clean_fresh (crc : Checksum) (config : LogConfig)
    (hroom : (indexEntrySize : Int) ≤ (applyDefaults config).maxIndexBytes.toInt) :
    (fresh config).Clean crc := by
  obtain ⟨hok, hr⟩ := newLog_ok (newLog_nil crc config .none)
  refine ⟨hok, hr hroom, fun p hp => ?_⟩
  rw [List.mem_singleton.mp hp]
  exact Nat.le_refl 0

/-- After any raw appends with any write failing anywhere, the log reopens with the
batches of the answered calls and the same end offset exactly if no segment has an
intact batch at its recorded end. -/
theorem failed_writes_iff (crc : Checksum) (config : LogConfig)
    (hroom : (indexEntrySize : Int) ≤ (applyDefaults config).maxIndexBytes.toInt)
    (calls : List (Call × Faults)) (hraw : ∀ x ∈ calls, RawCall x.1) (reopened : LogConfig)
    (io : Faults) (l' : Log)
    (hopen : (Runs.final (Log.exec crc) (fresh config) calls).reopen crc reopened io = .ok l') :
    (l'.batches = (Runs.collect (Log.exec crc) (fun l x => some (l.answered crc x))
          (fresh config) calls).flatten ∧
        l'.nextOffset = (Runs.final (Log.exec crc) (fresh config) calls).nextOffset) ↔
      ∀ s ∈ (Runs.final (Log.exec crc) (fresh config) calls).segments,
        NoBatch crc s.file s.currentSize := by
  have hstart : (fresh config).Clean crc ∧
      (fresh config).batches = ([] : List (List ByteString)).flatten :=
    ⟨clean_fresh crc config hroom, rfl⟩
  obtain ⟨hclean, hbatches⟩ := Runs.invariant_collect_guarded (Log.exec crc)
    (f := fun l x => some (l.answered crc x))
    (P := fun l acc => l.Clean crc ∧ l.batches = acc.flatten)
    (fun l x acc h hx => by
      obtain ⟨hclean, hb⟩ := h.1.exec hx
      exact ⟨hclean, by simp [hb, h.2]⟩)
    hstart calls (Runs.guarded_of_forall _ hraw _)
  rw [List.nil_append] at hbatches
  rw [← hbatches]
  exact hclean.reopen_iff hopen

/-- A write that fails inside its first batch, and a shorter one after it. -/
def tornWrite : List (Call × Faults) :=
  [(.appendRaw (sampleRequest 2) 1, { Faults.none with writeFails := some 60 }),
    (.appendRaw (sampleRequest 1) 1, .none)]

theorem failed_writes_iff_tornWrite :
    ∃ l', (Runs.final (Log.exec crc32c) (fresh tightConfig) tornWrite).reopen crc32c tightConfig
        .none = .ok l' ∧
      l'.batches = (Runs.collect (Log.exec crc32c) (fun l x => some (l.answered crc32c x))
        (fresh tightConfig) tornWrite).flatten ∧
      l'.nextOffset = (Runs.final (Log.exec crc32c) (fresh tightConfig) tornWrite).nextOffset := by
  have hsome : ((Runs.final (Log.exec crc32c) (fresh tightConfig) tornWrite).reopen crc32c
      tightConfig .none).toOption.isSome = true := by decide +kernel
  cases hopen : (Runs.final (Log.exec crc32c) (fresh tightConfig) tornWrite).reopen crc32c
      tightConfig .none with
  | error e =>
    rw [hopen] at hsome
    cases hsome
  | ok l' =>
    refine ⟨l', rfl, (failed_writes_iff crc32c tightConfig (by decide) tornWrite ?_ tightConfig
      .none l' hopen).mpr (by decide +kernel)⟩
    intro x hx
    rcases List.mem_cons.mp hx with rfl | hx
    · trivial
    · rw [List.mem_singleton.mp hx]
      trivial

/-- A write of two batches that fails after the first: the call answers with an
error and the log ends at 0, but the reopened log has the batch. -/
theorem failed_write_comes_back :
    Runs.outputs (Log.exec crc32c) (fresh tightConfig)
        [(.appendRaw (sampleRequest 2) 1, { Faults.none with writeFails := some 100 })] =
      [some (.segment .write)] ∧
    (Runs.final (Log.exec crc32c) (fresh tightConfig) [(.appendRaw (sampleRequest 2) 1,
        { Faults.none with writeFails := some 100 })]).nextOffset = 0 ∧
    (((Runs.final (Log.exec crc32c) (fresh tightConfig)
        [(.appendRaw (sampleRequest 2) 1, { Faults.none with writeFails := some 100 })]).reopen
          crc32c tightConfig .none).toOption.map fun l =>
            (l.nextOffset, l.batches.map baseOffset)) =
      some (1, [0]) := by
  decide +kernel

end Log

end MessageBroker.Storage
