import MessageBroker.Lib.Runs
import MessageBroker.Storage.Appends
import MessageBroker.Storage.Cutting
import MessageBroker.Storage.Reopening

/-!
# A log tiles its offsets

Runs of the calls that change a log, with what each call needs so that the
segments stay one gapless sequence of batches.
-/
namespace MessageBroker.Storage

open Lib.Bytes Lib.Tiling Lib

inductive Call
  | append (batch : Batch)
  | appendRaw (data : ByteString) (leaderEpoch : Int32)
  | appendReplicaRaw (data : ByteString) (fetchEpoch : Int32)
  | truncateTo (offset : Nat)
  | reopen (config : LogConfig)

namespace Log

/-- One call with the file operations that fail in it. A reopening that fails
leaves the files, and so the log to be opened, as they are. -/
def exec (crc : Checksum) (l : Log) (x : Call × Faults) : Option LogError × Log :=
  match x.1 with
  | .append batch =>
      match l.append crc batch x.2 with
      | (.error e, l) => (some e, l)
      | (.ok _, l) => (none, l)
  | .appendRaw data leaderEpoch =>
      match l.appendRaw crc data leaderEpoch x.2 with
      | (.error e, l) => (some e, l)
      | (.ok _, l) => (none, l)
  | .appendReplicaRaw data fetchEpoch =>
      match l.appendReplicaRaw crc data fetchEpoch x.2 with
      | (.error e, l) => (some e, l)
      | (.ok _, l) => (none, l)
  | .truncateTo offset =>
      match l.truncateTo offset x.2 with
      | (.error e, l) => (some e, l)
      | (.ok _, l) => (none, l)
  | .reopen config =>
      match l.reopen crc config x.2 with
      | .error e => (some e, l)
      | .ok l => (none, l)

/-- What a call needs. An encoding of `2^32 + 12` bytes or more does not fit its
length field; a truncation needs room in the index it rebuilds. -/
def Safe (l : Log) (x : Call × Faults) : Prop :=
  x.2.Harmless ∧
    match x.1 with
    | .append batch => encodedBatchSize batch < 2 ^ 32 + 12 ∧
        l.nextOffset + batch.messages.length < 2 ^ 64
    | .truncateTo offset => l.truncateFits offset
    | _ => True

/-- A reopening gives the indexes room for an entry. -/
def KeepsRoom (x : Call × Faults) : Prop :=
  match x.1 with
  | .reopen config => (indexEntrySize : Int) ≤ (applyDefaults config).maxIndexBytes.toInt
  | _ => True

/-- The new log over an empty directory. -/
def fresh (config : LogConfig) : Log :=
  ⟨applyDefaults config, [], freshPair (applyDefaults config) 0, [], none, false, []⟩

theorem newLog_nil (crc : Checksum) (config : LogConfig) (io : Faults) :
    newLog crc config [] none io = .ok (fresh config) := by
  rfl

theorem newLog_ok {crc : Checksum} {config : LogConfig} {io : Faults} {l : Log}
    (h : newLog crc config [] none io = .ok l) :
    l.Ok crc ∧ ((indexEntrySize : Int) ≤ (applyDefaults config).maxIndexBytes.toInt → l.Roomy) := by
  rw [newLog_nil] at h
  cases h
  have hp : (freshPair (applyDefaults config) 0).Ok crc := freshPair_ok crc _ (by decide)
  refine ⟨⟨?_, ⟨rfl, Nat.le_refl _, rfl⟩, rfl⟩, fun hroom =>
    ⟨hroom, applyDefaults_segmentBytes config, ?_, fun p hp => absurd hp List.not_mem_nil⟩⟩
  · intro p hmem
    rw [List.mem_singleton.mp hmem]
    exact hp
  · intro p hmem
    rw [List.mem_singleton.mp hmem]
    exact ⟨rfl, rfl⟩

/-- A safe call keeps a log well formed. -/
theorem Ok.exec {crc : Checksum} {l : Log} (h : l.Ok crc) {x : Call × Faults} (hs : l.Safe x) :
    (l.exec crc x).2.Ok crc ∧ (KeepsRoom x → l.Roomy → (l.exec crc x).2.Roomy) := by
  obtain ⟨hio, hs⟩ := hs
  obtain ⟨c, io⟩ := x
  unfold Log.exec
  cases c with
  | append batch =>
    obtain ⟨r, l', he, hx⟩ := h.append hs.1 hio hs.2
    have hcase : l'.Ok crc ∧ (l.Roomy → l'.Roomy) := by
      rcases hx with ⟨-, hx⟩ | ⟨hx, -⟩ <;> exact ⟨hx.ok, hx.roomy⟩
    simp only [he]
    cases r <;> exact ⟨hcase.1, fun _ => hcase.2⟩
  | appendRaw data leaderEpoch =>
    obtain ⟨r, l', he, hx⟩ := h.appendRaw hio data leaderEpoch
    have hcase : l'.Ok crc ∧ (l.Roomy → l'.Roomy) := by
      rcases hx with ⟨-, hx⟩ | ⟨ds, -, -, -, hx, -⟩ <;> exact ⟨hx.ok, hx.roomy⟩
    simp only [he]
    cases r <;> exact ⟨hcase.1, fun _ => hcase.2⟩
  | appendReplicaRaw data fetchEpoch =>
    obtain ⟨r, l', he, hx⟩ := h.appendReplicaRaw hio data fetchEpoch
    have hcase : l'.Ok crc ∧ (l.Roomy → l'.Roomy) := by
      rcases hx with ⟨rfl, -⟩ | ⟨l₁, r₁, acc, hrep, hx⟩
      · exact ⟨h, id⟩
      · obtain ⟨r', cache, file, dirty, ha⟩ :=
          Log.assignLeaderEpochs_frame l (epochStarts none acc) io
        obtain ⟨-, rfl⟩ := Prod.mk.inj (hrep.assigned.symm.trans ha)
        rcases hx with ⟨-, hx⟩ | ⟨-, hx, -⟩ <;>
          exact ⟨hx.ok, fun hr => hx.roomy (hr.ofEpochs cache file dirty)⟩
    simp only [he]
    cases r <;> exact ⟨hcase.1, fun _ => hcase.2⟩
  | truncateTo offset =>
    obtain ⟨r, l', he, hx⟩ := h.truncateTo hio hs
    have hcase : l'.Ok crc ∧ (l.Roomy → l'.Roomy) := by
      rcases hx with ⟨rfl, -⟩ | ⟨hx, -⟩
      · exact ⟨h, id⟩
      · exact ⟨hx.ok, hx.roomy⟩
    simp only [he]
    cases r <;> exact ⟨hcase.1, fun _ => hcase.2⟩
  | reopen config =>
    cases he : l.reopen crc config io with
    | error e =>
      simp only [he]
      exact ⟨h, fun _ => id⟩
    | ok l' =>
      have hx := h.reopen he
      simp only [he]
      exact ⟨hx.ok, hx.roomy⟩

/-! ## The tiling -/

/-- The segments of a log are one gapless sequence of batches. -/
structure Tiled (l : Log) : Prop where
  tiles : BatchTiles l.oldestOffset l.nextOffset (l.segments.flatMap Segment.batches)
  bases : (l.segments.map Segment.baseOffset).Pairwise (· < ·)
  sealed : ∀ pre s t post, l.segments = pre ++ s :: t :: post →
    s.batches ≠ [] ∧ s.nextOffset = t.baseOffset
  sizes : ∀ s ∈ l.segments, s.currentSize = (s.batches.map declaredSize).sum

/-- Pairs that follow one another directly. -/
theorem Ok.consecutive {crc : Checksum} {l : Log} (h : l.Ok crc) (hr : l.Roomy)
    {pre post : List SegmentPair} {p q : SegmentPair} (hsplit : l.pairs = pre ++ p :: q :: post) :
    p.segment.batches ≠ [] ∧ p.segment.nextOffset = q.segment.baseOffset := by
  constructor
  · apply hr.nonempty
    have hdrop : l.pairs.dropLast = l.sealedPairs := by simp [pairs]
    rw [← hdrop, hsplit, List.dropLast_append_of_ne_nil (by simp),
      List.dropLast_cons_of_ne_nil (by simp)]
    simp
  · have hl := h.linked
    rw [hsplit] at hl
    obtain ⟨m, -, -, -, hq, -⟩ := linked_append.mp hl
    exact hq.symm

theorem flatMap_segments (l : Log) : l.segments.flatMap Segment.batches = l.batches := by
  simp [segments, batches, List.flatMap_map]

theorem Ok.tiled {crc : Checksum} {l : Log} (h : l.Ok crc) (hr : l.Roomy) : l.Tiled where
  tiles := by
    rw [flatMap_segments]
    exact h.tiles
  bases := by
    have hlt : ∀ p ∈ l.sealedPairs, p.segment.baseOffset < p.segment.nextOffset := by
      intro p hp
      exact (h.pair p (List.mem_append_left _ hp)).rep.tiles.lt_of_ne_nil (hr.nonempty p hp)
    obtain ⟨hs, -, ha⟩ := List.pairwise_append.mp h.linked.pairwise
    rw [segments, List.map_map, List.pairwise_map, pairs]
    refine List.pairwise_append.mpr ⟨?_, List.pairwise_singleton _ _, ?_⟩
    · exact hs.imp_of_mem fun {p q} hp _ hpq => (hlt p hp).trans_le hpq
    · exact fun p hp q hq => (hlt p hp).trans_le (ha p hp q hq)
  sealed pre s t post hsplit := by
    obtain ⟨pre', rest, hpairs, -, hrest⟩ := List.map_eq_append_iff.mp hsplit
    obtain ⟨p, tail, rfl, rfl, htail⟩ := List.map_eq_cons_iff.mp hrest
    obtain ⟨q, tail, rfl, rfl, -⟩ := List.map_eq_cons_iff.mp htail
    exact h.consecutive hr hpairs
  sizes s hs := by
    obtain ⟨p, hp, rfl⟩ := List.mem_map.mp hs
    exact (h.pair p hp).rep.size_sum

theorem run_ok {crc : Checksum} {config : LogConfig} {io : Faults} {l : Log}
    (hnew : newLog crc config [] none io = .ok l) (calls : List (Call × Faults))
    (hg : Runs.Guarded (Log.exec crc) Safe l calls) :
    (Runs.final (Log.exec crc) l calls).Ok crc :=
  Runs.invariant_guarded (Log.exec crc) (P := Ok crc) (G := Safe)
    (fun _ _ h hs => (h.exec hs).1) (newLog_ok hnew).1 calls hg

/-- Every run of safe calls on a new log leaves it tiled. -/
theorem log_tiled {crc : Checksum} {config : LogConfig} {io : Faults} {l : Log}
    (hroom : (indexEntrySize : Int) ≤ (applyDefaults config).maxIndexBytes.toInt)
    (hnew : newLog crc config [] none io = .ok l) (calls : List (Call × Faults))
    (hg : Runs.Guarded (Log.exec crc) (fun l x => l.Safe x ∧ KeepsRoom x) l calls) :
    (Runs.final (Log.exec crc) l calls).Tiled := by
  obtain ⟨hok, hr⟩ := newLog_ok hnew
  have hinv : (Runs.final (Log.exec crc) l calls).Ok crc ∧
      (Runs.final (Log.exec crc) l calls).Roomy :=
    Runs.invariant_guarded (Log.exec crc) (P := fun l => l.Ok crc ∧ l.Roomy)
      (fun _ _ h hs => ⟨(h.1.exec hs.1).1, (h.1.exec hs.1).2 hs.2 h.2⟩) ⟨hok, hr hroom⟩ calls hg
  exact hinv.1.tiled hinv.2

/-! ## Samples -/

/-- A batch of one record. -/
def sampleBatch : Batch := ⟨0, 0, 0, 0, 0, [⟨none, some [7], 0⟩]⟩

/-- A produce request of `n` batches. -/
def sampleRequest (n : Nat) : ByteString :=
  (List.replicate n (encodeBatch crc32c sampleBatch 0)).flatten

/-- Room for one entry an index, and an entry due after every byte. -/
def tightConfig : LogConfig := ⟨1000000, 12, 1, 1000⟩

/-- Room for many index entries. -/
def roomyConfig : LogConfig := ⟨1000000, 1200, 4096, 1000⟩

/-- A batch a segment, the last two truncated away, and a reopening. -/
def tidyRun : List (Call × Faults) :=
  [(.appendRaw (sampleRequest 1) 1, .none), (.append sampleBatch, .none),
    (.appendRaw (sampleRequest 1) 2, .none), (.truncateTo 1, .none),
    (.reopen tightConfig, .none)]

theorem tidyRun_safe : Runs.Guarded (Log.exec crc32c) Safe (fresh tightConfig) tidyRun :=
  ⟨⟨Faults.none_harmless, trivial⟩,
    ⟨Faults.none_harmless, by decide +kernel, by decide +kernel⟩,
    ⟨Faults.none_harmless, trivial⟩, ⟨Faults.none_harmless, by decide +kernel⟩,
    ⟨Faults.none_harmless, trivial⟩, trivial⟩

theorem log_tiled_tidyRun : (Runs.final (Log.exec crc32c) (fresh tightConfig) tidyRun).Tiled := by
  have hroom : (indexEntrySize : Int) ≤ (applyDefaults tightConfig).maxIndexBytes.toInt := by decide
  obtain ⟨h1, h2, h3, h4, h5, -⟩ := tidyRun_safe
  exact log_tiled hroom (newLog_nil crc32c tightConfig .none) tidyRun
    ⟨⟨h1, trivial⟩, ⟨h2, trivial⟩, ⟨h3, trivial⟩, ⟨h4, trivial⟩, ⟨h5, hroom⟩, trivial⟩

/-- Three batches in one call take one index entry; a rebuild needs one for each
of the two batches that a truncation to offset 2 keeps. -/
def gapRun : List (Call × Faults) :=
  [(.appendRaw (sampleRequest 3) 1, .none), (.appendRaw (sampleRequest 1) 1, .none),
    (.truncateTo 2, .none)]

def gapLog : Log := Runs.final (Log.exec crc32c) (fresh tightConfig) gapRun

theorem gapLog_segments : gapLog.segments.map (fun s => (s.baseOffset, s.nextOffset)) =
    [(0, 2), (3, 4)] := by
  decide +kernel

/-- A rejected truncation leaves the sealed segment cut and the next in place. -/
theorem truncation_leaves_gap :
    newLog crc32c tightConfig [] none .none = .ok (fresh tightConfig) ∧
      Runs.outputs (Log.exec crc32c) (fresh tightConfig) gapRun =
        [none, none, some (.rebuild (.index 69 (.full 12 12)))] ∧
      ¬ (Runs.final (Log.exec crc32c) (fresh tightConfig) gapRun).Tiled := by
  refine ⟨newLog_nil crc32c tightConfig .none, by decide +kernel, fun h => ?_⟩
  obtain ⟨s, tail, hsegs, hs, htail⟩ := List.map_eq_cons_iff.mp gapLog_segments
  obtain ⟨t, tail, rfl, ht, hnil⟩ := List.map_eq_cons_iff.mp htail
  have hnext := (h.sealed [] s t tail hsegs).2
  have h2 : s.nextOffset = 2 := congrArg Prod.snd hs
  have h3 : t.baseOffset = 3 := congrArg Prod.fst ht
  omega

end Log

end MessageBroker.Storage
