import MessageBroker.Storage.Opening
import MessageBroker.Storage.Tiling

/-!
# Closing a log and opening it again

What a log leaves on disk can be read again: the batches have lengths that the
epoch scan accepts, and the checkpoint passed the checks of its last write. So
only the indexes decide whether `NewLog` succeeds. An append adds at most one
entry a call while a rebuild adds one for every interval of batches, so an index
that had room for the appends need not have room for the rebuild.
-/
namespace MessageBroker.Storage

open Lib.Bytes Lib.Tiling Lib

namespace Log

/-- The checkpoint file holds entries that passed the checks of a write. -/
def Written (l : Log) : Prop := ∀ c, l.checkpoint = some c → c.Writable

/-- What the log left on disk can be read by the recovery of the epochs. -/
structure Readable (l : Log) : Prop where
  lengths : ∀ c ∈ l.batches, batchLength c < 2 ^ 31
  written : l.Written

/-! ## The checkpoint -/

theorem written_persist {l l' : Log} {io : Faults} {r : Except EpochError Unit}
    (hp : l.persistEpochCheckpoint io = (r, l')) (h : l.Written) : l'.Written := by
  unfold persistEpochCheckpoint at hp
  split at hp
  · cases hp
    exact h
  · have hafter := writeCheckpoint_writable h l.epochCache io.checkpointFails
    split at hp
    · cases hp
      exact h
    · rename_i file heq
      cases hp
      rw [heq] at hafter
      exact hafter

theorem written_assign {l l' : Log} {es : List EpochEntry} {io : Faults}
    {r : Except EpochError Unit} (ha : l.assignLeaderEpochs es io = (r, l')) (h : l.Written) :
    l'.Written := by
  unfold assignLeaderEpochs at ha
  cases hl : l.assignLoop es with
  | mk r₁ l₁ =>
    obtain ⟨cache, dirty, rfl⟩ := assignLoop_frame hl
    rw [hl] at ha
    cases r₁ with
    | error e =>
      cases ha
      exact h
    | ok _ => exact written_persist ha h

theorem written_finishTruncate {l l' : Log} {offset : Nat} {physical : Bool}
    {failed : List Nat} {io : Faults} {r : Except LogError Unit}
    (hf : l.finishTruncate offset physical failed io = (r, l')) (h : l.Written) :
    l'.Written := by
  unfold Log.finishTruncate at hf
  simp only at hf
  split at hf
  · rename_i heq
    cases hf
    exact written_persist heq h
  · rename_i heq
    have hw := written_persist heq h
    split at hf <;> cases hf <;> exact hw

theorem written_truncateTo {l l' : Log} {offset : Nat} {io : Faults}
    {r : Except LogError Unit} (ht : l.truncateTo offset io = (r, l')) (h : l.Written) :
    l'.Written := by
  unfold Log.truncateTo at ht
  split at ht
  · cases ht
    exact h
  split at ht
  · cases ht
    exact h
  split at ht
  · split at ht
    · cases ht
      exact h
    split at ht
    · cases ht
      exact h
    split at ht
    · cases ht
      exact h
    · cases ht
      exact h
    · exact written_finishTruncate ht h
    · exact written_finishTruncate ht h
  · exact written_finishTruncate ht h

theorem written_newLog {crc : Checksum} {config : LogConfig} {files : List (Nat × ByteString)}
    {checkpoint : Option EpochCache} {io : Faults} {l : Log}
    (hck : ∀ c, checkpoint = some c → c.Writable)
    (h : newLog crc config files checkpoint io = .ok l) : l.Written := by
  unfold newLog at h
  simp only at h
  split at h
  · cases h
  split at h
  · cases h
  rename_i hrec
  cases h
  exact recoverEpochCache_writable hck hrec

/-! ## The batch lengths -/

theorem exists_of_mem_stampAll {leaderEpoch : Int32} {ds : List ByteString} :
    ∀ {offset : Nat} {c : ByteString}, c ∈ stampAll leaderEpoch offset ds →
      ∃ d ∈ ds, ∃ o, c = stamp leaderEpoch o d := by
  induction ds with
  | nil => exact fun hc => absurd hc List.not_mem_nil
  | cons d ds ih =>
    intro offset c hc
    rcases List.mem_cons.mp hc with rfl | hc
    · exact ⟨d, List.mem_cons_self, offset, rfl⟩
    · obtain ⟨x, hx, o, rfl⟩ := ih hc
      exact ⟨x, List.mem_cons_of_mem _ hx, o, rfl⟩

theorem batchLength_encodeBatch_lt (crc : Checksum) (batch : Batch) (leaderEpoch : Int32)
    (h : encodedBatchSize batch < 2 ^ 31 + 12) :
    batchLength (encodeBatch crc batch leaderEpoch) < 2 ^ 31 := by
  have hdecl := declaredSize_encodeBatch crc batch leaderEpoch
  rw [declaredSize, Nat.mod_eq_of_lt (by omega)] at hdecl
  have := overhead_le_encodedBatchSize batch
  rw [recordBatchOverhead] at this
  omega

section Steps

variable {crc : Checksum} {l l' : Log}

theorem Readable.extends {ds : List ByteString} (h : l.Readable) (hx : Log.Extends crc l l' ds)
    (hds : ∀ c ∈ ds, batchLength c < 2 ^ 31) : l'.Readable where
  lengths c hc := by
    rw [hx.batches] at hc
    rcases List.mem_append.mp hc with hc | hc
    · exact h.lengths c hc
    · exact hds c hc
  written := by
    unfold Written
    rw [hx.checkpoint]
    exact h.written

/-- The batches that a leader append adds keep their lengths. -/
theorem batchLength_stampAll {leaderEpoch : Int32} {offset : Nat} {ds : List ByteString}
    (hds : ∀ c ∈ ds, Valid crc c) :
    ∀ c ∈ stampAll leaderEpoch offset ds, batchLength c < 2 ^ 31 := by
  intro c hc
  obtain ⟨d, hd, o, rfl⟩ := exists_of_mem_stampAll hc
  rw [batchLength, field_stamp leaderEpoch o (hds d hd).length_ge (.inl ⟨by decide, by decide⟩)]
  exact (hds d hd).length_lt

/-- What a call needs so that the log stays readable. -/
def Short (x : Call × Faults) : Prop :=
  match x.1 with
  | .append batch => encodedBatchSize batch < 2 ^ 31 + 12
  | _ => True

theorem Readable.exec (h : l.Readable) (hok : l.Ok crc) {x : Call × Faults} (hs : l.Safe x)
    (hshort : Short x) : (l.exec crc x).2.Readable := by
  obtain ⟨hio, hs⟩ := hs
  obtain ⟨c, io⟩ := x
  unfold Log.exec
  cases c with
  | append batch =>
    obtain ⟨r, l', he, hx⟩ := hok.append hs.1 hio hs.2
    have hcase : l'.Readable := by
      rcases hx with ⟨-, hx⟩ | ⟨hx, -⟩
      · exact h.extends hx fun c hc => absurd hc List.not_mem_nil
      · refine h.extends hx fun c hc => ?_
        rw [List.mem_singleton.mp hc]
        exact batchLength_encodeBatch_lt crc (batch.assigned l.nextOffset) 0 hshort
    simp only [he]
    cases r <;> exact hcase
  | appendRaw data leaderEpoch =>
    obtain ⟨r, l', he, hx⟩ := hok.appendRaw hio data leaderEpoch
    have hcase : l'.Readable := by
      rcases hx with ⟨-, hx⟩ | ⟨ds, -, -, hds, hx, -⟩
      · exact h.extends hx fun c hc => absurd hc List.not_mem_nil
      · exact h.extends hx (batchLength_stampAll hds)
    simp only [he]
    cases r <;> exact hcase
  | appendReplicaRaw data fetchEpoch =>
    obtain ⟨r, l', he, hx⟩ := hok.appendReplicaRaw hio data fetchEpoch
    have hcase : l'.Readable := by
      rcases hx with ⟨rfl, -⟩ | ⟨l₁, r₁, acc, hrep, hx⟩
      · exact h
      · obtain ⟨ds, -, hds, rfl⟩ := hrep.scanned
        obtain ⟨r', cache, file, dirty, ha⟩ :=
          assignLeaderEpochs_frame l (epochStarts none (acceptedBatches fetchEpoch ds)) io
        have hw := written_assign hrep.assigned h.written
        obtain ⟨-, rfl⟩ := Prod.mk.inj (hrep.assigned.symm.trans ha)
        have h₁ : Readable { l with
            epochCache := cache
            checkpoint := file
            epochCheckpointDirty := dirty } := ⟨h.lengths, hw⟩
        rcases hx with ⟨-, hx⟩ | ⟨-, hx, -⟩
        · exact h₁.extends hx fun c hc => absurd hc List.not_mem_nil
        · exact h₁.extends hx fun c hc => (hds c (List.takeWhile_subset _ hc)).length_lt
    simp only [he]
    cases r <;> exact hcase
  | truncateTo offset =>
    obtain ⟨r, l', he, hx⟩ := hok.truncateTo hio hs
    have hcase : l'.Readable := by
      refine ⟨fun c hc => ?_, written_truncateTo he h.written⟩
      rcases hx with ⟨rfl, -⟩ | ⟨hx, -⟩
      · exact h.lengths c hc
      · obtain ⟨cut, hcut⟩ := hx.batches
        exact h.lengths c (hcut ▸ List.mem_append_left _ hc)
    simp only [he]
    cases r <;> exact hcase
  | reopen config =>
    cases he : l.reopen crc config io with
    | error e =>
      simp only [he]
      exact h
    | ok l' =>
      have hx := hok.reopen he
      simp only [he]
      exact ⟨fun c hc => h.lengths c (hx.batches ▸ hc), written_newLog h.written he⟩

end Steps

theorem readable_fresh (config : LogConfig) : (fresh config).Readable :=
  ⟨fun c hc => (by cases hc), fun c hc => (by cases hc)⟩

/-! ## Reopening -/

section Reopen

variable {crc : Checksum} {l : Log}

theorem segment_rep (h : ∀ p ∈ l.pairs, p.Ok crc) {s : Segment} (hs : s ∈ l.segments) :
    s.Rep crc s.batches := by
  obtain ⟨p, hp, rfl⟩ := List.mem_map.mp hs
  exact (h p hp).rep

theorem Ok.segment_rep (h : l.Ok crc) {s : Segment} (hs : s ∈ l.segments) :
    s.Rep crc s.batches := Log.segment_rep h.pair hs

theorem mem_batches_of_segment {s : Segment} (hs : s ∈ l.segments) {c : ByteString}
    (hc : c ∈ s.batches) : c ∈ l.batches := by
  obtain ⟨p, hp, rfl⟩ := List.mem_map.mp hs
  exact List.mem_flatMap.mpr ⟨p, hp, hc⟩

/-- With only non-empty segments sealed, every segment has its file. -/
theorem Ok.directory_eq (h : l.Ok crc) (hr : l.Roomy) :
    l.directory = l.segments.map Segment.fileEntry := by
  obtain ⟨qs, hdir, -, -, -, -, hall⟩ := h.directory
  rw [hdir, hall hr.nonempty, segments, List.map_map]
  rfl

theorem Readable.scannable (h : l.Readable) (hok : l.Ok crc) (hend : l.nextOffset ≤ 2 ^ 63)
    {c : ByteString} (hc : c ∈ l.batches) : Scannable c := by
  refine ⟨h.lengths c hc, ?_⟩
  have := hok.tiles.mem hc
  omega

/-- A readable log can be reopened exactly if every rebuilt index fits. -/
theorem Ok.reopen_iff (h : l.Ok crc) (hr : l.Roomy) (hread : l.Readable)
    (hend : l.nextOffset ≤ 2 ^ 63) (config : LogConfig) {io : Faults}
    (hio : io.checkpointFails = false) :
    (∃ l', l.reopen crc config io = .ok l') ↔
      ∀ s ∈ l.segments, (applyDefaults config).Fits s.batches := by
  have hne : l.segments ≠ [] := by simp [segments, pairs]
  unfold Log.reopen
  rw [h.directory_eq hr]
  refine newLog_iff (fun s hs => ⟨h.segment_rep hs, fun c hc => ?_⟩) hne hread.written hio
  exact hread.scannable h hend (mem_batches_of_segment hs hc)

end Reopen

/-- The two raw appends, with no fault that hides what was written. -/
def IsRaw (x : Call × Faults) : Prop :=
  x.2.Harmless ∧
    match x.1 with
    | .appendRaw _ _ => True
    | .appendReplicaRaw _ _ => True
    | _ => False

theorem IsRaw.safe {x : Call × Faults} (h : IsRaw x) (l : Log) :
    l.Safe x ∧ KeepsRoom x ∧ Short x := by
  obtain ⟨c, io⟩ := x
  obtain ⟨hio, hc⟩ := h
  cases c with
  | append batch => cases hc
  | appendRaw data leaderEpoch => exact ⟨⟨hio, trivial⟩, trivial, trivial⟩
  | appendReplicaRaw data fetchEpoch => exact ⟨⟨hio, trivial⟩, trivial, trivial⟩
  | truncateTo offset => cases hc
  | reopen config => cases hc

/-- A log written by raw appends can be reopened exactly if the index rebuilt for
each of its segments fits. -/
theorem reopens_iff_fits (crc : Checksum) (config : LogConfig)
    (hroom : (indexEntrySize : Int) ≤ (applyDefaults config).maxIndexBytes.toInt)
    (calls : List (Call × Faults)) (hraw : ∀ x ∈ calls, IsRaw x)
    (hend : (Runs.final (Log.exec crc) (fresh config) calls).nextOffset ≤ 2 ^ 63) :
    (∃ l', (Runs.final (Log.exec crc) (fresh config) calls).reopen crc config .none = .ok l') ↔
      ∀ s ∈ (Runs.final (Log.exec crc) (fresh config) calls).segments,
        (applyDefaults config).Fits s.batches := by
  obtain ⟨hok, hr⟩ := newLog_ok (newLog_nil crc config .none)
  obtain ⟨h1, h2, h3⟩ := Runs.invariant_guarded (Log.exec crc)
    (P := fun l => l.Ok crc ∧ l.Roomy ∧ l.Readable)
    (fun l x h hx => by
      obtain ⟨hs, hk, hshort⟩ := hx.safe l
      exact ⟨(h.1.exec hs).1, (h.1.exec hs).2 hk h.2.1, h.2.2.exec h.1 hs hshort⟩)
    ⟨hok, hr hroom, readable_fresh config⟩ calls (Runs.guarded_of_forall _ hraw _)
  exact h1.reopen_iff h2 h3 hend config rfl

/-- One batch a call. -/
def singleRun : List (Call × Faults) :=
  [(.appendRaw (sampleRequest 1) 1, .none), (.appendRaw (sampleRequest 1) 1, .none)]

theorem reopens_iff_fits_singleRun :
    ∃ l', (Runs.final (Log.exec crc32c) (fresh tightConfig) singleRun).reopen crc32c tightConfig
      .none = .ok l' := by
  refine (reopens_iff_fits crc32c tightConfig (by decide) singleRun ?_ (by decide +kernel)).mpr
    (by decide +kernel)
  intro x hx
  rcases List.mem_cons.mp hx with rfl | hx
  · exact ⟨Faults.none_harmless, trivial⟩
  · rw [List.mem_singleton.mp hx]
    exact ⟨Faults.none_harmless, trivial⟩

/-- Three batches in one call take one index entry, and the rebuild at reopening
needs three. -/
theorem one_call_unopenable :
    Runs.outputs (Log.exec crc32c) (fresh tightConfig)
        [(.appendRaw (sampleRequest 3) 1, .none), (.reopen tightConfig, .none)] =
      [none, some (.rollRebuild (.index 69 (.full 12 12)))] := by
  decide +kernel

end Log

end MessageBroker.Storage
