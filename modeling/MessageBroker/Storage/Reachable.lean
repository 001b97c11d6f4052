import MessageBroker.Storage.Gaps
import MessageBroker.Storage.EpochQueries

/-!
# The logs a program can have

A log is opened on an empty directory and then used: appended to by one of the
three paths, truncated, told about a leader epoch, closed and opened again. Its
segments are in order whatever was done with it, and its cached epochs are a
history: appends write to the cache through `assignLeaderEpochs` only.
-/
namespace MessageBroker.Storage

open Lib.Bytes Lib.Tiling Lib

namespace Log

/-! ## What leaves the cached epochs alone -/

theorem roll_epochCache (crc : Checksum) (l : Log) (io : Faults) :
    (l.roll crc io).2.epochCache = l.epochCache := by
  unfold roll
  simp only
  split
  · rfl
  · split <;> rfl

theorem rollIfFull_epochCache (crc : Checksum) (l : Log) (io : Faults) :
    (l.rollIfFull crc io).2.epochCache = l.epochCache := by
  unfold rollIfFull
  split
  · exact l.roll_epochCache crc io
  · rfl

theorem noteAppend_epochCache (l : Log) (offset pos bytes : Nat) :
    (l.noteAppend offset pos bytes).2.epochCache = l.epochCache := by
  unfold noteAppend
  simp only
  split
  · split <;> rfl
  · rfl

theorem store_epochCache (crc : Checksum) (l : Log) (data : ByteString)
    (bounds : List BatchBounds) (leaderEpoch : Int32) (assign : Bool) (io : Faults) :
    (l.store crc data bounds leaderEpoch assign io).2.epochCache = l.epochCache := by
  have hnote : ∀ (l : Log) (s : Segment) (assigned pos total : Nat),
      ((l.withSegment s).noted assigned pos total data.length).2.epochCache = l.epochCache := by
    intro l s assigned pos total
    rw [noted_snd, noteAppend_epochCache]
    rfl
  unfold store
  rw [← l.rollIfFull_epochCache crc io]
  rcases l.rollIfFull crc io with ⟨_ | _, l₁⟩
  · rfl
  simp only
  rw [← l₁.roll_epochCache crc io]
  rcases l₁.activePair.segment.appendRawBatches data bounds leaderEpoch assign io.writeFails with
    ⟨e | x, s⟩
  · cases e with
    | segmentFull =>
      simp only
      rcases l₁.roll crc io with ⟨_ | _, l₂⟩
      · rfl
      simp only
      rcases l₂.activePair.segment.appendRawBatches data bounds leaderEpoch assign
        io.writeFails with ⟨e | x, s⟩
      · rfl
      · exact hnote l₂ s x.1 x.2.1 x.2.2
    | _ => exact (l₁.roll_epochCache crc io).symm
  · rw [l₁.roll_epochCache crc io]
    exact hnote l₁ s x.1 x.2.1 x.2.2

theorem appendRaw_epochCache (crc : Checksum) (l : Log) (data : ByteString) (leaderEpoch : Int32)
    (io : Faults) : (l.appendRaw crc data leaderEpoch io).2.epochCache = l.epochCache := by
  rcases appendRaw_cases crc l data leaderEpoch io with ⟨e, he⟩ | ⟨ds, -, -, -, he⟩
  · rw [he]
  · rw [he, ← store_epochCache crc l ds.flatten (boundsFrom 0 ds) leaderEpoch true io]
    rcases l.store crc ds.flatten (boundsFrom 0 ds) leaderEpoch true io with ⟨_ | _, l'⟩ <;> rfl

theorem appendBatchToActive_epochCache (crc : Checksum) (l : Log) (batch : Batch) (io : Faults) :
    (l.appendBatchToActive crc batch io).2.epochCache = l.epochCache := by
  unfold appendBatchToActive
  rcases l.activePair.segment.appendBatch crc batch io.writeFails with ⟨e | x, s⟩
  · cases e with
    | segmentFull =>
      simp only
      split
      · rfl
      rw [← l.roll_epochCache crc io]
      rcases l.roll crc io with ⟨_ | _, l₁⟩
      · rfl
      simp only
      rcases l₁.activePair.segment.appendBatch crc batch io.writeFails with ⟨_ | _, s⟩ <;> rfl
    | _ => rfl
  · rfl

theorem append_epochCache (crc : Checksum) (l : Log) (batch : Batch) (io : Faults) :
    (l.append crc batch io).2.epochCache = l.epochCache := by
  unfold append
  rw [← l.rollIfFull_epochCache crc io]
  rcases l.rollIfFull crc io with ⟨_ | _, l₁⟩
  · rfl
  simp only
  rw [← l₁.appendBatchToActive_epochCache crc batch io]
  rcases l₁.appendBatchToActive crc batch io with ⟨_ | x, l₂⟩
  · rfl
  simp only
  rw [← l₂.noteAppend_epochCache x.2 x.1 (encodedBatchSize batch)]
  rcases l₂.noteAppend x.2 x.1 (encodedBatchSize batch) with ⟨_ | _, l₃⟩ <;> rfl

/-- A replica append leaves the epochs as they were, or as its assignment left
them, whether or not the batches were stored. -/
theorem appendReplicaRaw_epochCache (crc : Checksum) (l : Log) (data : ByteString)
    (fetchEpoch : Int32) (io : Faults) :
    (l.appendReplicaRaw crc data fetchEpoch io).2.epochCache = l.epochCache ∨
    ∃ acc, Log.Accepts crc l data fetchEpoch acc ∧
      (l.appendReplicaRaw crc data fetchEpoch io).2.epochCache =
        (l.assignLoop (epochStarts none acc)).2.epochCache := by
  rcases appendReplicaRaw_cases crc l data fetchEpoch io with ⟨r, he, -⟩ | ⟨acc, hacc, he⟩
  · exact .inl (by rw [he])
  · refine .inr ⟨acc, hacc, ?_⟩
    rw [he, ← assignLeaderEpochs_epochCache l (epochStarts none acc) io]
    rcases l.assignLeaderEpochs (epochStarts none acc) io with ⟨_ | _, l₁⟩
    · rfl
    simp only
    rw [← store_epochCache crc l₁ acc.flatten (boundsFrom 0 acc) 0 false io]
    rcases l₁.store crc acc.flatten (boundsFrom 0 acc) 0 false io with ⟨_ | _, l'⟩ <;> rfl

theorem finishTruncate_wf {l : Log} (h : l.epochCache.Wf) (offset : Nat) (physical : Bool)
    (failed : List Nat) (io : Faults) :
    (l.finishTruncate offset physical failed io).2.epochCache.Wf := by
  have hcut : (if physical then l.epochCache.truncateFromEnd offset else l.epochCache).Wf := by
    split
    · exact h.takeWhile _
    · exact h
  unfold finishTruncate
  obtain ⟨r, file, dirty, hp⟩ := persistEpochCheckpoint_frame { l with
    epochCache := if physical then l.epochCache.truncateFromEnd offset else l.epochCache
    epochCheckpointDirty := l.epochCheckpointDirty || decide ((if physical then
      l.epochCache.truncateFromEnd offset else l.epochCache) ≠ l.epochCache) } io
  simp only [hp]
  cases r with
  | error e => exact hcut
  | ok _ =>
    simp only
    split <;> exact hcut

theorem truncateTo_wf {l : Log} (h : l.epochCache.Wf) (offset : Nat) (io : Faults) :
    (l.truncateTo offset io).2.epochCache.Wf := by
  unfold truncateTo
  split
  · exact h
  split
  · exact h
  split
  · split
    · exact h
    · split
      · exact h
      · split
        · exact h
        · exact h
        · apply finishTruncate_wf
          exact h
        · apply finishTruncate_wf
          exact h
  · exact finishTruncate_wf h offset false [] io

theorem exec_wf (crc : Checksum) {l : Log} (h : l.epochCache.Wf) (x : Call × Faults) :
    (l.exec crc x).2.epochCache.Wf := by
  obtain ⟨call, io⟩ := x
  unfold Log.exec
  cases call with
  | append batch =>
    have hc := append_epochCache crc l batch io
    simp only
    revert hc
    rcases l.append crc batch io with ⟨_ | _, l'⟩ <;> exact fun hc => (hc.symm ▸ h : _)
  | appendRaw data leaderEpoch =>
    have hc := appendRaw_epochCache crc l data leaderEpoch io
    simp only
    revert hc
    rcases l.appendRaw crc data leaderEpoch io with ⟨_ | _, l'⟩ <;>
      exact fun hc => (hc.symm ▸ h : _)
  | appendReplicaRaw data fetchEpoch =>
    have hwf : (l.appendReplicaRaw crc data fetchEpoch io).2.epochCache.Wf := by
      rcases appendReplicaRaw_epochCache crc l data fetchEpoch io with hc | ⟨acc, -, hc⟩
      · exact hc ▸ h
      · exact hc ▸ assignLoop_keeps (fun hc ha => hc.assign ha) _ h
    simp only
    revert hwf
    rcases l.appendReplicaRaw crc data fetchEpoch io with ⟨_ | _, l'⟩ <;> exact id
  | truncateTo offset =>
    have hwf := truncateTo_wf h offset io
    simp only
    revert hwf
    rcases l.truncateTo offset io with ⟨_ | _, l'⟩ <;> exact id
  | reopen config =>
    simp only
    cases he : l.reopen crc config io with
    | error e => exact h
    | ok l' => exact newLog_wf he

/-! ## Using a log -/

/-- A call of the log, or the assignment of a leader epoch. -/
inductive Use
  | call (c : Call)
  | assignLeaderEpoch (epoch : Int32) (startOffset : Nat)

def use (crc : Checksum) (l : Log) (x : Use × Faults) : Option LogError × Log :=
  match x.1 with
  | .call c => l.exec crc (c, x.2)
  | .assignLeaderEpoch epoch startOffset =>
      match l.assignLeaderEpoch epoch startOffset x.2 with
      | (.error e, l') => (some (.epoch e), l')
      | (.ok (), l') => (none, l')

/-- What a use needs: no write or removal fails, and the encoding of an internal
append fits its fields. -/
def Permits (l : Log) (x : Use × Faults) : Prop :=
  match x.1 with
  | .call c => l.Encodes (c, x.2)
  | .assignLeaderEpoch _ _ => True

/-- A log that was opened on an empty directory and used. -/
def Reachable (crc : Checksum) (l : Log) : Prop :=
  ∃ config io l₀ uses, newLog crc config [] none io = .ok l₀ ∧
    Runs.Guarded (Log.use crc) Permits l₀ uses ∧ l = Runs.final (Log.use crc) l₀ uses

theorem Apart.use {crc : Checksum} {l : Log} (h : l.Apart crc) {x : Use × Faults}
    (hx : l.Permits x) : (l.use crc x).2.Apart crc := by
  obtain ⟨u, io⟩ := x
  unfold Log.use
  cases u with
  | call c => exact h.exec hx
  | assignLeaderEpoch epoch startOffset =>
    have hapart := h.assignLeaderEpoch epoch startOffset io
    simp only
    revert hapart
    rcases l.assignLeaderEpoch epoch startOffset io with ⟨_ | _, l'⟩ <;> exact id

theorem use_wf (crc : Checksum) {l : Log} (h : l.epochCache.Wf) (x : Use × Faults) :
    (l.use crc x).2.epochCache.Wf := by
  obtain ⟨u, io⟩ := x
  unfold Log.use
  cases u with
  | call c => exact exec_wf crc h (c, io)
  | assignLeaderEpoch epoch startOffset =>
    have hwf := assignLeaderEpochs_wf h [⟨epoch, startOffset⟩] io
    simp only [Log.assignLeaderEpoch]
    revert hwf
    rcases l.assignLeaderEpochs [⟨epoch, startOffset⟩] io with ⟨_ | _, l'⟩ <;> exact id

theorem Reachable.apart {crc : Checksum} {l : Log} (h : l.Reachable crc) : l.Apart crc := by
  obtain ⟨config, io, l₀, uses, hnew, hg, rfl⟩ := h
  exact Runs.invariant_guarded (Log.use crc) (P := Apart crc) (G := Permits)
    (fun _ _ h hs => h.use hs) ((newLog_ok hnew).1.apart (newLog_increasing hnew)) uses hg

theorem Reachable.wf {crc : Checksum} {l : Log} (h : l.Reachable crc) : l.epochCache.Wf := by
  obtain ⟨config, io, l₀, uses, hnew, -, rfl⟩ := h
  exact Runs.invariant (Log.use crc) (P := fun l => l.epochCache.Wf)
    (fun _ x h => use_wf crc h x) (newLog_wf hnew) uses

end Log

end MessageBroker.Storage
