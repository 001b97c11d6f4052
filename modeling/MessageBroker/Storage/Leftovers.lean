import MessageBroker.Storage.Replication

/-!
# Epochs of a replica append that failed

A replica append assigns the epochs of the batches it accepted before it rolls a
segment or writes a byte, and none of the later failures takes them back. A
failure leaves the cached epochs alone for every way the call can fail only if
the accepted epochs say nothing new.
-/
namespace MessageBroker.Storage

open Lib.Bytes Lib.Tiling

namespace Log

/-! ## The assignment as a replay -/

theorem assignLoop_replay {es : List EpochEntry} : ∀ {l : Log} {c : EpochCache},
    replayEpochEntries l.epochCache es = .ok c → (l.assignLoop es).2.epochCache = c := by
  induction es with
  | nil =>
    intro l c h
    cases h
    rfl
  | cons e es ih =>
    intro l c h
    rw [replayEpochEntries] at h
    rw [assignLoop]
    cases ha : l.epochCache.assign e.epoch e.startOffset with
    | error err =>
      rw [ha] at h
      cases h
    | ok r =>
      rw [ha] at h
      exact ih h

/-- The epochs that start in ordered batches are not below the first. -/
theorem le_of_mem_epochStarts {e : Int32} {cs : List ByteString}
    (h : ∀ c ∈ cs, e ≤ partitionLeaderEpoch c) :
    ∀ {last : Option Int32}, ∀ x ∈ epochStarts last cs, e ≤ x.epoch := by
  induction cs with
  | nil => exact fun x hx => absurd hx List.not_mem_nil
  | cons c cs ih =>
    intro last x hx
    have hrest : ∀ y ∈ cs, e ≤ partitionLeaderEpoch y :=
      fun y hy => h y (List.mem_cons_of_mem _ hy)
    rw [epochStarts] at hx
    split at hx
    · rcases List.mem_cons.mp hx with rfl | hx
      · exact h c List.mem_cons_self
      · exact ih hrest x hx
    · exact ih hrest x hx

theorem replay_nonneg {es : List EpochEntry} (h : ∀ e ∈ es, 0 ≤ e.epoch) :
    ∀ (c : EpochCache), ∃ c', replayEpochEntries c es = .ok c' := by
  induction es with
  | nil => exact fun c => ⟨c, rfl⟩
  | cons e es ih =>
    intro c
    obtain ⟨r, ha⟩ := EpochCache.assign_ok c (h e List.mem_cons_self) e.startOffset
    rw [replayEpochEntries, ha]
    exact ih (fun x hx => h x (List.mem_cons_of_mem _ hx)) r.2

/-- The assignment of a replica append replays the epochs of the accepted batches,
or stops at the first one because it is negative. -/
theorem Accepts.assigned {crc : Checksum} {l : Log} {data : ByteString} {fetchEpoch : Int32}
    {acc : List ByteString} (h : Accepts crc l data fetchEpoch acc) :
    (∃ c, replayEpochEntries l.epochCache (epochStarts none acc) = .ok c ∧
      (l.assignLoop (epochStarts none acc)).2.epochCache = c) ∨
    (∀ c, replayEpochEntries l.epochCache (epochStarts none acc) ≠ .ok c) ∧
      (l.assignLoop (epochStarts none acc)).2.epochCache = l.epochCache := by
  obtain ⟨c, cs, rfl, -⟩ := h.incoming
  by_cases h0 : 0 ≤ partitionLeaderEpoch c
  · left
    have hle : ∀ x ∈ c :: cs, partitionLeaderEpoch c ≤ partitionLeaderEpoch x := by
      intro x hx
      rcases List.mem_cons.mp hx with rfl | hx
      · exact le_refl _
      · exact List.rel_of_pairwise_cons h.ordered hx
    obtain ⟨c', hc'⟩ := replay_nonneg
      (fun e he => h0.trans (le_of_mem_epochStarts hle e he)) l.epochCache
    exact ⟨c', hc', assignLoop_replay hc'⟩
  · right
    have hneg : partitionLeaderEpoch c < 0 := not_le.mp h0
    have hstarts : epochStarts none (c :: cs) = ⟨partitionLeaderEpoch c, baseOffset c⟩ ::
        epochStarts (some (partitionLeaderEpoch c)) cs := by
      simp [epochStarts]
    have ha : l.epochCache.assign (partitionLeaderEpoch c) (baseOffset c) =
        .error (.negativeEpoch (partitionLeaderEpoch c)) := if_pos hneg
    rw [hstarts]
    refine ⟨fun c' hc' => ?_, ?_⟩
    · rw [replayEpochEntries, ha] at hc'
      cases hc'
    · rw [assignLoop, ha]

/-! ## A failing write -/

theorem appendRawBatches_fault (s : Segment) (data : ByteString) (bounds : List BatchBounds)
    (leaderEpoch : Int32) (assign : Bool) (k : Nat) :
    ∃ e s', s.appendRawBatches data bounds leaderEpoch assign (some k) = (.error e, s') := by
  unfold Segment.appendRawBatches
  split
  · exact ⟨_, _, rfl⟩
  · split
    · exact ⟨_, _, rfl⟩
    · split
      · exact ⟨_, _, rfl⟩
      · exact ⟨_, _, rfl⟩

/-- Nothing is stored if the write fails. -/
theorem store_fault (crc : Checksum) (l : Log) (data : ByteString) (bounds : List BatchBounds)
    (leaderEpoch : Int32) (assign : Bool) {io : Faults} {k : Nat} (hio : io.writeFails = some k) :
    ∃ e, (l.store crc data bounds leaderEpoch assign io).1 = .error e := by
  unfold store
  rw [hio]
  rcases l.rollIfFull crc io with ⟨e | _, l₁⟩
  · exact ⟨e, rfl⟩
  simp only
  obtain ⟨e, s, he⟩ := appendRawBatches_fault l₁.activePair.segment data bounds leaderEpoch assign k
  rw [he]
  cases e with
  | segmentFull =>
    simp only
    rcases l₁.roll crc io with ⟨e | _, l₂⟩
    · exact ⟨e, rfl⟩
    simp only
    obtain ⟨e, s, he⟩ :=
      appendRawBatches_fault l₂.activePair.segment data bounds leaderEpoch assign k
    rw [he]
    exact ⟨_, rfl⟩
  | _ => exact ⟨_, rfl⟩

/-- A failing segment write. -/
def failingWrite : Faults := { Faults.none with writeFails := some 0 }

/-- A response that gets past the checks fails then, with its epochs assigned. -/
theorem Accepts.failingWrite {crc : Checksum} {l : Log} {data : ByteString} {fetchEpoch : Int32}
    {acc : List ByteString} (h : Accepts crc l data fetchEpoch acc) :
    ∃ e l', l.appendReplicaRaw crc data fetchEpoch Log.failingWrite = (.error e, l') ∧
      l'.epochCache = (l.assignLoop (epochStarts none acc)).2.epochCache := by
  rcases appendReplicaRaw_cases crc l data fetchEpoch Log.failingWrite with
    ⟨r, -, hnone, -⟩ | ⟨acc', hacc', he⟩
  · obtain ⟨c, cs, -, hin⟩ := h.incoming
    cases hnone.symm.trans hin
  obtain rfl : acc' = acc := hacc'.stored.2.symm.trans h.stored.2
  rw [he, ← assignLeaderEpochs_epochCache l (epochStarts none acc') Log.failingWrite]
  rcases l.assignLeaderEpochs (epochStarts none acc') Log.failingWrite with ⟨e | _, l₁⟩
  · exact ⟨_, l₁, rfl, rfl⟩
  simp only
  have hfault : Log.failingWrite.writeFails = some 0 := rfl
  obtain ⟨e, hstore⟩ := store_fault crc l₁ acc'.flatten (boundsFrom 0 acc') 0 false hfault
  have hcache := store_epochCache crc l₁ acc'.flatten (boundsFrom 0 acc') 0 false Log.failingWrite
  revert hstore hcache
  rcases l₁.store crc acc'.flatten (boundsFrom 0 acc') 0 false Log.failingWrite with ⟨_ | x, l'⟩
  · exact fun _ hcache => ⟨_, l', rfl, hcache⟩
  · exact fun hstore _ => by cases hstore

/-! ## What a failure leaves -/

/-- The accepted batches of the response say nothing new about the epochs: their
replay onto the cached history leaves it as it is. -/
def SaysNothingNew (crc : Checksum) (l : Log) (data : ByteString) (fetchEpoch : Int32) : Prop :=
  ∀ acc, Accepts crc l data fetchEpoch acc →
    ∀ c, replayEpochEntries l.epochCache (epochStarts none acc) = .ok c → c = l.epochCache

/-- A replica append keeps the cached epochs on every failure if and only if the
response says nothing new about them; then, with room in a new index and no
segment file in the way, it keeps the answers about them too. -/
theorem failed_replica_append_epochs_iff (crc : Checksum) (l : Log) (data : ByteString)
    (fetchEpoch : Int32) :
    ((∀ io e l', l.appendReplicaRaw crc data fetchEpoch io = (.error e, l') →
        l'.epochCache = l.epochCache) ↔ l.SaysNothingNew crc data fetchEpoch) ∧
    (l.Orderly → l.SaysNothingNew crc data fetchEpoch →
      ∀ io e l', l.appendReplicaRaw crc data fetchEpoch io = (.error e, l') →
        l'.epochCache = l.epochCache ∧ l'.nextOffset = l.nextOffset ∧
          ∀ epoch, l'.endOffsetForLeaderEpoch epoch = l.endOffsetForLeaderEpoch epoch) := by
  have hkeeps : l.SaysNothingNew crc data fetchEpoch → ∀ io,
      (l.appendReplicaRaw crc data fetchEpoch io).2.epochCache = l.epochCache := by
    intro hnew io
    rcases appendReplicaRaw_epochCache crc l data fetchEpoch io with hc | ⟨acc, hacc, hc⟩
    · exact hc
    · rcases hacc.assigned with ⟨c, hreplay, hassigned⟩ | ⟨-, hassigned⟩
      · rw [hc, hassigned]
        exact hnew acc hacc c hreplay
      · rw [hc, hassigned]
  refine ⟨⟨fun hall acc hacc c hreplay => ?_, fun hnew io e l' he => ?_⟩,
    fun hord hnew io e l' he => ?_⟩
  · obtain ⟨e, l', he, hcache⟩ := hacc.failingWrite
    rw [← hall _ e l' he, hcache, assignLoop_replay hreplay]
  · have hcache := hkeeps hnew io
    rwa [he] at hcache
  · have hcache := hkeeps hnew io
    rw [he] at hcache
    obtain ⟨r, l'', he', hg⟩ := hord.clear.appendReplicaRaw crc data fetchEpoch io
    obtain ⟨rfl, rfl⟩ := Prod.mk.inj (he'.symm.trans he)
    have hnext := hg.error_next hord.indexBytes ⟨e, rfl⟩
    have hcache : l''.epochCache = l.epochCache := hcache
    refine ⟨hcache, hnext, fun epoch => ?_⟩
    rw [endOffsetForLeaderEpoch, endOffsetForLeaderEpoch, hcache, hnext]

/-- The write of a response with two new epochs fails on a new log: both epochs
are cached, one of them starts after the end of the log, and the log answers for
an epoch of which it has no record. -/
theorem failed_replica_append_keeps_epochs :
    ((fresh tightConfig).appendReplicaRaw crc32c sampleResponse 3 failingWrite).1 =
        .error (.segment .write) ∧
      (fresh tightConfig).epochCache = [] ∧
      ((fresh tightConfig).appendReplicaRaw crc32c sampleResponse 3 failingWrite).2.epochCache =
        [⟨1, 0⟩, ⟨3, 1⟩] ∧
      ((fresh tightConfig).appendReplicaRaw crc32c sampleResponse 3 failingWrite).2.nextOffset =
        0 ∧
      (fresh tightConfig).endOffsetForLeaderEpoch 1 = none ∧
      ((fresh tightConfig).appendReplicaRaw crc32c sampleResponse 3
        failingWrite).2.endOffsetForLeaderEpoch 1 = some ⟨1, 1⟩ := by
  decide +kernel

end Log

end MessageBroker.Storage
