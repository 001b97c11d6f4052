import MessageBroker.Lib.Runs
import MessageBroker.Broker.PartitionRaw
import MessageBroker.Storage.History
import MessageBroker.Storage.Tiling

/-!
# A partition's epoch cache agrees with its log

Runs of the calls that change a partition's log or its cached epochs. Every
stored batch keeps the epoch its offset has in the cache, as long as a replica
append never returns to an epoch that has batches while a later one is cached:
`Assign` then moves the start of the epoch to the new batch.
-/
namespace MessageBroker.Broker

open Lib.Bytes Lib Storage

inductive PartitionCall
  | makeLeader (epoch : Int32) (initialISR : List Int32) (initialHW : Nat)
  | makeFollower (epoch leaderID : Int32)
  | appendRaw (data : ByteString) (acks : Acks)
  | appendFromLeader (data : ByteString) (fetchEpoch : Int32) (leaderHW : Nat)
  | truncateTo (offset : Nat)

namespace Partition

def outcome {α : Type} (r : Except PartitionError α × Partition) :
    Option PartitionError × Partition :=
  match r.1 with
  | .error e => (some e, r.2)
  | .ok _ => (none, r.2)

@[simp] theorem outcome_snd {α : Type} (r : Except PartitionError α × Partition) :
    (outcome r).2 = r.2 := by
  unfold outcome
  split <;> rfl

/-- One call with the file operations that fail in it. -/
def exec (crc : Checksum) (p : Partition) (x : PartitionCall × Faults) :
    Option PartitionError × Partition :=
  match x.1 with
  | .makeLeader epoch initialISR initialHW => outcome (p.makeLeader epoch initialISR initialHW x.2)
  | .makeFollower epoch leaderID => (none, p.makeFollower epoch leaderID)
  | .appendRaw data acks => outcome (p.appendRaw crc data acks x.2)
  | .appendFromLeader data fetchEpoch leaderHW =>
      outcome (p.appendFromLeader crc data fetchEpoch leaderHW x.2)
  | .truncateTo offset => outcome (p.truncateTo offset x.2)

/-- The epoch of the first batch that an `AppendFromLeader` goes on to store. -/
def incomingEpoch (crc : Checksum) (p : Partition) (data : ByteString) (fetchEpoch : Int32) :
    Option Int32 :=
  if p.closed ∨ p.isLeader ∨ p.leaderID < 0 ∨ p.leaderID = p.localBrokerID ∨
      fetchEpoch ≠ p.leaderEpoch then none
  else p.log.incomingEpoch crc data fetchEpoch

/-- The leader sends batches that are not older than those stored. -/
def SentInOrder (crc : Checksum) (p : Partition) (x : PartitionCall × Faults) : Prop :=
  match x.1 with
  | .appendFromLeader data fetchEpoch _ =>
      ∀ e, p.incomingEpoch crc data fetchEpoch = some e →
        ∀ c ∈ p.log.batches, partitionLeaderEpoch c ≤ e
  | _ => True

/-- What a call needs besides: the first batch of a replica append is not of a
superseded epoch, and a truncation has room in the index it rebuilds. -/
def Traceable (crc : Checksum) (p : Partition) (x : PartitionCall × Faults) : Prop :=
  x.2.Harmless ∧
    match x.1 with
    | .appendFromLeader data fetchEpoch _ =>
        ∀ e, p.incomingEpoch crc data fetchEpoch = some e → ¬ p.log.Superseded e
    | .truncateTo offset => p.log.truncateFits offset
    | _ => True

/-- The log is well formed with its history, and a leader serves the last cached
epoch. -/
structure Traced (crc : Checksum) (p : Partition) : Prop where
  ok : p.log.Ok crc
  history : p.log.History
  leads : p.isLeader = true → p.log.Leads p.leaderEpoch

/-- Tracing looks at the log and the role only. -/
theorem Traced.congr {crc : Checksum} {p q : Partition} (h : p.Traced crc) (hlog : q.log = p.log)
    (hl : q.isLeader = p.isLeader) (he : q.leaderEpoch = p.leaderEpoch) : q.Traced crc where
  ok := hlog ▸ h.ok
  history := hlog ▸ h.history
  leads hq := by
    rw [hlog, he]
    exact h.leads (hl ▸ hq)

theorem traced_new {crc : Checksum} {config : LogConfig} {io : Faults} {l : Log}
    (h : newLog crc config [] none io = .ok l) (id : Int32) : (newPartition id l).Traced crc := by
  have hok := (Log.newLog_ok h).1
  rw [Log.newLog_nil] at h
  cases h
  refine ⟨hok, ⟨EpochCache.increasing_nil, ?_, fun e he => absurd he List.not_mem_nil⟩,
    fun hl => by cases hl⟩
  intro c hc
  have hnil : (Log.fresh config).batches = [] := by
    have hrep := freshPair_rep crc (applyDefaults config) (show 0 < 2 ^ 64 by decide)
    rw [Log.batches_eq_append]
    exact hrep.batches_eq
  rw [show (newPartition id (Log.fresh config)).log = Log.fresh config from rfl, hnil] at hc
  exact absurd hc List.not_mem_nil

/-! ## One step -/

section Step

variable {crc : Checksum} {p : Partition} (h : p.Traced crc) {io : Faults} (hio : io.Harmless)

include h

theorem Traced.becomeLeader {epoch : Int32}
    (hle : ∀ latest, p.log.latestLeaderEpoch = some latest → latest ≤ epoch)
    (initialISR : List Int32) (initialHW : Nat) :
    (p.becomeLeader epoch initialISR initialHW io).2.Traced crc := by
  unfold Partition.becomeLeader
  cases ha : p.log.assignLeaderEpoch epoch p.leo io with
  | mk r l =>
    obtain ⟨hok, hhist, -, -, hlead⟩ := h.history.assignLeaderEpoch h.ok
      (Log.admits_of_latest h.history.increasing hle) ha
    cases r with
    | error e => exact ⟨hok, hhist, fun hl => by cases hl⟩
    | ok _ => exact ⟨hok, hhist, fun _ => hlead rfl⟩

theorem Traced.makeLeader (epoch : Int32) (initialISR : List Int32) (initialHW : Nat) :
    (p.makeLeader epoch initialISR initialHW io).2.Traced crc := by
  unfold Partition.makeLeader
  split
  · rename_i latest hlatest
    split
    · exact h
    · rename_i hge
      refine h.becomeLeader (fun l hl => ?_) initialISR initialHW
      rw [hlatest] at hl
      cases hl
      exact not_lt.mp hge
  · rename_i hnone
    refine h.becomeLeader (fun l hl => ?_) initialISR initialHW
    rw [hnone] at hl
    cases hl

theorem Traced.makeFollower (epoch leaderID : Int32) : (p.makeFollower epoch leaderID).Traced crc :=
  ⟨h.ok, h.history, fun hl => by cases hl⟩

include hio

theorem Traced.appendRaw (data : ByteString) (acks : Acks) :
    (p.appendRaw crc data acks io).2.Traced crc := by
  unfold Partition.appendRaw
  rcases p.storeRaw_cases crc data acks io with ⟨e, hs⟩ | ⟨hleader, -, r', l, hlog, hs⟩
  · rw [hs]
    exact h
  have hlead := h.leads hleader
  obtain ⟨r, l', ha, hcase⟩ := h.ok.appendRaw hio data p.leaderEpoch
  have hl' : l'.Ok crc ∧ l'.History ∧ l'.Leads p.leaderEpoch := by
    rcases hcase with ⟨-, hx⟩ | ⟨ds, -, -, hvalid, hx, -⟩
    · obtain ⟨h1, h2⟩ := h.history.lead h.ok hx hlead fun c hc => absurd hc List.not_mem_nil
      exact ⟨hx.ok, h1, h2⟩
    · obtain ⟨h1, h2⟩ := h.history.lead h.ok hx hlead fun c hc =>
        Log.epoch_of_mem_stampAll (fun d hd => (hvalid d hd).toStored) hc
      exact ⟨hx.ok, h1, h2⟩
  have hnew : Traced crc { p with log := l' } := ⟨hl'.1, hl'.2.1, fun _ => hl'.2.2⟩
  obtain ⟨rfl, rfl⟩ := Prod.mk.inj (ha.symm.trans hlog)
  rcases hs with ⟨e, e', -, hs⟩ | ⟨x, y, purgatory, pushed, -, hs⟩
  · rw [hs]
    exact hnew
  · rw [hs]
    exact hnew.congr (by rw [maybeAdvanceHW_log]) (by rw [maybeAdvanceHW_isLeader])
      (by rw [maybeAdvanceHW_leaderEpoch])

theorem Traced.appendFromLeader {data : ByteString} {fetchEpoch : Int32} (leaderHW : Nat)
    (hord : ∀ e, p.incomingEpoch crc data fetchEpoch = some e →
      ∀ c ∈ p.log.batches, partitionLeaderEpoch c ≤ e)
    (hsup : ∀ e, p.incomingEpoch crc data fetchEpoch = some e → ¬ p.log.Superseded e) :
    (p.appendFromLeader crc data fetchEpoch leaderHW io).2.Traced crc := by
  unfold Partition.appendFromLeader
  split
  · exact h
  rename_i hopen
  split
  · exact h
  rename_i hrole
  split
  · exact h
  rename_i hfenced
  split
  · exact h
  rename_i hunknown
  have hnot : ¬ p.isLeader = true := fun hl => hrole (.inl hl)
  have hfollow : ∀ {q : Partition}, q.Traced crc → ∀ oldLEO,
      (q.followHW oldLEO leaderHW).Traced crc := by
    intro q hq oldLEO
    obtain ⟨notified, hf, -⟩ := q.followHW_cases oldLEO leaderHW
    rw [hf]
    exact hq.congr rfl rfl rfl
  split
  · exact hfollow h p.leo
  · have hin : p.incomingEpoch crc data fetchEpoch = p.log.incomingEpoch crc data fetchEpoch := by
      unfold Partition.incomingEpoch
      rw [if_neg]
      rintro (hc | hc | hc | hc | hc)
      · exact hopen hc
      · exact hrole (.inl hc)
      · exact hrole (.inr (.inl hc))
      · exact hrole (.inr (.inr hc))
      · exact hc (le_antisymm (not_lt.mp hunknown) (not_lt.mp hfenced))
    rw [hin] at hord hsup
    obtain ⟨r, l', ha, hcase⟩ := h.ok.appendReplicaRaw hio data fetchEpoch
    have hl' : l'.Ok crc ∧ l'.History := by
      rcases hcase with ⟨rfl, -⟩ | ⟨l₁, r₁, acc, hrep, hx⟩
      · exact ⟨h.ok, h.history⟩
      · have hadm := fun e he => h.history.admits (hord e he) (hsup e he)
        rcases hx with ⟨-, hx⟩ | ⟨hr, hx, -⟩
        · exact ⟨hx.ok, h.history.replicate h.ok hrep hadm (.inl hx)⟩
        · exact ⟨hx.ok, h.history.replicate h.ok hrep hadm (.inr ⟨hr, hx⟩)⟩
    have hnew : Traced crc { p with log := l' } := ⟨hl'.1, hl'.2, fun hl => absurd hl hnot⟩
    rw [ha]
    cases r with
    | error e => exact hnew
    | ok n => exact hfollow hnew p.leo

theorem Traced.truncateTo {offset : Nat} (hfits : p.log.truncateFits offset) :
    (p.truncateTo offset io).2.Traced crc := by
  cases hl : p.isLeader with
  | true =>
    unfold Partition.truncateTo
    rw [if_pos hl]
    exact h
  | false =>
    obtain ⟨r, l', ha, hcase⟩ := h.ok.truncateTo hio hfits
    obtain ⟨r', notified, hf, -⟩ := truncateTo_frame hl ha
    have hl' : l'.Ok crc ∧ l'.History := by
      rcases hcase with ⟨rfl, -⟩ | ⟨hx, hcache⟩
      · exact ⟨h.ok, h.history⟩
      · refine ⟨hx.ok, h.history.cutAt h.ok hx ?_⟩
        rcases hcache with hc | ⟨hc, -⟩
        · split at hc
          · exact .inr hc
          · exact .inl hc
        · exact .inl hc
    rw [hf]
    exact ⟨hl'.1, hl'.2, fun hlead => by rw [hl] at hlead; cases hlead⟩

end Step

/-- Every call keeps the trace. -/
theorem Traced.exec {crc : Checksum} {p : Partition} (h : p.Traced crc)
    {x : PartitionCall × Faults} (hord : p.SentInOrder crc x) (ht : p.Traceable crc x) :
    (p.exec crc x).2.Traced crc := by
  obtain ⟨hio, ht⟩ := ht
  obtain ⟨c, io⟩ := x
  unfold Partition.exec
  cases c with
  | makeLeader epoch initialISR initialHW =>
    simpa using h.makeLeader epoch initialISR initialHW
  | makeFollower epoch leaderID => exact h.makeFollower epoch leaderID
  | appendRaw data acks => simpa using h.appendRaw hio data acks
  | appendFromLeader data fetchEpoch leaderHW =>
    simpa using h.appendFromLeader hio leaderHW hord ht
  | truncateTo offset => simpa using h.truncateTo hio ht

/-! ## Whole runs -/

theorem run_traced {crc : Checksum} {config : LogConfig} {io : Faults} {l : Log}
    (hnew : newLog crc config [] none io = .ok l) (id : Int32)
    (calls : List (PartitionCall × Faults))
    (hg : Runs.Guarded (Partition.exec crc) (fun p x => p.SentInOrder crc x ∧ p.Traceable crc x)
      (newPartition id l) calls) :
    (Runs.final (Partition.exec crc) (newPartition id l) calls).Traced crc :=
  Runs.invariant_guarded (Partition.exec crc) (P := Traced crc)
    (fun _ _ h hs => h.exec hs.1 hs.2) (traced_new hnew id) calls hg

/-- After every run from an empty log, in which batches are sent in order and no
superseded epoch returns, the cache knows the epoch of every batch. -/
theorem batches_stamped {crc : Checksum} {config : LogConfig} {io : Faults} {l : Log}
    (hnew : newLog crc config [] none io = .ok l) (id : Int32)
    (calls : List (PartitionCall × Faults))
    (hg : Runs.Guarded (Partition.exec crc) (fun p x => p.SentInOrder crc x ∧ p.Traceable crc x)
      (newPartition id l) calls) :
    (Runs.final (Partition.exec crc) (newPartition id l) calls).log.Stamped :=
  (run_traced hnew id calls hg).history.stamped

/-- One record, as the leader of an epoch stores it. -/
def sampleRecord (epoch : Int32) (offset : Nat) : ByteString :=
  stamp epoch offset (Log.sampleRequest 1)

/-- A leadership with a record, and another epoch's records replicated after it,
of which the last is truncated away. -/
def replicaRun : List (PartitionCall × Faults) :=
  [(.makeLeader 1 [1] 0, .none), (.appendRaw (Log.sampleRequest 1) .leader, .none),
    (.makeFollower 2 2, .none),
    (.appendFromLeader (sampleRecord 2 1 ++ sampleRecord 2 2) 2 3, .none),
    (.truncateTo 2, .none)]

theorem batches_stamped_replicaRun :
    (Runs.final (Partition.exec crc32c) (newPartition 1 (Log.fresh Log.tightConfig))
      replicaRun).log.Stamped := by
  refine batches_stamped (Log.newLog_nil crc32c Log.tightConfig .none) 1 replicaRun
    ⟨⟨trivial, Faults.none_harmless, trivial⟩, ⟨trivial, Faults.none_harmless, trivial⟩,
      ⟨trivial, Faults.none_harmless, trivial⟩, ⟨?_, Faults.none_harmless, ?_⟩,
      ⟨trivial, Faults.none_harmless, by decide +kernel⟩, trivial⟩
  · intro e he
    have h2 : e = 2 := Option.some.inj (he.symm.trans (by decide +kernel))
    rw [h2]
    decide +kernel
  · intro e he
    have h2 : e = 2 := Option.some.inj (he.symm.trans (by decide +kernel))
    rw [h2]
    decide +kernel

/-- A leadership without records in epoch 5 between two records of epoch 1. -/
def returningRun : List (PartitionCall × Faults) :=
  [(.makeLeader 1 [1] 0, .none), (.appendRaw (Log.sampleRequest 1) .leader, .none),
    (.makeLeader 5 [1] 0, .none), (.makeFollower 6 2, .none),
    (.appendFromLeader (sampleRecord 1 1) 6 2, .none)]

/-- The second record takes the start of epoch 1 along: offset 0, stored in epoch
1, has no epoch any more. -/
theorem returning_epoch_hides_batch :
    newLog crc32c Log.tightConfig [] none .none = .ok (Log.fresh Log.tightConfig) ∧
      Runs.Guarded (Partition.exec crc32c) (SentInOrder crc32c)
        (newPartition 1 (Log.fresh Log.tightConfig)) returningRun ∧
      Runs.outputs (Partition.exec crc32c) (newPartition 1 (Log.fresh Log.tightConfig))
        returningRun = [none, none, none, none, none] ∧
      ((Runs.final (Partition.exec crc32c) (newPartition 1 (Log.fresh Log.tightConfig))
          returningRun).log.batches.map fun c => (baseOffset c, partitionLeaderEpoch c)) =
        [(0, 1), (1, 1)] ∧
      (Runs.final (Partition.exec crc32c) (newPartition 1 (Log.fresh Log.tightConfig))
        returningRun).log.epochForOffset 0 = none := by
  refine ⟨Log.newLog_nil crc32c Log.tightConfig .none,
    ⟨trivial, trivial, trivial, trivial, ?_, trivial⟩, by decide +kernel, by decide +kernel,
    by decide +kernel⟩
  intro e he
  have h1 : e = 1 := Option.some.inj (he.symm.trans (by decide +kernel))
  rw [h1]
  decide +kernel

end Partition

end MessageBroker.Broker
