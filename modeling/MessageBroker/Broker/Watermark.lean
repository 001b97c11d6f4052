import MessageBroker.Broker.Operations
import MessageBroker.Storage.Tiling

/-!
# The high watermark of a partition

Two laws of the watermark over whole runs. It is as high as the in-sync set
allows as long as no leadership starts below what that set is known to have, and
it never falls but in a truncation, as long as offsets do not overflow.
-/
namespace MessageBroker.Broker

open Lib.Bytes Lib Storage

namespace Partition

/-! ## As high as the in-sync set allows -/

/-- A leader's watermark is not below what its in-sync replicas have in common. -/
def CaughtUp (p : Partition) : Prop :=
  p.isLeader = true → p.isr ≠ [] → p.commonLEO ≤ p.highWatermark

theorem caughtUp_maybeAdvanceHW (p : Partition) : p.maybeAdvanceHW.CaughtUp := by
  intro hl hisr
  have hcommon : p.maybeAdvanceHW.commonLEO = p.commonLEO := by simp [commonLEO]
  rw [hcommon]
  rcases p.maybeAdvanceHW_cases with ⟨hl' | hisr', -⟩ | ⟨-, -, hle, h⟩ | ⟨-, -, -, h⟩
  · rw [maybeAdvanceHW_isLeader, hl'] at hl
    cases hl
  · exact absurd hisr' (by simpa using hisr)
  · rw [h]
    exact hle
  · rw [h]
    exact Nat.le_refl _

theorem caughtUp_of_notLeader {p : Partition} (h : p.isLeader = false) : p.CaughtUp := by
  intro hl
  rw [h] at hl
  cases hl

/-- What the replicas have in common when nothing is known of the others. -/
theorem minLEO_unknown (id : Int32) (leo hw : Nat) (ids : List Int32) :
    minLEO id leo (ids.map fun i => ⟨i, 0⟩) ≤ hw ↔ (∃ i ∈ ids, i ≠ id) ∨ leo ≤ hw := by
  constructor
  · intro h
    by_contra hnot
    rw [not_or, not_exists, not_le] at hnot
    have hall : hw + 1 ≤ minLEO id leo (ids.map fun i => ⟨i, 0⟩) := by
      refine le_minLEO_iff.mpr ⟨hnot.2, fun e he hne => ?_⟩
      obtain ⟨i, hi, rfl⟩ := List.mem_map.mp he
      exact absurd ⟨hi, hne⟩ (hnot.1 i)
    omega
  · rintro (⟨i, hi, hne⟩ | hle)
    · have hzero := (le_minLEO_iff.mp (Nat.le_refl (minLEO id leo (ids.map fun i => ⟨i, 0⟩)))).2
        ⟨i, 0⟩ (List.mem_map.mpr ⟨i, hi, rfl⟩) hne
      exact hzero.trans (Nat.zero_le hw)
    · exact (minLEO_le id leo _).trans hle

/-- A leadership that goes through starts with an in-sync set of which something
is still unknown, or with the watermark at the end of the log. -/
def LeadsCaughtUp (p : Partition) (x : Operation × Faults) : Prop :=
  match x.1 with
  | .makeLeader epoch initialISR initialHW =>
      p.takesEpoch x.2 epoch = true →
        initialISR = [] ∨ (∃ id ∈ initialISR, id ≠ p.localBrokerID) ∨ p.leo ≤ initialHW
  | _ => True

/-- The internal `Append` is not among the operations, and a produce request finds
the log in order. -/
def Produces (p : Partition) (x : Operation × Faults) : Prop :=
  match x.1 with
  | .append _ _ => False
  | .appendRaw _ _ => p.log.Orderly
  | _ => True

theorem CaughtUp.stepsDown {p p' : Partition} (h : StepsDown p p') : p'.CaughtUp :=
  caughtUp_of_notLeader h.isLeader

theorem caughtUp_stepsUp {p p' : Partition} {initialISR : List Int32} {initialHW : Nat}
    (h : StepsUp p p' initialISR initialHW) :
    p'.CaughtUp ↔
      initialISR = [] ∨ (∃ id ∈ initialISR, id ≠ p.localBrokerID) ∨ p.leo ≤ initialHW := by
  unfold CaughtUp commonLEO
  rw [h.isr, h.localBrokerID, h.leo, h.highWatermark, minLEO_unknown]
  simp only [h.isLeader, true_imp_iff, ne_eq, List.map_eq_nil_iff]
  rw [imp_iff_not_or, not_not]

/-- An append that fails leaves a leader caught up if its log is in order. -/
theorem CaughtUp.withLog {p : Partition} (h : p.CaughtUp) {l : Log}
    (hnext : l.nextOffset = p.leo) : CaughtUp { p with log := l } := by
  intro hl hisr
  have := h hl hisr
  unfold commonLEO leo at *
  rw [show ({ p with log := l } : Partition).log.nextOffset = p.log.nextOffset from hnext]
  exact this

theorem CaughtUp.appendRaw {crc : Checksum} {p : Partition} (h : p.CaughtUp)
    (hlog : p.log.Orderly) (data : ByteString) (acks : Acks) (io : Faults) :
    (p.appendRaw crc data acks io).2.CaughtUp := by
  obtain ⟨r, l, hlogr, hgrown⟩ := hlog.clear.appendRaw crc data p.leaderEpoch io
  rcases p.appendRaw_cases crc io data acks with ⟨e, he⟩ | ⟨-, -, r', l', hr, hcase⟩
  · rw [he]
    exact h
  · rw [hlogr] at hr
    cases hr
    rcases hcase with ⟨e, e', rfl, he⟩ | ⟨x, y, purgatory, pushed, rfl, he⟩
    · rw [he]
      exact h.withLog (hgrown.error_next hlog.indexBytes ⟨e, rfl⟩)
    · rw [he]
      exact caughtUp_maybeAdvanceHW _

theorem CaughtUp.noted {p : Partition} (h : p.CaughtUp) {p' : Partition} {replicaID : Int32}
    {offset : Nat} (hp : p' = p ∨ p' = p.updateFollowerLEO replicaID offset) : p'.CaughtUp := by
  rcases hp with rfl | rfl
  · exact h
  · exact caughtUp_maybeAdvanceHW _

theorem caughtUp_followHW {p : Partition} (hl : p.isLeader = false) (oldLEO leaderHW : Nat) :
    (p.followHW oldLEO leaderHW).CaughtUp := by
  obtain ⟨notified, hf, -⟩ := p.followHW_cases oldLEO leaderHW
  rw [hf]
  exact caughtUp_of_notLeader hl

theorem CaughtUp.appendFromLeader {crc : Checksum} {p : Partition} (h : p.CaughtUp)
    (data : ByteString) (fetchEpoch : Int32) (leaderHW : Nat) (io : Faults) :
    (p.appendFromLeader crc data fetchEpoch leaderHW io).2.CaughtUp := by
  rcases p.appendFromLeader_cases crc io data fetchEpoch leaderHW with
    ⟨e, he⟩ | ⟨hl, he | ⟨r, l, -, ⟨e, e', -, he⟩ | ⟨n, -, he⟩⟩⟩
  · rw [he]
    exact h
  · rw [he]
    exact caughtUp_followHW hl _ _
  · rw [he]
    exact caughtUp_of_notLeader hl
  · rw [he]
    exact caughtUp_followHW (by exact hl) _ _

theorem CaughtUp.truncateTo {p : Partition} (h : p.CaughtUp) (offset : Nat) (io : Faults) :
    (p.truncateTo offset io).2.CaughtUp := by
  rcases p.truncateTo_cases io offset with ⟨-, e, he⟩ | ⟨hl, r, l, -, r', notified, he, -⟩
  · rw [he]
    exact h
  · rw [he]
    exact caughtUp_of_notLeader hl

theorem CaughtUp.close {p : Partition} (h : p.CaughtUp) : p.close.CaughtUp := by
  unfold Partition.close
  split
  · exact h
  · exact h

/-- One operation leaves a caught-up partition caught up, unless it starts a
leadership too low. -/
theorem CaughtUp.perform_iff {crc : Checksum} {p : Partition} (h : p.CaughtUp)
    {x : Operation × Faults} (hx : p.Produces x) :
    (p.perform crc x).2.CaughtUp ↔ p.LeadsCaughtUp x := by
  obtain ⟨op, io⟩ := x
  cases op with
  | makeLeader epoch initialISR initialHW =>
    simp only [perform, answer_snd, LeadsCaughtUp]
    rcases p.makeLeader_cases io epoch initialISR initialHW with
      ⟨hno, e, p', he, hp⟩ | ⟨hyes, p', he, hup⟩
    · rw [he, hno]
      refine iff_of_true ?_ fun hf => by cases hf
      rcases hp with rfl | hdown
      · exact h
      · exact CaughtUp.stepsDown hdown
    · rw [he, hyes]
      simpa using caughtUp_stepsUp hup
  | makeFollower epoch leaderID =>
    exact iff_of_true (CaughtUp.stepsDown (p.makeFollower_stepsDown epoch leaderID)) trivial
  | makeUnassigned => exact iff_of_true (CaughtUp.stepsDown p.makeUnassigned_stepsDown) trivial
  | updateLeaderISR epoch ids =>
    refine iff_of_true ?_ trivial
    simp only [perform, answer_snd]
    rcases p.updateLeaderISR_cases epoch ids with ⟨e, he⟩ | ⟨isr, he⟩
    · rw [he]
      exact h
    · rw [he]
      exact caughtUp_maybeAdvanceHW _
  | append batch acks => exact absurd hx id
  | appendRaw data acks =>
    refine iff_of_true ?_ trivial
    simpa only [perform, answer_snd] using h.appendRaw hx data acks io
  | appendFromLeader data fetchEpoch leaderHW =>
    refine iff_of_true ?_ trivial
    simpa only [perform, answer_snd] using h.appendFromLeader data fetchEpoch leaderHW io
  | truncateTo offset =>
    refine iff_of_true ?_ trivial
    simpa only [perform, answer_snd] using h.truncateTo offset io
  | fetchRaw fetchOffset replicaID maxBytes =>
    refine iff_of_true ?_ trivial
    obtain ⟨r, p', he, hp⟩ := p.fetchRaw_cases fetchOffset replicaID maxBytes
    simp only [perform, answer_snd, he]
    exact h.noted hp
  | fetchRawRanges fetchOffset replicaID maxBytes allowOversizedFirstBatch =>
    refine iff_of_true ?_ trivial
    obtain ⟨r, p', he, hp⟩ :=
      p.fetchRawRanges_cases fetchOffset replicaID maxBytes allowOversizedFirstBatch
    simp only [perform, answer_snd, he]
    exact h.noted hp
  | close => exact iff_of_true h.close trivial

/-- In every run, the leader's watermark is everywhere as high as its in-sync set
allows exactly if no leadership starts below what that set has in common. -/
theorem caughtUp_iff (crc : Checksum) (id : Int32) (l : Log) (run : List (Operation × Faults))
    (hrun : Runs.Guarded (perform crc) Produces (newPartition id l) run) :
    Runs.Always (perform crc) CaughtUp (newPartition id l) run ↔
      Runs.Guarded (perform crc) LeadsCaughtUp (newPartition id l) run :=
  Runs.always_iff_guarded (perform crc) (fun _ _ h hx => h.perform_iff hx)
    (caughtUp_of_notLeader rfl) run hrun

/-- A leader with one record, and another leadership of it that is refused. -/
def producedRun : List (Operation × Faults) :=
  [(.makeLeader 1 [1] 0, .none), (.appendRaw (Log.sampleRequest 1) .all, .none),
    (.makeLeader 0 [1] 0, .none)]

theorem caughtUp_iff_producedRun :
    Runs.Always (perform crc32c) CaughtUp (newPartition 1 (Log.fresh Log.tightConfig))
      producedRun := by
  refine (caughtUp_iff crc32c 1 (Log.fresh Log.tightConfig) producedRun
    ⟨trivial, ⟨by decide +kernel, by decide +kernel⟩, trivial, trivial⟩).mpr
    ⟨fun _ => .inr (.inr (by decide +kernel)), trivial, fun h => ?_, trivial⟩
  exact absurd h (by decide +kernel)

/-- A follower with one record that its leader had not committed yet, and then
its own leadership, with the watermark it has, alone in the in-sync set. -/
def promotedRun : List (Operation × Faults) :=
  [(.makeFollower 1 2, .none),
    (.appendFromLeader (stamp 1 0 (Log.sampleRequest 1)) 1 0, .none),
    (.makeLeader 2 [1] 0, .none)]

/-- The new leader has the record, and so has all of its in-sync set, but its
watermark stays below it. -/
theorem promoted_below_log :
    Runs.outputs (perform crc32c) (newPartition 1 (Log.fresh Log.tightConfig)) promotedRun =
        [none, none, none] ∧
      (Runs.final (perform crc32c) (newPartition 1 (Log.fresh Log.tightConfig))
        (promotedRun.take 2)).highWatermark = 0 ∧
      (Runs.final (perform crc32c) (newPartition 1 (Log.fresh Log.tightConfig))
        promotedRun).leo = 1 ∧
      ¬ (Runs.final (perform crc32c) (newPartition 1 (Log.fresh Log.tightConfig))
        promotedRun).CaughtUp := by
  refine ⟨by decide +kernel, by decide +kernel, by decide +kernel, fun h => ?_⟩
  exact absurd (h (by decide +kernel) (by decide +kernel)) (by decide +kernel)

/-! ## Never falling -/

/-- The watermark lies in the log. -/
structure Bounded (p : Partition) : Prop where
  start : p.log.oldestOffset ≤ p.highWatermark
  fin : p.highWatermark ≤ p.leo

/-- `MakeLeader` gets the watermark of the partition, as `Reconcile` passes it, or
the end of its log, as `CreateTopic` does. The internal `Append` is left out. -/
def Called (p : Partition) (x : Operation × Faults) : Prop :=
  match x.1 with
  | .makeLeader _ _ initialHW => initialHW = p.highWatermark ∨ initialHW = p.leo
  | .append _ _ => False
  | _ => True

/-- The offsets of an append do not overflow. -/
def Fits (crc : Checksum) (p : Partition) (x : Operation × Faults) : Prop :=
  match x.1 with
  | .appendRaw data _ => p.log.Spacious crc data
  | .appendFromLeader data _ _ => p.log.Spacious crc data
  | _ => True

/-- What an operation may do to the watermark. -/
def Holds (p : Partition) (x : Operation × Faults) (p' : Partition) : Prop :=
  match x.1 with
  | .truncateTo _ => p'.highWatermark = min p.highWatermark p'.leo
  | _ => p.highWatermark ≤ p'.highWatermark

/-- An operation that is no truncation: the log keeps its start and does not get
shorter, and the watermark ends up between `a` and the end of the log. -/
structure Grows (a : Nat) (p p' : Partition) : Prop where
  oldest : p'.log.oldestOffset = p.log.oldestOffset
  leo : p.leo ≤ p'.leo
  low : a ≤ p'.highWatermark
  high : p'.highWatermark ≤ p'.leo

/-- What makes an operation one of those. -/
def Forward (crc : Checksum) (a : Nat) (p : Partition) (x : Operation × Faults) : Prop :=
  match x.1 with
  | .makeLeader _ _ initialHW => a ≤ initialHW ∧ initialHW ≤ p.leo
  | .append _ _ => False
  | .appendRaw data _ => p.log.Spacious crc data
  | .appendFromLeader data _ _ => p.log.Spacious crc data
  | .truncateTo _ => False
  | _ => True

section Step

variable {crc : Checksum} {a : Nat} {p : Partition} (hlow : a ≤ p.highWatermark)
  (hhigh : p.highWatermark ≤ p.leo)

include hlow hhigh

theorem Grows.refl : Grows a p p := ⟨rfl, Nat.le_refl _, hlow, hhigh⟩

/-- Nothing moved but perhaps the role. -/
theorem Grows.same {p' : Partition} (hlog : SameLog p p')
    (hhw : p'.highWatermark = p.highWatermark) : Grows a p p' where
  oldest := hlog.oldest
  leo := hlog.leo.ge
  low := hhw ▸ hlow
  high := by
    rw [hlog.leo, hhw]
    exact hhigh

/-- The log grew and the watermark did not move. -/
theorem Grows.withLog {l : Log} (hold : l.oldestOffset = p.log.oldestOffset)
    (hle : p.log.nextOffset ≤ l.nextOffset) : Grows a p { p with log := l } :=
  ⟨hold, hle, hlow, hhigh.trans hle⟩

/-- The log grew and the watermark is reconsidered. -/
theorem Grows.advance {q : Partition} (hold : q.log.oldestOffset = p.log.oldestOffset)
    (hleo : p.leo ≤ q.leo) (hhw : q.highWatermark = p.highWatermark) :
    Grows a p q.maybeAdvanceHW := by
  have hcommon : q.commonLEO ≤ q.leo := minLEO_le _ _ _
  refine ⟨by rw [maybeAdvanceHW_log, hold], by rwa [maybeAdvanceHW_leo], ?_, ?_⟩
  · rcases q.maybeAdvanceHW_rises with ⟨hsame, -⟩ | ⟨-, hlt, hrise, -⟩
    · omega
    · omega
  · rw [maybeAdvanceHW_leo]
    rcases q.maybeAdvanceHW_rises with ⟨hsame, -⟩ | ⟨-, hlt, hrise, -⟩
    · omega
    · omega

theorem Grows.noted {p' : Partition} {replicaID : Int32} {offset : Nat}
    (hp : p' = p ∨ p' = p.updateFollowerLEO replicaID offset) : Grows a p p' := by
  rcases hp with rfl | rfl
  · exact .refl hlow hhigh
  · exact .advance hlow hhigh rfl (Nat.le_refl _) rfl

theorem Grows.followHW {q : Partition} (hold : q.log.oldestOffset = p.log.oldestOffset)
    (hleo : p.leo ≤ q.leo) (hhw : q.highWatermark = p.highWatermark) (oldLEO leaderHW : Nat) :
    Grows a p (q.followHW oldLEO leaderHW) := by
  obtain ⟨notified, hf, -⟩ := q.followHW_cases oldLEO leaderHW
  rw [hf]
  exact ⟨hold, hleo, (hhw ▸ hlow).trans (le_max_left _ _),
    max_le (hhw.le.trans (hhigh.trans hleo)) (min_le_right _ _)⟩

theorem Grows.makeLeader {epoch : Int32} {initialISR : List Int32} {initialHW : Nat}
    (hge : a ≤ initialHW) (hle : initialHW ≤ p.leo) (io : Faults) :
    Grows a p (p.makeLeader epoch initialISR initialHW io).2 := by
  rcases p.makeLeader_cases io epoch initialISR initialHW with
    ⟨-, e, p', he, rfl | hdown⟩ | ⟨-, p', he, hup⟩
  · rw [he]
    exact .refl hlow hhigh
  · rw [he]
    exact .same hlow hhigh hdown.toSameLog hdown.highWatermark
  · rw [he]
    refine ⟨hup.oldest, hup.leo.ge, ?_, ?_⟩
    · rw [hup.highWatermark]
      exact hge
    · rw [hup.highWatermark, hup.leo]
      exact hle

theorem Grows.appendRaw {data : ByteString} (hfits : p.log.Spacious crc data) (acks : Acks)
    (io : Faults) : Grows a p (p.appendRaw crc data acks io).2 := by
  obtain ⟨r, l, hlog, hold, hle⟩ := hfits.appendRaw p.leaderEpoch io
  rcases p.appendRaw_cases crc io data acks with ⟨e, he⟩ | ⟨-, -, r', l', hr, hcase⟩
  · rw [he]
    exact .refl hlow hhigh
  · obtain ⟨-, rfl⟩ := Prod.mk.inj (hlog.symm.trans hr)
    rcases hcase with ⟨e, e', -, he⟩ | ⟨x, y, purgatory, pushed, -, he⟩
    · rw [he]
      exact .withLog hlow hhigh hold hle
    · rw [he]
      exact .advance hlow hhigh hold hle rfl

theorem Grows.appendFromLeader {data : ByteString} (hfits : p.log.Spacious crc data)
    (fetchEpoch : Int32) (leaderHW : Nat) (io : Faults) :
    Grows a p (p.appendFromLeader crc data fetchEpoch leaderHW io).2 := by
  obtain ⟨r, l, hlog, hold, hle⟩ := hfits.appendReplicaRaw fetchEpoch io
  rcases p.appendFromLeader_cases crc io data fetchEpoch leaderHW with
    ⟨e, he⟩ | ⟨-, he | ⟨r', l', hr, hcase⟩⟩
  · rw [he]
    exact .refl hlow hhigh
  · rw [he]
    exact .followHW hlow hhigh rfl (Nat.le_refl _) rfl p.leo leaderHW
  · obtain ⟨-, rfl⟩ := Prod.mk.inj (hlog.symm.trans hr)
    rcases hcase with ⟨e, e', -, he⟩ | ⟨n, -, he⟩
    · rw [he]
      exact .withLog hlow hhigh hold hle
    · rw [he]
      exact .followHW (q := { p with log := l }) hlow hhigh hold hle rfl p.leo leaderHW

theorem Grows.close : Grows a p p.close := by
  unfold Partition.close
  split
  · exact .refl hlow hhigh
  · exact .same hlow hhigh ⟨rfl, rfl⟩ rfl

theorem Grows.perform {x : Operation × Faults} (hx : p.Forward crc a x) :
    Grows a p (p.perform crc x).2 := by
  obtain ⟨op, io⟩ := x
  cases op with
  | makeLeader epoch initialISR initialHW =>
    simpa only [Partition.perform, answer_snd] using Grows.makeLeader hlow hhigh hx.1 hx.2 io
  | makeFollower epoch leaderID =>
    exact .same hlow hhigh (p.makeFollower_stepsDown epoch leaderID).toSameLog rfl
  | makeUnassigned => exact .same hlow hhigh p.makeUnassigned_stepsDown.toSameLog rfl
  | updateLeaderISR epoch ids =>
    simp only [Partition.perform, answer_snd]
    rcases p.updateLeaderISR_cases epoch ids with ⟨e, he⟩ | ⟨isr, he⟩
    · rw [he]
      exact .refl hlow hhigh
    · rw [he]
      exact .advance hlow hhigh rfl (Nat.le_refl _) rfl
  | append batch acks => exact absurd hx id
  | appendRaw data acks =>
    simpa only [Partition.perform, answer_snd] using Grows.appendRaw hlow hhigh hx acks io
  | appendFromLeader data fetchEpoch leaderHW =>
    simpa only [Partition.perform, answer_snd] using
      Grows.appendFromLeader hlow hhigh hx fetchEpoch leaderHW io
  | truncateTo offset => exact absurd hx id
  | fetchRaw fetchOffset replicaID maxBytes =>
    obtain ⟨r, p', he, hp⟩ := p.fetchRaw_cases fetchOffset replicaID maxBytes
    simp only [Partition.perform, answer_snd, he]
    exact .noted hlow hhigh hp
  | fetchRawRanges fetchOffset replicaID maxBytes allowOversizedFirstBatch =>
    obtain ⟨r, p', he, hp⟩ :=
      p.fetchRawRanges_cases fetchOffset replicaID maxBytes allowOversizedFirstBatch
    simp only [Partition.perform, answer_snd, he]
    exact .noted hlow hhigh hp
  | close => exact .close hlow hhigh

end Step

/-- A truncation moves the end of a log back to the offset or not at all, and the
watermark along. -/
theorem truncateTo_lowers (p : Partition) (hhigh : p.highWatermark ≤ p.leo) (offset : Nat)
    (io : Faults) :
    (p.truncateTo offset io).2.log.oldestOffset = p.log.oldestOffset ∧
      (p.truncateTo offset io).2.highWatermark =
        min p.highWatermark (p.truncateTo offset io).2.leo ∧
      ((p.truncateTo offset io).2.leo = p.leo ∨ p.isLeader = false ∧
        p.log.oldestOffset ≤ offset ∧ offset < p.leo ∧
          (p.truncateTo offset io).2.leo = offset) := by
  rcases p.truncateTo_cases io offset with ⟨-, e, he⟩ | ⟨hl, r, l, hr, r', notified, he, -⟩
  · rw [he]
    exact ⟨rfl, (min_eq_left hhigh).symm, .inl rfl⟩
  · obtain ⟨r'', l', hr', hold, hnext⟩ := p.log.truncateTo_moves offset io
    obtain ⟨-, rfl⟩ := Prod.mk.inj (hr'.symm.trans hr)
    rw [he]
    refine ⟨hold, rfl, ?_⟩
    rcases hnext with hnext | ⟨hge, hlt, hnext⟩
    · exact .inl hnext
    · exact .inr ⟨hl, hge, hlt, hnext⟩

/-- One operation keeps the watermark in the log, and lowers it only as a
truncation may. -/
theorem Bounded.perform {crc : Checksum} {p : Partition} (h : p.Bounded)
    {x : Operation × Faults} (hcalled : p.Called x) (hfits : p.Fits crc x) :
    (p.perform crc x).2.Bounded ∧ p.Holds x (p.perform crc x).2 := by
  have hstart := h.start
  have hfin := h.fin
  have hgrown : p.Forward crc p.highWatermark x →
      (p.perform crc x).2.Bounded ∧ p.highWatermark ≤ (p.perform crc x).2.highWatermark := by
    intro hx
    have hg := Grows.perform (Nat.le_refl _) hfin hx
    exact ⟨⟨hg.oldest.le.trans (hstart.trans hg.low), hg.high⟩, hg.low⟩
  obtain ⟨op, io⟩ := x
  cases op with
  | truncateTo offset =>
    obtain ⟨hold, hhw, hleo⟩ := p.truncateTo_lowers hfin offset io
    simp only [Partition.perform, answer_snd, Holds]
    refine ⟨⟨?_, ?_⟩, hhw⟩
    · rw [hold, hhw]
      omega
    · rw [hhw]
      exact min_le_right _ _
  | makeLeader epoch initialISR initialHW =>
    refine hgrown ?_
    rcases hcalled with rfl | rfl
    · exact ⟨Nat.le_refl _, hfin⟩
    · exact ⟨hfin, Nat.le_refl _⟩
  | append batch acks => exact absurd hcalled id
  | appendRaw data acks => exact hgrown hfits
  | appendFromLeader data fetchEpoch leaderHW => exact hgrown hfits
  | makeFollower epoch leaderID => exact hgrown trivial
  | makeUnassigned => exact hgrown trivial
  | updateLeaderISR epoch ids => exact hgrown trivial
  | fetchRaw fetchOffset replicaID maxBytes => exact hgrown trivial
  | fetchRawRanges fetchOffset replicaID maxBytes allowOversizedFirstBatch => exact hgrown trivial
  | close => exact hgrown trivial

/-- In every run on a log that does not end before it starts, and whose appends do
not overflow the offsets, the watermark stays in the log and falls only as a
truncation makes it. -/
theorem watermark_never_regresses (crc : Checksum) (id : Int32) {l : Log}
    (hl : l.oldestOffset ≤ l.nextOffset) (run : List (Operation × Faults))
    (hrun : Runs.Guarded (perform crc) (fun p x => p.Called x ∧ p.Fits crc x) (newPartition id l)
      run) :
    Runs.Always (perform crc) Bounded (newPartition id l) run ∧
      Runs.Guarded (perform crc) (fun p x => p.Holds x (p.perform crc x).2) (newPartition id l)
        run :=
  Runs.always_guarded (perform crc) (fun _ _ h hx => h.perform hx.1 hx.2)
    ⟨Nat.le_refl _, hl⟩ run hrun

/-- A leadership with a record, then two records of another leader, of which the
last is truncated away although the watermark had reached it. -/
def demotedRun : List (Operation × Faults) :=
  [(.makeLeader 1 [1] 0, .none), (.appendRaw (Log.sampleRequest 1) .leader, .none),
    (.makeFollower 2 2, .none),
    (.appendFromLeader (stamp 2 1 (Log.sampleRequest 1) ++ stamp 2 2 (Log.sampleRequest 1)) 2 3,
      .none),
    (.truncateTo 1, ⟨false, none, false, false, fun _ => true⟩), (.makeLeader 3 [1] 1, .none)]

theorem watermark_never_regresses_demotedRun :
    (Runs.Always (perform crc32c) Bounded (newPartition 1 (Log.fresh Log.tightConfig)) demotedRun ∧
      Runs.Guarded (perform crc32c) (fun p x => p.Holds x (p.perform crc32c x).2)
        (newPartition 1 (Log.fresh Log.tightConfig)) demotedRun) ∧
    (Runs.final (perform crc32c) (newPartition 1 (Log.fresh Log.tightConfig))
      (demotedRun.take 4)).highWatermark = 3 ∧
    (Runs.final (perform crc32c) (newPartition 1 (Log.fresh Log.tightConfig))
      (demotedRun.take 5)).highWatermark = 1 := by
  refine ⟨watermark_never_regresses crc32c 1 (by decide) demotedRun
    ⟨⟨.inl (by decide +kernel), trivial⟩, ⟨trivial, .inl (by decide +kernel)⟩,
      ⟨trivial, trivial⟩, ⟨trivial, .inl (by decide +kernel)⟩, ⟨trivial, trivial⟩,
      ⟨.inl (by decide +kernel), trivial⟩, trivial⟩, by decide +kernel, by decide +kernel⟩

/-- A directory whose only segment starts at the largest offset and holds a
record. Opening it wraps the end offset around to 0, where an append would have
refused the record. -/
theorem wrapped_log_out_of_bounds :
    ∃ l, newLog crc32c Log.tightConfig [(2 ^ 64 - 1, Log.sampleRequest 1)] none .none = .ok l ∧
      (newPartition 1 l).leo = 0 ∧ (newPartition 1 l).highWatermark = 2 ^ 64 - 1 ∧
      ¬ (newPartition 1 l).Bounded := by
  have hends : (newLog crc32c Log.tightConfig [(2 ^ 64 - 1, Log.sampleRequest 1)] none
      .none).toOption.map (fun l => (l.oldestOffset, l.nextOffset)) = some (2 ^ 64 - 1, 0) := by
    decide +kernel
  cases hl : newLog crc32c Log.tightConfig [(2 ^ 64 - 1, Log.sampleRequest 1)] none .none with
  | error e =>
    rw [hl] at hends
    cases hends
  | ok l =>
    rw [hl] at hends
    obtain ⟨hold, hnext⟩ := Prod.mk.inj (Option.some.inj hends)
    refine ⟨l, rfl, hnext, hold, fun h => ?_⟩
    have hfin : l.oldestOffset ≤ l.nextOffset := h.fin
    rw [hold, hnext] at hfin
    exact absurd hfin (by decide)

end Partition

end MessageBroker.Broker
