import MessageBroker.Broker.Watermark

/-!
# Advancing the high watermark while others run

`maybeAdvanceHW` takes no lock of the partition for its whole length: it checks
the role, reads the in-sync set and the end of the log, and only then swaps the
watermark. Here any number of goroutines are somewhere in it, and others run
complete calls in between. The watermark stays in the log unless a truncation
cuts below what one of them has read.
-/
namespace MessageBroker.Broker

open Lib.Bytes Lib Storage

/-- Where a goroutine is in `maybeAdvanceHW`. -/
inductive AdvancePhase
  /-- before the check of the role -/
  | start
  /-- before reading the in-sync set and the end of the log -/
  | checked
  /-- at the head of the loop, with the watermark to reach -/
  | read (newHW : Nat)
  /-- before the swap, with the watermark it has loaded -/
  | loaded (newHW current : Nat)
  /-- after the loop, before draining up to `hw` and waking the fetches if it `moved` -/
  | drain (hw : Nat) (moved : Bool)
  | done
  deriving DecidableEq

namespace Partition

/-- One step of `maybeAdvanceHW`. -/
def advance (p : Partition) : AdvancePhase → Partition × AdvancePhase
  | .start => if p.isLeader then (p, .checked) else (p, .done)
  | .checked => if p.isr = [] then (p, .done) else (p, .read p.commonLEO)
  | .read newHW =>
      if newHW ≤ p.highWatermark then (p, .drain p.highWatermark false)
      else (p, .loaded newHW p.highWatermark)
  | .loaded newHW current =>
      if p.highWatermark = current then ({ p with highWatermark := newHW }, .drain newHW true)
      else (p, .read newHW)
  | .drain hw moved =>
      (if moved then (p.drainPurgatory hw).notifyWaiters else p.drainPurgatory hw, .done)
  | .done => (p, .done)

/-- `n` steps with nothing in between. -/
def advanceAlone (p : Partition) (phase : AdvancePhase) : Nat → Partition × AdvancePhase
  | 0 => (p, phase)
  | n + 1 => advanceAlone (p.advance phase).1 (p.advance phase).2 n

theorem advanceAlone_done (p : Partition) : ∀ n, p.advanceAlone .done n = (p, .done)
  | 0 => rfl
  | n + 1 => advanceAlone_done p n

theorem advanceAlone_add (p : Partition) (phase : AdvancePhase) (m n : Nat) :
    p.advanceAlone phase (m + n) =
      (p.advanceAlone phase m).1.advanceAlone (p.advanceAlone phase m).2 n := by
  induction m generalizing p phase with
  | zero =>
    rw [Nat.zero_add]
    rfl
  | succ m ih =>
    rw [Nat.succ_add]
    exact ih _ _

/-- Undisturbed, the steps add up to `maybeAdvanceHW`. -/
theorem advanceAlone_start (p : Partition) :
    p.advanceAlone .start 5 = (p.maybeAdvanceHW, .done) := by
  rcases p.maybeAdvanceHW_cases with ⟨hno, h⟩ | ⟨hl, hisr, hle, h⟩ | ⟨hl, hisr, hlt, h⟩
  · rw [h]
    cases hl : p.isLeader with
    | false =>
      have h1 : p.advance .start = (p, .done) := by simp [advance, hl]
      rw [advanceAlone, h1, advanceAlone_done]
    | true =>
      have hisr : p.isr = [] := by
        rcases hno with hno | hno
        · rw [hl] at hno
          cases hno
        · exact hno
      have h1 : p.advance .start = (p, .checked) := by simp [advance, hl]
      have h2 : p.advance .checked = (p, .done) := by simp [advance, hisr]
      rw [advanceAlone, h1, advanceAlone, h2, advanceAlone_done]
  · have h1 : p.advance .start = (p, .checked) := by simp [advance, hl]
    have h2 : p.advance .checked = (p, .read p.commonLEO) := by simp [advance, hisr]
    have h3 : p.advance (.read p.commonLEO) = (p, .drain p.highWatermark false) := by
      simp [advance, hle]
    rw [h, advanceAlone, h1, advanceAlone, h2, advanceAlone, h3]
    rfl
  · have h1 : p.advance .start = (p, .checked) := by simp [advance, hl]
    have h2 : p.advance .checked = (p, .read p.commonLEO) := by simp [advance, hisr]
    have h3 : p.advance (.read p.commonLEO) = (p, .loaded p.commonLEO p.highWatermark) := by
      simp [advance, hlt]
    have h4 : p.advance (.loaded p.commonLEO p.highWatermark) =
        ({ p with highWatermark := p.commonLEO }, .drain p.commonLEO true) := by
      simp [advance]
    rw [h, advanceAlone, h1, advanceAlone, h2, advanceAlone, h3, advanceAlone, h4]
    rfl

end Partition

/-! ## Interleavings -/

/-- A partition with the goroutines that are in `maybeAdvanceHW`. -/
structure Racing where
  p : Partition
  routines : List AdvancePhase

inductive RacingEvent
  /-- a goroutine enters `maybeAdvanceHW` -/
  | enter
  /-- a goroutine in it takes its next step -/
  | advance (i : Nat)
  /-- a request of `AppendRaw`, before its `maybeAdvanceHW` -/
  | store (data : ByteString) (acks : Acks) (io : Faults)
  /-- a position noted by `updateFollowerLEO`, before its `maybeAdvanceHW` -/
  | note (brokerID : Int32) (leo : Nat)
  /-- an in-sync set taken by `UpdateLeaderISR`, before its `maybeAdvanceHW` -/
  | publish (epoch : Int32) (ids : List Int32)
  /-- a complete call -/
  | call (x : Operation × Faults)

namespace Racing

def step (crc : Checksum) (s : Racing) : RacingEvent → Option PartitionError × Racing
  | .enter => (none, { s with routines := s.routines ++ [.start] })
  | .advance i =>
      match s.routines[i]? with
      | none => (none, s)
      | some phase => (none, ⟨(s.p.advance phase).1, s.routines.set i (s.p.advance phase).2⟩)
  | .store data acks io =>
      (Partition.answer (s.p.storeRaw crc data acks io)).map id fun p => { s with p := p }
  | .note brokerID leo => (none, { s with
      p := { s.p with
        isr := Partition.setLEO brokerID leo s.p.isr } })
  | .publish epoch ids => (none, { s with p := (s.p.setISR epoch ids).2 })
  | .call x => (s.p.perform crc x).map id fun p => { s with p := p }

/-- The watermark a goroutine is going to set. -/
def newHW? : AdvancePhase → Option Nat
  | .read newHW => some newHW
  | .loaded newHW _ => some newHW
  | _ => none

/-- Neither the watermark nor one that a goroutine is going to set lies beyond the
log. -/
structure Below (s : Racing) : Prop where
  hw : s.p.highWatermark ≤ s.p.leo
  held : ∀ phase ∈ s.routines, ∀ newHW, newHW? phase = some newHW → newHW ≤ s.p.leo

/-- The condition on an event: a truncation does not cut below a watermark that a
goroutine is going to set, a leadership does not start beyond the log, and the
offsets of an append do not overflow. -/
def Orderly (crc : Checksum) (s : Racing) : RacingEvent → Prop
  | .store data _ _ => s.p.log.Spacious crc data
  | .call (.truncateTo offset, _) => s.p.isLeader = true ∨ s.p.leo ≤ offset ∨
      ∀ phase ∈ s.routines, ∀ newHW, newHW? phase = some newHW → newHW ≤ offset
  | .call (.append _ _, _) => False
  | .call x => s.p.Forward crc 0 x
  | _ => True

theorem Below.mono {s : Racing} (h : s.Below) {p : Partition} (hleo : s.p.leo ≤ p.leo)
    (hhw : p.highWatermark ≤ p.leo) : Below { s with p := p } :=
  ⟨hhw, fun phase hp newHW hn => (h.held phase hp newHW hn).trans hleo⟩

/-- The steps of a goroutine in `maybeAdvanceHW` stay below the end of the log. -/
theorem Below.advance {s : Racing} (h : s.Below) {i : Nat} {phase : AdvancePhase}
    (hi : s.routines[i]? = some phase) :
    Below ⟨(s.p.advance phase).1, s.routines.set i (s.p.advance phase).2⟩ := by
  have hmine := h.held phase (List.mem_of_getElem? hi)
  have hlog : (s.p.advance phase).1.leo = s.p.leo := by
    cases phase <;> simp only [Partition.advance] <;> split <;> rfl
  have hhw : (s.p.advance phase).1.highWatermark ≤ s.p.leo := by
    cases phase with
    | loaded newHW current =>
      have hnew := hmine newHW rfl
      simp only [Partition.advance]
      split
      · exact hnew
      · exact h.hw
    | start => simp only [Partition.advance]; split <;> exact h.hw
    | checked => simp only [Partition.advance]; split <;> exact h.hw
    | read newHW => simp only [Partition.advance]; split <;> exact h.hw
    | drain hw moved => simp only [Partition.advance]; split <;> exact h.hw
    | done => exact h.hw
  have hnext : ∀ newHW, newHW? (s.p.advance phase).2 = some newHW → newHW ≤ s.p.leo := by
    intro newHW hn
    cases phase with
    | start => simp only [Partition.advance] at hn; split at hn <;> cases hn
    | checked =>
      simp only [Partition.advance] at hn
      split at hn
      · cases hn
      · cases hn
        exact Partition.minLEO_le _ _ _
    | read n =>
      simp only [Partition.advance] at hn
      split at hn
      · cases hn
      · cases hn
        exact hmine _ rfl
    | loaded n current =>
      simp only [Partition.advance] at hn
      split at hn
      · cases hn
      · cases hn
        exact hmine _ rfl
    | drain hw moved => cases hn
    | done => cases hn
  refine ⟨hlog ▸ hhw, fun phase' hp newHW hn => ?_⟩
  rw [hlog]
  rcases List.mem_or_eq_of_mem_set hp with hp | rfl
  · exact h.held phase' hp newHW hn
  · exact hnext newHW hn

theorem Below.step {crc : Checksum} {s : Racing} (h : s.Below) {e : RacingEvent}
    (he : s.Orderly crc e) : (s.step crc e).2.Below := by
  cases e with
  | enter =>
    refine ⟨h.hw, fun phase hp newHW hn => ?_⟩
    rcases List.mem_append.mp hp with hp | hp
    · exact h.held phase hp newHW hn
    · rw [List.mem_singleton.mp hp] at hn
      cases hn
  | advance i =>
    cases hi : s.routines[i]? with
    | none => simpa only [Racing.step, hi] using h
    | some phase => simpa only [Racing.step, hi] using h.advance hi
  | store data acks io =>
    simp only [Racing.step, Prod.map_snd, Partition.answer_snd]
    obtain ⟨r, l, hlog, hold, hle⟩ := Log.Spacious.appendRaw he s.p.leaderEpoch io
    rcases s.p.storeRaw_cases crc data acks io with ⟨e, hs⟩ | ⟨-, -, r', l', hr, hs⟩
    · rw [hs]
      exact h
    obtain ⟨-, rfl⟩ := Prod.mk.inj (hlog.symm.trans hr)
    rcases hs with ⟨e, e', -, hs⟩ | ⟨x, y, purgatory, pushed, -, hs⟩
    · rw [hs]
      exact h.mono hle (h.hw.trans hle)
    · rw [hs]
      exact h.mono hle (h.hw.trans hle)
  | note brokerID leo => exact ⟨h.hw, h.held⟩
  | publish epoch ids =>
    simp only [Racing.step]
    rcases s.p.setISR_cases epoch ids with ⟨e, hs⟩ | hs
    · rw [hs]
      exact h
    · rw [hs]
      exact h.mono le_rfl h.hw
  | call x =>
    simp only [Racing.step, Prod.map_snd]
    have hforward : s.p.Forward crc 0 x → Below { s with p := (s.p.perform crc x).2 } := by
      intro hx
      have hg := Partition.Grows.perform (Nat.zero_le _) h.hw hx
      exact h.mono hg.leo hg.high
    obtain ⟨op, io⟩ := x
    cases op with
    | truncateTo offset =>
      obtain ⟨-, hhw, hleo⟩ := s.p.truncateTo_lowers h.hw offset io
      simp only [Partition.perform, Partition.answer_snd]
      have hbelow : (s.p.truncateTo offset io).2.highWatermark ≤
          (s.p.truncateTo offset io).2.leo := by
        rw [hhw]
        exact min_le_right _ _
      rcases hleo with hleo | ⟨hl, -, hlt, hleo⟩
      · exact h.mono hleo.ge hbelow
      · refine ⟨hbelow, fun phase hp newHW hn => ?_⟩
        show newHW ≤ (s.p.truncateTo offset io).2.leo
        rw [hleo]
        rcases he with he | he | he
        · rw [hl] at he
          cases he
        · omega
        · exact he phase hp newHW hn
    | append batch acks => exact absurd he id
    | makeLeader epoch initialISR initialHW => exact hforward he
    | makeFollower epoch leaderID => exact hforward trivial
    | makeUnassigned => exact hforward trivial
    | updateLeaderISR epoch ids => exact hforward trivial
    | appendRaw data acks => exact hforward he
    | appendFromLeader data fetchEpoch leaderHW => exact hforward he
    | fetchRaw fetchOffset replicaID maxBytes => exact hforward trivial
    | fetchRawRanges fetchOffset replicaID maxBytes allowed => exact hforward trivial
    | close => exact hforward trivial

/-- A partition that nobody is using yet. -/
def idle (id : Int32) (l : Log) : Racing := ⟨newPartition id l, []⟩

theorem below_idle (id : Int32) {l : Log} (hl : l.oldestOffset ≤ l.nextOffset) :
    (idle id l).Below :=
  ⟨hl, fun _ hp => absurd hp List.not_mem_nil⟩

/-- In every interleaving whose events meet the condition, the watermark is in the
log in every state. -/
theorem watermark_below_end (crc : Checksum) (id : Int32) {l : Log}
    (hl : l.oldestOffset ≤ l.nextOffset) (run : List RacingEvent)
    (hrun : Runs.Guarded (step crc) (Orderly crc) (idle id l) run) :
    Runs.Always (step crc) (fun s => s.p.highWatermark ≤ s.p.leo) (idle id l) run := by
  have hbelow := Runs.always_guarded (step crc) (Q := fun _ _ => True)
    (fun _ _ h he => ⟨h.step he, trivial⟩) (below_idle id hl) run hrun
  exact hbelow.1.mono (step crc) (fun _ h => h.hw)

/-- A leader has a record and checks that it leads; it is demoted and follows
another leader before it reads the in-sync set, and truncates to the offset it has
read. -/
def demotedBetween : List RacingEvent :=
  [.call (.makeLeader 1 [1] 0, .none), .store (Log.sampleRequest 1) .leader .none, .enter,
    .advance 0, .advance 0, .call (.makeFollower 2 2, .none),
    .call (.appendFromLeader (stamp 2 1 (Log.sampleRequest 1)) 2 2, .none),
    .call (.truncateTo 1, .none), .advance 0, .advance 0, .advance 0]

theorem watermark_below_end_demotedBetween :
    Runs.Always (step crc32c) (fun s => s.p.highWatermark ≤ s.p.leo)
      (idle 1 (Log.fresh Log.tightConfig)) demotedBetween ∧
    (Runs.final (step crc32c) (idle 1 (Log.fresh Log.tightConfig))
      demotedBetween).p.highWatermark = 1 := by
  refine ⟨watermark_below_end crc32c 1 (by decide) demotedBetween
    ⟨⟨by decide, by decide⟩, .inl (by decide +kernel), trivial, trivial, trivial, trivial,
      .inl (by decide +kernel), .inr (.inr (by decide +kernel)), trivial, trivial, trivial,
      trivial⟩, ?_⟩
  decide +kernel

/-- A leader reads the end of its log, is demoted and truncates, and then sets the
watermark it has read. -/
theorem stale_watermark_beyond_log :
    let s := Runs.final (step crc32c) (idle 1 (Log.fresh Log.tightConfig))
      [.call (.makeLeader 1 [1] 0, .none), .store (Log.sampleRequest 1) .leader .none, .enter,
        .advance 0, .advance 0, .call (.makeFollower 2 2, .none), .call (.truncateTo 0, .none),
        .advance 0, .advance 0]
    s.p.isLeader = false ∧ s.p.highWatermark = 1 ∧ s.p.leo = 0 := by
  decide +kernel

end Racing

end MessageBroker.Broker
