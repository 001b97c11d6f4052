import MessageBroker.Broker.Operations
import MessageBroker.Storage.Tiling

/-!
# Waking the waiting fetches

A long-polling fetch takes the channel of `NotifyChan`, reads, and waits on it.
An operation that changes what the fetch would read has to close that channel
before it returns, which the model counts in `notified`. Every method does,
except `Append`: it leaves the wake-up to the high watermark, which may not move.
-/
namespace MessageBroker.Broker

open Lib.Bytes Lib Storage

namespace Partition

/-- What a waiting fetch would see: the end of the log, the watermark, the role
and whether the partition is closed. -/
def Changed (p p' : Partition) : Prop :=
  p'.leo ≠ p.leo ∨ p'.highWatermark ≠ p.highWatermark ∨ p'.isLeader ≠ p.isLeader ∨
    p'.closed ≠ p.closed

/-- The channel that `NotifyChan` returned before has been closed. -/
def Woken (p p' : Partition) : Prop := p.notified < p'.notified

/-- If the operation changes something, the waiting fetches have been woken. -/
def Wakes (crc : Checksum) (p : Partition) (x : Operation × Faults) : Prop :=
  Changed p (p.perform crc x).2 → Woken p (p.perform crc x).2

/-- The log is in order for an append, and a batch has as many messages as a slice
can hold. -/
def InOrder (p : Partition) (x : Operation × Faults) : Prop :=
  match x.1 with
  | .append batch _ => p.log.Orderly ∧ batch.messages.length < 2 ^ 63
  | .appendRaw _ _ => p.log.Orderly
  | .appendFromLeader _ _ _ => p.log.Orderly
  | _ => True

/-- An `Append` stores nothing, or it advances the watermark: its `acks` are
known, and the watermark was behind the new end and every other replica. -/
def Heard (p : Partition) (x : Operation × Faults) : Prop :=
  match x.1 with
  | .append batch acks =>
      p.isLeader = false ∨ p.closed = true ∨ ¬ p.log.Takes batch x.2 ∨
        (∀ value, acks ≠ .invalid value) ∧ p.isr ≠ [] ∧
          p.highWatermark < (p.leo + batch.messages.length) % 2 ^ 64 ∧
          ∀ e ∈ p.isr, e.brokerID ≠ p.localBrokerID → p.highWatermark < e.leo
  | _ => True

/-! ## One method at a time -/

theorem not_changed_refl (p : Partition) : ¬ Changed p p := by
  rintro (h | h | h | h)
  · exact h rfl
  · exact h rfl
  · exact h rfl
  · exact h rfl

/-- Only the log was touched, and it ends where it did. -/
theorem not_changed_log {p : Partition} {l : Log} (hnext : l.nextOffset = p.leo) :
    ¬ Changed p { p with log := l } := by
  rintro (h | h | h | h)
  · exact h hnext
  · exact h rfl
  · exact h rfl
  · exact h rfl

theorem le_notified_maybeAdvanceHW (p : Partition) : p.notified ≤ p.maybeAdvanceHW.notified := by
  rcases p.maybeAdvanceHW_rises with ⟨-, h⟩ | ⟨-, -, -, h⟩
  · exact h.ge
  · omega

/-- Of what a fetch sees, `maybeAdvanceHW` changes the watermark only, with a
wake-up. -/
theorem wakes_maybeAdvanceHW {p q : Partition} (hleo : q.leo = p.leo)
    (hhw : q.highWatermark = p.highWatermark) (hl : q.isLeader = p.isLeader)
    (hc : q.closed = p.closed) (hn : q.notified = p.notified)
    (h : Changed p q.maybeAdvanceHW) : Woken p q.maybeAdvanceHW := by
  unfold Woken
  rcases q.maybeAdvanceHW_rises with ⟨hsame, -⟩ | ⟨-, -, -, hnotified⟩
  · rcases h with h | h | h | h
    · exact absurd ((maybeAdvanceHW_leo q).trans hleo) h
    · exact absurd (hsame.trans hhw) h
    · exact absurd ((maybeAdvanceHW_isLeader q).trans hl) h
    · exact absurd ((maybeAdvanceHW_closed q).trans hc) h
  · omega

theorem wakes_noted {p p' : Partition} {replicaID : Int32} {offset : Nat}
    (hp : p' = p ∨ p' = p.updateFollowerLEO replicaID offset) (h : Changed p p') :
    Woken p p' := by
  rcases hp with rfl | rfl
  · exact absurd h (not_changed_refl p')
  · exact wakes_maybeAdvanceHW (q := { p with isr := setLEO replicaID offset p.isr }) rfl rfl rfl
      rfl rfl h

theorem wakes_makeLeader (p : Partition) (epoch : Int32) (initialISR : List Int32)
    (initialHW : Nat) (io : Faults)
    (h : Changed p (p.makeLeader epoch initialISR initialHW io).2) :
    Woken p (p.makeLeader epoch initialISR initialHW io).2 := by
  unfold Woken
  rcases p.makeLeader_cases io epoch initialISR initialHW with
    ⟨-, e, p', he, rfl | hdown⟩ | ⟨-, p', he, hup⟩
  · rw [he] at h
    exact absurd h (not_changed_refl p')
  · rw [he, hdown.notified]
    exact Nat.lt_succ_self _
  · rw [he, hup.notified]
    exact Nat.lt_succ_self _

theorem wakes_appendRaw {crc : Checksum} {p : Partition} (hlog : p.log.Orderly)
    (data : ByteString) (acks : Acks) (io : Faults)
    (h : Changed p (p.appendRaw crc data acks io).2) :
    Woken p (p.appendRaw crc data acks io).2 := by
  obtain ⟨r, l, hlogr, hgrown⟩ := hlog.clear.appendRaw crc data p.leaderEpoch io
  rcases p.appendRaw_cases crc io data acks with ⟨e, he⟩ | ⟨-, -, r', l', hr, hcase⟩
  · rw [he] at h
    exact absurd h (not_changed_refl p)
  · obtain ⟨rfl, rfl⟩ := Prod.mk.inj (hlogr.symm.trans hr)
    rcases hcase with ⟨e, e', rfl, he⟩ | ⟨x, y, purgatory, pushed, rfl, he⟩
    · rw [he] at h
      exact absurd h (not_changed_log (hgrown.error_next hlog.indexBytes ⟨e, rfl⟩))
    · rw [he]
      exact Nat.lt_of_lt_of_le (Nat.lt_succ_self p.notified)
        (le_notified_maybeAdvanceHW
          { p with
            log := l
            notified := p.notified + 1
            purgatory := purgatory
            pushed := pushed })

/-- Following the leader wakes the fetches if anything moved since `p`. -/
theorem wakes_followHW {p : Partition} {l : Log} (leaderHW : Nat)
    (h : Changed p ({ p with log := l }.followHW p.leo leaderHW)) :
    Woken p ({ p with log := l }.followHW p.leo leaderHW) := by
  obtain ⟨notified, hf, hcase⟩ := Partition.followHW_cases { p with log := l } p.leo leaderHW
  rw [hf] at h ⊢
  rcases hcase with rfl | ⟨-, hleo, hhw⟩
  · exact Nat.lt_succ_self _
  · rcases h with h | h | h | h
    · exact absurd hleo h
    · exact absurd hhw h
    · exact absurd rfl h
    · exact absurd rfl h

theorem wakes_appendFromLeader {crc : Checksum} {p : Partition} (hlog : p.log.Orderly)
    (data : ByteString) (fetchEpoch : Int32) (leaderHW : Nat) (io : Faults)
    (h : Changed p (p.appendFromLeader crc data fetchEpoch leaderHW io).2) :
    Woken p (p.appendFromLeader crc data fetchEpoch leaderHW io).2 := by
  obtain ⟨r, l, hlogr, hgrown⟩ := hlog.clear.appendReplicaRaw crc data fetchEpoch io
  rcases p.appendFromLeader_cases crc io data fetchEpoch leaderHW with
    ⟨e, he⟩ | ⟨-, he | ⟨r', l', hr, hcase⟩⟩
  · rw [he] at h
    exact absurd h (not_changed_refl p)
  · rw [he] at h ⊢
    exact wakes_followHW (l := p.log) leaderHW h
  · obtain ⟨rfl, rfl⟩ := Prod.mk.inj (hlogr.symm.trans hr)
    rcases hcase with ⟨e, e', rfl, he⟩ | ⟨n, -, he⟩
    · rw [he] at h
      exact absurd h (not_changed_log (hgrown.error_next hlog.indexBytes ⟨e, rfl⟩))
    · rw [he] at h ⊢
      exact wakes_followHW leaderHW h

theorem wakes_truncateTo (p : Partition) (offset : Nat) (io : Faults)
    (h : Changed p (p.truncateTo offset io).2) : Woken p (p.truncateTo offset io).2 := by
  rcases p.truncateTo_cases io offset with ⟨-, e, he⟩ | ⟨-, r, l, -, r', notified, he, hcase⟩
  · rw [he] at h
    exact absurd h (not_changed_refl p)
  · rw [he] at h ⊢
    rcases hcase with rfl | ⟨-, hleo, hhw⟩
    · exact Nat.lt_succ_self _
    · rcases h with h | h | h | h
      · exact absurd hleo h
      · exact absurd (min_eq_left hhw) h
      · exact absurd rfl h
      · exact absurd rfl h

theorem wakes_close (p : Partition) (h : Changed p p.close) : Woken p p.close := by
  unfold Partition.close at h ⊢
  split at h
  · exact absurd h (not_changed_refl p)
  · rename_i hopen
    rw [if_neg hopen]
    exact Nat.lt_succ_self _

/-- `maybeAdvanceHW` wakes a leader's fetches exactly if the watermark was behind
the end of the log and every other replica. -/
theorem woken_maybeAdvanceHW_iff {q : Partition} (hl : q.isLeader = true) :
    q.notified < q.maybeAdvanceHW.notified ↔
      q.isr ≠ [] ∧ q.highWatermark < q.leo ∧
        ∀ e ∈ q.isr, e.brokerID ≠ q.localBrokerID → q.highWatermark < e.leo := by
  have hlt : q.highWatermark < q.commonLEO ↔ q.highWatermark < q.leo ∧
      ∀ e ∈ q.isr, e.brokerID ≠ q.localBrokerID → q.highWatermark < e.leo :=
    le_minLEO_iff (n := q.highWatermark + 1)
  rw [← hlt]
  rcases q.maybeAdvanceHW_cases with ⟨hno, h⟩ | ⟨-, -, hle, h⟩ | ⟨-, hisr, hrise, h⟩
  · rw [h]
    refine iff_of_false (Nat.lt_irrefl _) fun hyes => ?_
    rcases hno with hno | hno
    · rw [hl] at hno
      cases hno
    · exact hyes.1 hno
  · rw [h]
    exact iff_of_false (Nat.lt_irrefl _) fun hyes => absurd hyes.2 (not_lt.mpr hle)
  · rw [h]
    exact iff_of_true (Nat.lt_succ_self _) ⟨hisr, hrise⟩

theorem mod_add_ne {a n : Nat} (hpos : 0 < n) (hn : n < 2 ^ 64) : (a + n) % 2 ^ 64 ≠ a := by
  omega

/-- `Append` is the method that depends on its circumstances. -/
theorem wakes_append_iff {crc : Checksum} {p : Partition} (hlog : p.log.Orderly) {batch : Batch}
    (hsize : batch.messages.length < 2 ^ 63) (acks : Acks) (io : Faults) :
    p.Wakes crc (.append batch acks, io) ↔ p.Heard (.append batch acks, io) := by
  unfold Wakes
  simp only [perform, answer_snd, Heard]
  obtain ⟨r, l, hlogr, hstored⟩ := hlog.clear.append crc batch io
  rcases p.append_cases crc io batch acks with
    ⟨⟨e, he⟩, hrefused⟩ | ⟨hl, hopen, r', l', hr, hcase⟩
  · rw [he]
    refine iff_of_true (fun h => absurd h (not_changed_refl p)) ?_
    rcases hrefused with h | h
    · exact .inl h
    · exact .inr (.inl h)
  obtain ⟨rfl, rfl⟩ := Prod.mk.inj (hlogr.symm.trans hr)
  rcases hstored with ⟨hnot, ⟨e, rfl⟩, hnext⟩ | ⟨htakes, hnext, hok⟩
  · rcases hcase with ⟨e, e', -, he⟩ | ⟨x, hx, -⟩
    · rw [he]
      exact iff_of_true (fun h => absurd h (not_changed_log hnext)) (.inr (.inr (.inl hnot)))
    · cases hx
  -- the batch is stored, so the end of the log has moved
  have hmoved : l.nextOffset ≠ p.leo := by
    have hpos : 0 < batch.messages.length := List.length_pos_iff.mpr htakes.1
    rw [hnext]
    exact mod_add_ne hpos (by omega)
  have hcond : (p.isLeader = false ∨ p.closed = true ∨ ¬ p.log.Takes batch io ∨
      (∀ value, acks ≠ .invalid value) ∧ p.isr ≠ [] ∧
        p.highWatermark < (p.leo + batch.messages.length) % 2 ^ 64 ∧
        ∀ e ∈ p.isr, e.brokerID ≠ p.localBrokerID → p.highWatermark < e.leo) ↔
      (∀ value, acks ≠ .invalid value) ∧ p.isr ≠ [] ∧ p.highWatermark < l.nextOffset ∧
        ∀ e ∈ p.isr, e.brokerID ≠ p.localBrokerID → p.highWatermark < e.leo := by
    rw [hnext, hl, hopen]
    simp [htakes, leo]
  rw [hcond]
  rcases hcase with ⟨e, e', rfl, -⟩ | ⟨x, -, ⟨value, e, rfl, he⟩
      | ⟨hacks, y, purgatory, pushed, he⟩⟩
  · cases hok hlog.indexBytes
  · rw [he]
    exact iff_of_false (fun h => absurd (h (.inl hmoved)) (Nat.lt_irrefl p.notified))
      fun h => h.1 value rfl
  · rw [he]
    have hwoken := woken_maybeAdvanceHW_iff (q := { p with
      log := l
      purgatory := purgatory
      pushed := pushed }) hl
    constructor
    · intro h
      exact ⟨hacks, hwoken.mp (h (.inl (by rw [maybeAdvanceHW_leo]; exact hmoved)))⟩
    · intro h _
      exact hwoken.mpr h.2

/-! ## Every method -/

/-- In every state with its log in order, an operation wakes the fetches that wait
for what it changes exactly if it is no `Append` that is not heard. -/
theorem wakes_iff (crc : Checksum) (p : Partition) (x : Operation × Faults) (hx : p.InOrder x) :
    p.Wakes crc x ↔ p.Heard x := by
  obtain ⟨op, io⟩ := x
  cases op with
  | makeLeader epoch initialISR initialHW =>
    refine iff_of_true (fun h => ?_) trivial
    simp only [perform, answer_snd] at h ⊢
    exact p.wakes_makeLeader epoch initialISR initialHW io h
  | makeFollower epoch leaderID => exact iff_of_true (fun _ => Nat.lt_succ_self _) trivial
  | makeUnassigned => exact iff_of_true (fun _ => Nat.lt_succ_self _) trivial
  | updateLeaderISR epoch ids =>
    refine iff_of_true (fun h => ?_) trivial
    simp only [perform, answer_snd] at h ⊢
    rcases p.updateLeaderISR_cases epoch ids with ⟨e, he⟩ | ⟨isr, he⟩
    · rw [he] at h
      exact absurd h (not_changed_refl p)
    · rw [he] at h ⊢
      exact wakes_maybeAdvanceHW (q := { p with isr := isr }) rfl rfl rfl rfl rfl h
  | append batch acks => exact wakes_append_iff hx.1 hx.2 acks io
  | appendRaw data acks =>
    refine iff_of_true (fun h => ?_) trivial
    simp only [perform, answer_snd] at h ⊢
    exact wakes_appendRaw hx data acks io h
  | appendFromLeader data fetchEpoch leaderHW =>
    refine iff_of_true (fun h => ?_) trivial
    simp only [perform, answer_snd] at h ⊢
    exact wakes_appendFromLeader hx data fetchEpoch leaderHW io h
  | truncateTo offset =>
    refine iff_of_true (fun h => ?_) trivial
    simp only [perform, answer_snd] at h ⊢
    exact p.wakes_truncateTo offset io h
  | fetchRaw fetchOffset replicaID maxBytes =>
    refine iff_of_true (fun h => ?_) trivial
    obtain ⟨r, p', he, hp⟩ := p.fetchRaw_cases fetchOffset replicaID maxBytes
    simp only [perform, answer_snd, he] at h ⊢
    exact wakes_noted hp h
  | fetchRawRanges fetchOffset replicaID maxBytes allowOversizedFirstBatch =>
    refine iff_of_true (fun h => ?_) trivial
    obtain ⟨r, p', he, hp⟩ :=
      p.fetchRawRanges_cases fetchOffset replicaID maxBytes allowOversizedFirstBatch
    simp only [perform, answer_snd, he] at h ⊢
    exact wakes_noted hp h
  | close => exact iff_of_true p.wakes_close trivial

/-- A leader of an empty log, with these brokers in sync. -/
def leaderOf (ids : List Int32) : Partition :=
  (perform crc32c (newPartition 1 (Log.fresh Log.tightConfig)) (.makeLeader 1 ids 0, .none)).2

theorem wakes_iff_leaderOf :
    (leaderOf [1]).Wakes crc32c (.append Log.sampleBatch .leader, .none) ∧
      (leaderOf [1, 2]).Wakes crc32c (.appendRaw (Log.sampleRequest 1) .leader, .none) := by
  have halone : (leaderOf [1]).log.Orderly := ⟨by decide +kernel, by decide +kernel⟩
  have hpair : (leaderOf [1, 2]).log.Orderly := ⟨by decide +kernel, by decide +kernel⟩
  refine ⟨(wakes_iff crc32c (leaderOf [1]) (.append Log.sampleBatch .leader, .none)
      ⟨halone, by decide⟩).mpr (.inr (.inr (.inr ?_))),
    (wakes_iff crc32c (leaderOf [1, 2]) (.appendRaw (Log.sampleRequest 1) .leader, .none)
      hpair).mpr trivial⟩
  exact ⟨fun _ h => (by cases h), by decide +kernel, by decide +kernel, by decide +kernel⟩

/-- With a second broker in sync, an `Append` moves the end of the log and no
waiting fetch hears of it; the raw request with the same record is heard. -/
theorem append_unheard :
    (perform crc32c (leaderOf [1, 2]) (.append Log.sampleBatch .leader, .none)).1 = none ∧
      (perform crc32c (leaderOf [1, 2]) (.append Log.sampleBatch .leader, .none)).2.leo = 1 ∧
      (leaderOf [1, 2]).leo = 0 ∧
      ¬ (leaderOf [1, 2]).Wakes crc32c (.append Log.sampleBatch .leader, .none) := by
  refine ⟨by decide +kernel, by decide +kernel, by decide +kernel, fun h => ?_⟩
  have hchanged : Changed (leaderOf [1, 2])
      (perform crc32c (leaderOf [1, 2]) (.append Log.sampleBatch .leader, .none)).2 :=
    .inl (by decide +kernel)
  exact absurd (h hchanged) (by unfold Woken; decide +kernel)

end Partition

end MessageBroker.Broker
