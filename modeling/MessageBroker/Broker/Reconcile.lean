import MessageBroker.Broker.EpochTrace
import MessageBroker.Storage.Divergence

/-!
# Reconciling a follower with its leader

A follower asks the leader where its last epoch ends, truncates to the answer,
and goes on with an older epoch of its own until both sides name the same one.
The leader answers each request from one log. The result is a first part of the
leader's log exactly if the epochs of the two logs do not interleave in the way
described by `Log.Interleaving`.
-/
namespace MessageBroker.Broker

open Lib.Bytes Lib.Tiling Lib Storage Storage.EpochCache

/-- The answer for one partition in an `OffsetsForLeaderEpochResponse`. -/
structure EpochResponse where
  errorCode : Int16
  leaderEpoch : Int32
  endOffset : Int64
  deriving DecidableEq

inductive ReconcileError
  | code (errorCode : Int16)
  | undefined
  | truncate (offset : Nat) (e : PartitionError)
  | notConverged
  deriving DecidableEq

namespace Partition

/-- The leader's handler. -/
def offsetsForLeaderEpoch (p : Partition) (currentLeaderEpoch leaderEpoch : Int32) :
    EpochResponse :=
  match p.endOffsetForLeaderEpoch leaderEpoch currentLeaderEpoch with
  | .error (.code e) => ⟨e.toInt16, -1, -1⟩
  | .error _ => ⟨ErrorCode.storageError.toInt16, -1, -1⟩
  | .ok none => ⟨0, -1, -1⟩
  | .ok (some r) => ⟨0, r.epoch, Int64.ofNat r.endOffset⟩

end Partition

/-- The least of the leader's end, the local end if there is one, and the end of
the log. -/
def truncationOffset (leaderEnd : Nat) (localEnd : Option EpochEndOffset) (leo : Nat) : Nat :=
  let offset := match localEnd with
    | some l => if l.endOffset < leaderEnd then l.endOffset else leaderEnd
    | none => leaderEnd
  if leo < offset then leo else offset

/-- One pass of the loop: the epoch to go on with, or none at its end. -/
def reconcileRound (leader : Partition) (currentLeaderEpoch followerEpoch : Int32) (p : Partition)
    (io : Faults) : Except ReconcileError (Option Int32) × Partition :=
  let rp := leader.offsetsForLeaderEpoch currentLeaderEpoch followerEpoch
  if rp.errorCode ≠ 0 then (.error (.code rp.errorCode), p)
  else if rp.leaderEpoch < 0 ∨ rp.endOffset < 0 then (.error .undefined, p)
  else
    let localEnd := p.log.endOffsetForLeaderEpoch rp.leaderEpoch
    let offset := truncationOffset rp.endOffset.toUInt64.toNat localEnd p.leo
    match (if offset < p.leo then p.truncateTo offset io else (.ok (), p)) with
    | (.error e, p) => (.error (.truncate offset e), p)
    | (.ok (), p) =>
      match localEnd with
      | none => (.ok none, p)
      | some l => (.ok (if l.epoch = rp.leaderEpoch then none else some l.epoch), p)

/-- The loop, with the file operations that fail in each attempt. -/
def reconcileLoop (leader : Partition) (currentLeaderEpoch : Int32) (io : Nat → Faults) :
    Nat → Int32 → Partition → Except ReconcileError Unit × Partition
  | 0, _, p => (.error .notConverged, p)
  | attempts + 1, followerEpoch, p =>
      match reconcileRound leader currentLeaderEpoch followerEpoch p (io attempts) with
      | (.error e, p) => (.error e, p)
      | (.ok none, p) => (.ok (), p)
      | (.ok (some epoch), p) => reconcileLoop leader currentLeaderEpoch io attempts epoch p

def reconcilePartition (leader p : Partition) (currentLeaderEpoch : Int32) (io : Nat → Faults) :
    Except ReconcileError Unit × Partition :=
  match p.log.latestLeaderEpoch with
  | none => (.ok (), p)
  | some followerEpoch => reconcileLoop leader currentLeaderEpoch io 32 followerEpoch p

/-! ## One round -/

theorem Partition.endOffsetForLeaderEpoch_ok {p : Partition} {requested current : Int32}
    {x : Option EpochEndOffset} (h : p.endOffsetForLeaderEpoch requested current = .ok x) :
    p.log.endOffsetForLeaderEpoch requested = x := by
  unfold Partition.endOffsetForLeaderEpoch at h
  split at h
  · cases h
  split at h
  · cases h
  split at h
  · cases h
  · exact Except.ok.inj h

/-- A leader that answers without an error has looked the epoch up. -/
theorem endOffset_of_errorCode {leader : Partition} {current f : Int32}
    (hcode : (leader.offsetsForLeaderEpoch current f).errorCode = 0) :
    leader.endOffsetForLeaderEpoch f current = .ok (leader.log.endOffsetForLeaderEpoch f) := by
  unfold Partition.offsetsForLeaderEpoch at hcode
  cases hres : leader.endOffsetForLeaderEpoch f current with
  | error e =>
    rw [hres] at hcode
    cases e with
    | code e => cases e <;> cases hcode
    | _ => cases hcode
  | ok x => rw [Partition.endOffsetForLeaderEpoch_ok hres]

theorem offsetsForLeaderEpoch_ok {leader : Partition} {current f : Int32}
    (hcode : (leader.offsetsForLeaderEpoch current f).errorCode = 0)
    (hepoch : ¬ (leader.offsetsForLeaderEpoch current f).leaderEpoch < 0) :
    ∃ r, leader.log.endOffsetForLeaderEpoch f = some r ∧
      leader.offsetsForLeaderEpoch current f = ⟨0, r.epoch, Int64.ofNat r.endOffset⟩ := by
  have hres := endOffset_of_errorCode hcode
  unfold Partition.offsetsForLeaderEpoch at *
  rw [hres] at hepoch ⊢
  cases hend : leader.log.endOffsetForLeaderEpoch f with
  | none =>
    rw [hend] at hepoch
    exact absurd (by decide : (-1 : Int32) < 0) hepoch
  | some r => exact ⟨r, rfl, rfl⟩

theorem truncationOffset_eq (leaderEnd leo : Nat) (localEnd : Option EpochEndOffset) :
    truncationOffset leaderEnd localEnd leo =
      match localEnd with
      | none => min leaderEnd leo
      | some s => min (min leaderEnd s.endOffset) leo := by
  unfold truncationOffset
  cases localEnd with
  | none =>
    simp only
    split <;> omega
  | some s =>
    simp only
    split <;> split <;> omega

/-- What a round without an error does: it takes the leader's answer and the local
one, and cuts the log at the least of both ends if that is below its own. -/
structure Round (crc : Checksum) (m l : Log) (f : Int32) (next : Option Int32) (l' : Log)
    (r : EpochEndOffset) : Prop where
  answer : m.endOffsetForLeaderEpoch f = some r
  nonneg : 0 ≤ r.epoch
  cut : l' = l ∨ (l'.nextOffset < l.nextOffset ∧ Log.CutAt crc l l' l'.nextOffset ∧
    l'.epochCache = l.epochCache.truncateFromEnd l'.nextOffset)
  localEnd : (l.endOffsetForLeaderEpoch r.epoch = none ∧ next = none ∧
      l'.nextOffset = min r.endOffset l.nextOffset) ∨
    ∃ s, l.endOffsetForLeaderEpoch r.epoch = some s ∧
      next = (if s.epoch = r.epoch then none else some s.epoch) ∧
      l'.nextOffset = min (min r.endOffset s.endOffset) l.nextOffset

theorem found_same {s r : EpochEndOffset}
    (h : none = if s.epoch = r.epoch then none else some s.epoch) : s.epoch = r.epoch := by
  by_contra hne
  rw [if_neg hne] at h
  cases h

theorem truncated_ok {crc : Checksum} {p q : Partition} {io : Faults} {offset : Nat}
    (hok : p.log.Ok crc) (hle : offset ≤ p.leo)
    (h : (if offset < p.leo then p.truncateTo offset io else (.ok (), p)) = (.ok (), q)) :
    q.log.nextOffset = offset ∧ (q.log = p.log ∨ (offset < p.log.nextOffset ∧
      Log.CutAt crc p.log q.log offset ∧
      q.log.epochCache = p.log.epochCache.truncateFromEnd offset)) := by
  split at h
  · rename_i hlt
    cases hl : p.isLeader with
    | true =>
      rw [Partition.truncateTo, if_pos hl] at h
      cases h
    | false =>
      cases ht : p.log.truncateTo offset io with
      | mk r l =>
        obtain ⟨r', notified, hf, hiff, -⟩ := Partition.truncateTo_frame hl ht
        obtain ⟨hr', rfl⟩ := Prod.mk.inj (hf.symm.trans h)
        rw [hiff.mp hr'] at ht
        obtain ⟨hcut, hcache⟩ := hok.truncateTo_ok hlt ht
        exact ⟨hcut.next, .inr ⟨hlt, hcut, hcache⟩⟩
  · rename_i hge
    cases h
    exact ⟨Nat.le_antisymm (Nat.le_of_not_lt hge) hle, .inl rfl⟩

theorem reconcileRound_ok {crc : Checksum} {leader p q : Partition} {current f : Int32}
    {io : Faults} {next : Option Int32} (hok : p.log.Ok crc) (hm : leader.log.Ok crc)
    (hfm : leader.log.Faithful)
    (hlead : ∀ x ∈ leader.log.epochCache, x.startOffset ≤ leader.log.nextOffset)
    (h : reconcileRound leader current f p io = (.ok next, q)) :
    ∃ r, Round crc leader.log p.log f next q.log r := by
  unfold reconcileRound at h
  simp only at h
  split at h
  · cases h
  rename_i hcode
  split at h
  · cases h
  rename_i hsigns
  obtain ⟨r, hr, hresp⟩ := offsetsForLeaderEpoch_ok (not_not.mp hcode)
    fun hneg => hsigns (.inl hneg)
  have hend : (Int64.ofNat r.endOffset).toUInt64.toNat = r.endOffset := by
    have h1 := hfm.answer_le hlead hr
    have h2 := hm.next_lt
    show (BitVec.ofNat 64 r.endOffset).toNat = r.endOffset
    rw [BitVec.toNat_ofNat]
    omega
  rw [hresp] at h hsigns
  simp only [hend, not_or, not_lt] at h hsigns
  split at h
  · cases h
  rename_i q' htr
  have heq := truncationOffset_eq r.endOffset p.leo (p.log.endOffsetForLeaderEpoch r.epoch)
  generalize truncationOffset r.endOffset (p.log.endOffsetForLeaderEpoch r.epoch) p.leo = offset
    at htr heq
  have hle : offset ≤ p.leo := by
    rw [heq]
    split <;> exact Nat.min_le_right _ _
  obtain ⟨hnext, hcut⟩ := truncated_ok hok hle htr
  rw [← hnext] at hcut heq
  have hq : q' = q := by
    split at h <;> exact (Prod.mk.inj h).2
  subst hq
  refine ⟨r, hr, hsigns.1, hcut, ?_⟩
  cases hl : p.log.endOffsetForLeaderEpoch r.epoch with
  | none =>
    rw [hl] at h heq
    exact .inl ⟨rfl, (Except.ok.inj (Prod.mk.inj h).1).symm, heq⟩
  | some s =>
    rw [hl] at h heq
    exact .inr ⟨s, rfl, (Except.ok.inj (Prod.mk.inj h).1).symm, heq⟩

theorem Round.cutOf {crc : Checksum} {m l l' l₂ : Log} {f : Int32} {next : Option Int32}
    {r : EpochEndOffset} (hr : Round crc m l' f next l₂ r) (hcut : Log.CutOf crc l l') :
    Log.CutOf crc l l₂ := by
  rcases hr.cut with heq | ⟨hlt, hc, hcache⟩
  · exact heq ▸ hcut
  · exact hcut.cutAt hlt hc hcache

theorem Round.next_le {crc : Checksum} {m l' l₂ : Log} {f : Int32} {next : Option Int32}
    {r : EpochEndOffset} (hr : Round crc m l' f next l₂ r) : l₂.nextOffset ≤ r.endOffset := by
  rcases hr.localEnd with ⟨-, -, hn⟩ | ⟨s, -, -, hn⟩ <;> omega

/-! ## The loop invariant -/

/-- The follower's log `l`, cut to `l'`, is about to ask the leader with log `m` for
the epoch `f`. The epoch is still cached in what is left, or the leader's answer
for a newer epoch `u` has just cut it away. -/
structure Chasing (crc : Checksum) (l m l' : Log) (f : Int32) : Prop where
  cut : Log.CutOf crc l l'
  follower : ∃ g ∈ l.epochCache, g.epoch = f
  common : ∀ x ∈ m.epochCache, ∀ y ∈ l.epochCache, x.epoch = y.epoch → x.epoch ≤ f
  reached : (∃ y ∈ l'.epochCache, y.epoch = f) ∨
    ∃ a ∈ m.epochCache, ∃ u ∈ l.epochCache, f < a.epoch ∧ a.epoch < u.epoch ∧
      l'.nextOffset < l.nextOffset ∧
      ∃ s, m.endOffsetForLeaderEpoch u.epoch = some s ∧ s.endOffset = l'.nextOffset

section Step

variable {crc : Checksum} {l m l' l₂ : Log} (hl : l.Ok crc) (hmok : m.Ok crc)
  (hstart : l.oldestOffset = m.oldestOffset) (hfl : l.Faithful) (hfm : m.Faithful)
  (hlead : ∀ x ∈ m.epochCache, x.startOffset ≤ m.nextOffset) (hm : l.Matches m)
  {f : Int32} (hc : Chasing crc l m l' f) {r : EpochEndOffset}

include hfl hc in
/-- An epoch found in what is left of the log is that of the request or older. -/
theorem Chasing.mem_of_found {s : EpochEndOffset}
    (hs : l'.endOffsetForLeaderEpoch r.epoch = some s) (hrf : r.epoch = f) : s.epoch = f := by
  obtain ⟨hans, -, z, hz, hle⟩ := answers_of_endOffsetFor hc.cut.increasing hs
  obtain ⟨g, hg, hgf⟩ := hc.follower
  have hg' := hc.cut.mem_of_le hfl.increasing hg hz (by rw [hgf, ← hrf]; exact hle)
  rcases hans.epoch with ⟨y, -, hy, hyr, hmax⟩ | ⟨hy, -⟩
  · have hge := hmax g hg' (by rw [hgf, hrf])
    rw [← hy]
    exact le_antisymm (hrf ▸ hyr) (hgf ▸ hge)
  · rw [hy, hrf]

include hfl hfm hc in
/-- A round that goes on. -/
theorem Chasing.next {f' : Int32} (hr : Round crc m l' f (some f') l₂ r) :
    Chasing crc l m l₂ f' := by
  obtain ⟨hansL, -, -⟩ := hfm.answers hr.answer
  obtain ⟨g, hg, hgf⟩ := hc.follower
  rcases hr.localEnd with ⟨-, hn, -⟩ | ⟨s, hs, hn, hnext⟩
  · cases hn
  split at hn
  · cases hn
  rename_i hne
  cases hn
  obtain ⟨hans, -, z, hz, hzr⟩ := answers_of_endOffsetFor hc.cut.increasing hs
  -- the local answer is a cached epoch, older than the leader's
  obtain ⟨y, hy, hys, hyr, hmax⟩ := hans.epoch.resolve_right fun h => hne h.1
  have hlt : y.epoch < r.epoch := lt_of_le_of_ne hyr (hys ▸ hne)
  have hrf : r.epoch ≠ f := fun hrf => hne (hrf ▸ hc.mem_of_found hfl hs hrf)
  obtain ⟨a, ha, har, haf, hamax⟩ := hansL.epoch.resolve_right fun h => hrf h.1
  refine ⟨hr.cutOf hc.cut, ⟨y, hc.cut.mem hy, hys⟩, fun x hx w hw hxw => ?_, ?_⟩
  · have hxr : x.epoch ≤ r.epoch := har ▸ hamax x hx (hc.common x hx w hw hxw)
    have hw' := hc.cut.mem_of_le hfl.increasing hw hz (hxw ▸ hxr.trans hzr)
    rw [← hys, hxw]
    exact hmax w hw' (hxw ▸ hxr)
  · by_cases hkept : y ∈ l₂.epochCache
    · exact .inl ⟨y, hkept, hys⟩
    · right
      have hgone := (hr.cutOf hc.cut).le_of_not_mem (hc.cut.mem hy) hkept
      rcases hr.cut with heq | ⟨hshort, -, -⟩
      · exact absurd (heq ▸ hy) hkept
      -- the local end lies after the start of the epoch, so the cut is the leader's
      have hbefore : y.startOffset < s.endOffset ∨ s.endOffset = l'.nextOffset := by
        rcases hans.attained with ⟨x, hx, hxr, hxs⟩ | ⟨hxs, -⟩
        · exact .inl (hxs ▸ (hc.cut.increasing.lt_iff hy hx).mp (hlt.trans hxr))
        · exact .inr hxs
      have hle := hc.cut.next_le
      refine ⟨a, ha, g, hg, hys ▸ har ▸ hlt, ?_, by omega, r, hgf ▸ hr.answer, by omega⟩
      rw [hgf, har]
      exact lt_of_le_of_ne (har ▸ haf) hrf

include hmok hstart hfl hfm hlead hm hc in
/-- The leader's epoch is newer than all that is left: the logs interleave. -/
theorem Chasing.stuck (hr : Round crc m l' f none l₂ r)
    (hnone : l'.endOffsetForLeaderEpoch r.epoch = none) {x : EpochEntry} (hx : x ∈ m.epochCache)
    (hxr : x.epoch = r.epoch) :
    (∃ g a u, Log.Interleaving l m x g a u) ∧
      (m.Anchored → ¬ l₂.batches <+: m.batches) := by
  obtain ⟨hansL, -, -⟩ := hfm.answers hr.answer
  obtain ⟨g, hg, rfl⟩ := hc.follower
  have hleft : ∀ z ∈ l'.epochCache, z.epoch < r.epoch := by
    rcases endOffsetFor_cases hc.cut.increasing r.epoch l'.nextOffset with
      ⟨-, hneg | hall⟩ | ⟨s, hs, -⟩
    · exact absurd hr.nonneg (not_le.mpr hneg)
    · exact hall
    · exact absurd (hs.symm.trans hnone) (by simp)
  have hxg : x.epoch ≤ g.epoch := by
    rcases hansL.epoch with ⟨e, -, he, hle, -⟩ | ⟨he, -⟩
    · exact hxr.trans he.symm ▸ hle
    · exact (hxr.trans he).le
  rcases hc.reached with ⟨y, hy, hyf⟩ | ⟨a, ha, u, hu, hga, hau, hshort, s, hs, hend⟩
  · have := hleft y hy
    rw [hyf, ← hxr] at this
    exact absurd hxg (not_le.mpr this)
  · refine ⟨⟨g, a, u, hc.cut.interleaving hm hfl hfm hlead hg ha hu hga hau hs hend hshort
      hc.common hr.answer hx hxr hr.nonneg hleft⟩, fun hanch => ?_⟩
    have h1 := hansL.upper a ha hga
    have h2 := hfm.start_le_answer hlead hs ha hau.le
    have hnext : l₂.nextOffset = r.endOffset := by
      rcases hr.localEnd with ⟨-, -, hn⟩ | ⟨s', hs', -⟩
      · omega
      · exact absurd (hs'.symm.trans hnone) (by simp)
    refine (hr.cutOf hc.cut).not_firstPart hfl hfm hmok hanch hr.answer hx hxr hxg ha hga
      (hfm.answer_le hlead hr.answer) hstart hnext fun z hz hlt => ?_
    exact hleft z (hc.cut.mem_of_lt hz (by omega))

include hl hmok hstart hfl hfm hlead hm hc in
/-- A round that ends the loop. -/
theorem Chasing.stop (hr : Round crc m l' f none l₂ r) : l₂.batches <+: m.batches ∨
    (Log.Interleaved l m ∧ (m.Anchored → ¬ l₂.batches <+: m.batches)) := by
  obtain ⟨hansL, -, w, hw, -⟩ := hfm.answers hr.answer
  have hcut := hr.cutOf hc.cut
  have hnext := hr.next_le
  rcases hansL.epoch with ⟨x, hx, hxr, hxf, hxmax⟩ | ⟨-, hall⟩
  · rcases hr.localEnd with ⟨hnone, -, -⟩ | ⟨s, hs, hn, hsn⟩
    · obtain ⟨hi, hnot⟩ := hc.stuck hmok hstart hfl hfm hlead hm hr hnone hx hxr
      exact .inr ⟨⟨x, hi⟩, hnot⟩
    left
    have hsr := found_same hn
    obtain ⟨hans, -, z, hz, hzr⟩ := answers_of_endOffsetFor hc.cut.increasing hs
    rcases hans.epoch with ⟨y, hy, hys, -, -⟩ | ⟨-, hnew⟩
    · -- both sides name the same epoch
      refine hm.firstPart hl hmok hstart hfl hfm (hc.cut.mem hy) hx
        (hys.trans (hsr.trans hxr.symm)) hcut.batches (hcut.oldest ▸ hcut.ok.tiles)
        (fun z hz hlt => ?_) (fun z hz hlt => ?_) (hnext.trans (hfm.answer_le hlead hr.answer))
      · by_cases hz' : z ∈ l'.epochCache
        · have := hans.upper z hz' (by rw [← hsr, ← hys]; exact hlt)
          omega
        · have := hc.cut.le_of_not_mem hz hz'
          omega
      · have := hansL.upper z hz (not_le.mp fun hle => not_lt.mpr (hxmax z hz hle) hlt)
        omega
    · -- every epoch of the follower is newer than the leader's
      obtain ⟨y, hy, hyo⟩ := hfl.exists_first (hc.cut.mem hz)
      have hyz : y.epoch ≤ z.epoch := by
        rw [hfl.increasing.le_iff hy (hc.cut.mem hz), hyo]
        exact hfl.oldest_le (hc.cut.mem hz)
      have hy' := hc.cut.mem_of_le hfl.increasing hy hz hyz
      have := hans.upper y hy' (hnew y hy')
      rw [hcut.batches_nil (by omega)]
      exact List.nil_prefix
  · -- every epoch of the leader is newer than the follower's
    left
    obtain ⟨y, hy, hyo⟩ := hfm.exists_first hw
    have := hansL.upper y hy (hall y hy)
    rw [hcut.batches_nil (by omega)]
    exact List.nil_prefix

/-- In an interleaving the loop never asks for an epoch older than `g`. Either it
has not passed the leader's epoch `a` yet, or all epochs left are older than `e`. -/
structure Tracking (m l' : Log) (e g a : EpochEntry) (f : Int32) : Prop where
  bound : g.epoch ≤ f
  nonempty : m.oldestOffset < l'.nextOffset
  phase : a.epoch ≤ f ∨ ∀ y ∈ l'.epochCache, y.epoch < e.epoch

variable {e g a u : EpochEntry} (hi : Log.Interleaving l m e g a u) (ht : Tracking m l' e g a f)

include hfm hi ht in
/-- The leader answers with an epoch of its own, not older than `e`. -/
theorem Tracking.answer (hr : m.endOffsetForLeaderEpoch f = some r) :
    ∃ x ∈ m.epochCache, x.epoch = r.epoch ∧ e.epoch ≤ x.epoch ∧
      (a.epoch ≤ f → a.epoch ≤ x.epoch) ∧ x.epoch ≤ f ∧
      ∀ z ∈ m.epochCache, x.epoch < z.epoch → f < z.epoch := by
  obtain ⟨hans, -, -⟩ := hfm.answers hr
  have hef : e.epoch < f := hi.order.1.trans_le ht.bound
  rcases hans.epoch with ⟨x, hx, hxr, hxf, hmax⟩ | ⟨-, hall⟩
  · exact ⟨x, hx, hxr, hmax e hi.older hef.le, hmax a hi.newer, hxf, fun z hz hlt =>
      not_le.mp fun hle => not_lt.mpr (hmax z hz hle) hlt⟩
  · exact absurd (hall e hi.older) (not_lt.mpr hef.le)

include hfl hfm hlead hc hi ht in
theorem Tracking.next {f' : Int32} (hr : Round crc m l' f (some f') l₂ r) :
    Tracking m l₂ e g a f' := by
  obtain ⟨ru, hru, hrul, hruo, habove⟩ := hi.answer hfl hfm hlead
  obtain ⟨hansL, -, -⟩ := hfm.answers hr.answer
  obtain ⟨hansU, -, -⟩ := hfm.answers hru
  obtain ⟨x, hx, hxr, hex, hax, hxf, hxnext⟩ := ht.answer hfm hi hr.answer
  rcases hr.localEnd with ⟨-, hn, -⟩ | ⟨s, hs, hn, hnext⟩
  · cases hn
  split at hn
  · cases hn
  rename_i hne
  cases hn
  obtain ⟨hans, -, z, hz, hzr⟩ := answers_of_endOffsetFor hc.cut.increasing hs
  have haf : a.epoch ≤ f := by
    rcases ht.phase with haf | hold
    · exact haf
    · exact absurd (hold z hz) (not_lt.mpr (hex.trans (hxr ▸ hzr)))
  have har : a.epoch ≤ r.epoch := hxr ▸ hax haf
  obtain ⟨y, hy, hys, hyr, hmax⟩ := hans.epoch.resolve_right fun h => hne h.1
  -- epochs of the follower up to the leader's are still there
  have hstill : ∀ w ∈ l.epochCache, w.epoch ≤ r.epoch → w.epoch ≤ s.epoch := fun w hw hwr =>
    hys ▸ hmax w (hc.cut.mem_of_le hfl.increasing hw hz (hwr.trans hzr)) hwr
  refine ⟨hstill g hi.between (hi.order.2.1.le.trans har), ?_, ?_⟩
  · have h1 : m.oldestOffset < r.endOffset := by
      have h2 := (hfm.increasing.lt_iff hi.older hi.newer).mp (hi.order.1.trans hi.order.2.1)
      have h3 := hfm.start_le_answer hlead hr.answer hi.newer haf
      have h4 := hfm.oldest_le hi.older
      omega
    have h2 : m.oldestOffset < s.endOffset := by
      rcases hans.attained with ⟨w, hw, hwr, hws⟩ | ⟨hws, -⟩
      · have hew := habove w (hc.cut.mem hw) ((hi.order.1.trans hi.order.2.1).le.trans
          (har.trans hwr.le))
        omega
      · have := ht.nonempty
        omega
    have := ht.nonempty
    omega
  · by_cases haf' : a.epoch ≤ s.epoch
    · exact .inl haf'
    right
    -- the request passed `a`, so the leader's answer was the one for `u`
    have hcutoff : r.endOffset ≤ ru.endOffset := by
      have hxu : x.epoch < u.epoch := by
        by_contra hge
        have := hstill u hi.latest (hxr ▸ not_lt.mp hge)
        exact haf' (hi.order.2.2.le.trans this)
      rcases hansU.attained with ⟨w, hw, huw, hwe⟩ | ⟨hwe, -⟩
      · exact hwe ▸ hansL.upper w hw (hxnext w hw (hxu.trans huw))
      · exact hwe ▸ hfm.answer_le hlead hr.answer
    have hcut := hr.cutOf hc.cut
    have hle := hr.next_le
    intro w hw
    by_contra hge
    have h1 := habove w (hcut.mem hw) (not_lt.mp hge)
    rcases hcut.kept with ⟨-, hn⟩ | ⟨-, hmem⟩
    · omega
    · have := ((hmem w).mp hw).2
      omega

include hmok hstart hfl hfm hlead hm hc hi ht in
theorem Tracking.stop (hanch : m.Anchored) (hr : Round crc m l' f none l₂ r) :
    ¬ l₂.batches <+: m.batches := by
  obtain ⟨x, hx, hxr, hex, -, -, -⟩ := ht.answer hfm hi hr.answer
  rcases hr.localEnd with ⟨hnone, -, -⟩ | ⟨s, hs, hn, -⟩
  · exact (hc.stuck hmok hstart hfl hfm hlead hm hr hnone hx hxr).2 hanch
  · exfalso
    have hsr := found_same hn
    obtain ⟨hans, -, z, hz, hzr⟩ := answers_of_endOffsetFor hc.cut.increasing hs
    rcases hans.epoch with ⟨y, hy, hys, -, -⟩ | ⟨-, hnew⟩
    · -- an epoch of both logs would be older than `e`
      have := hi.common x hx y (hc.cut.mem hy) (hxr.trans (hsr.symm.trans hys.symm))
      exact absurd hex (not_le.mpr this)
    · -- the first epoch of the follower is older than `e`
      obtain ⟨ru, -, -, hruo, habove⟩ := hi.answer hfl hfm hlead
      obtain ⟨y, hy, hyo⟩ := hfl.exists_first hi.between
      have hy' := hc.cut.mem_of_lt hy (by have := ht.nonempty; omega)
      have := habove y hy (hex.trans (hxr ▸ (hnew y hy').le))
      omega

end Step

/-! ## The whole loop -/

section Loop

variable {crc : Checksum} {l : Log} {leader : Partition} (hl : l.Ok crc)
  (hmok : leader.log.Ok crc) (hstart : l.oldestOffset = leader.log.oldestOffset)
  (hfl : l.Faithful) (hfm : leader.log.Faithful)
  (hlead : ∀ x ∈ leader.log.epochCache, x.startOffset ≤ leader.log.nextOffset)
  (hm : l.Matches leader.log) {current : Int32} {io : Nat → Faults}

include hl hmok hstart hfl hfm hlead hm

/-- A loop that ends without an error has met a common epoch, or the logs
interleave. -/
theorem reconcileLoop_cases : ∀ (attempts : Nat) {f : Int32} {p q : Partition},
    Chasing crc l leader.log p.log f →
    reconcileLoop leader current io attempts f p = (.ok (), q) →
      q.log.batches <+: leader.log.batches ∨ (Log.Interleaved l leader.log ∧
        (leader.log.Anchored → ¬ q.log.batches <+: leader.log.batches))
  | 0, _, _, _, _, h => by cases h
  | attempts + 1, f, p, q, hc, h => by
      unfold reconcileLoop at h
      split at h
      · cases h
      · rename_i p' hround
        obtain ⟨r, hr⟩ := reconcileRound_ok hc.cut.ok hmok hfm hlead hround
        obtain ⟨-, rfl⟩ := Prod.mk.inj h
        exact hc.stop hl hmok hstart hfl hfm hlead hm hr
      · rename_i f' p' hround
        obtain ⟨r, hr⟩ := reconcileRound_ok hc.cut.ok hmok hfm hlead hround
        exact reconcileLoop_cases attempts (hc.next hfl hfm hr) h

omit hl in
theorem reconcileLoop_interleaving {e g a u : EpochEntry}
    (hi : Log.Interleaving l leader.log e g a u) (hanch : leader.log.Anchored) :
    ∀ (attempts : Nat) {f : Int32} {p q : Partition}, Chasing crc l leader.log p.log f →
    Tracking leader.log p.log e g a f →
    reconcileLoop leader current io attempts f p = (.ok (), q) →
      ¬ q.log.batches <+: leader.log.batches
  | 0, _, _, _, _, _, h => by cases h
  | attempts + 1, f, p, q, hc, ht, h => by
      unfold reconcileLoop at h
      split at h
      · cases h
      · rename_i p' hround
        obtain ⟨r, hr⟩ := reconcileRound_ok hc.cut.ok hmok hfm hlead hround
        obtain ⟨-, rfl⟩ := Prod.mk.inj h
        exact ht.stop hmok hstart hfl hfm hlead hm hc hi hanch hr
      · rename_i f' p' hround
        obtain ⟨r, hr⟩ := reconcileRound_ok hc.cut.ok hmok hfm hlead hround
        exact reconcileLoop_interleaving hi hanch attempts (hc.next hfl hfm hr)
          (ht.next hfl hfm hlead hc hi hr) h

end Loop

/-- A reconciliation that returns without an error leaves a first part of the
leader's log if the epochs do not interleave, and, as the leader's epochs start
with batches, only then. -/
theorem reconciled_iff {crc : Checksum} {leader p q : Partition} {current : Int32}
    {io : Nat → Faults} (hl : p.log.Ok crc) (hmok : leader.log.Ok crc)
    (hstart : p.log.oldestOffset = leader.log.oldestOffset) (hfl : p.log.Faithful)
    (hfm : leader.log.Faithful)
    (hlead : ∀ x ∈ leader.log.epochCache, x.startOffset ≤ leader.log.nextOffset)
    (hm : p.log.Matches leader.log)
    (h : reconcilePartition leader p current io = (.ok (), q)) :
    (leader.log.Anchored →
      (q.log.batches <+: leader.log.batches ↔ ¬ p.log.Interleaved leader.log)) ∧
    (¬ p.log.Interleaved leader.log → q.log.batches <+: leader.log.batches) := by
  unfold reconcilePartition at h
  cases hlatest : p.log.latestLeaderEpoch with
  | none =>
    rw [hlatest] at h
    obtain ⟨-, rfl⟩ := Prod.mk.inj h
    have hnil : p.log.epochCache = [] :=
      List.getLast?_eq_none_iff.mp (Option.map_eq_none_iff.mp hlatest)
    have hfirst : p.log.batches <+: leader.log.batches := by
      rw [hfl.batches_nil hnil]
      exact List.nil_prefix
    refine ⟨fun _ => ⟨fun _ hi => ?_, fun _ => hfirst⟩, fun _ => hfirst⟩
    obtain ⟨e, g, a, u, hi⟩ := hi
    have := hi.between
    rw [hnil] at this
    exact absurd this List.not_mem_nil
  | some f =>
    rw [hlatest] at h
    obtain ⟨last, hlast, rfl⟩ := Option.map_eq_some_iff.mp hlatest
    have hmem := List.mem_of_getLast? hlast
    have hc : Chasing crc p.log leader.log p.log last.epoch :=
      ⟨.refl hl hfl.increasing, ⟨last, hmem, rfl⟩,
        fun x _ y hy hxy => hxy ▸ hfl.increasing.le_last hlast hy, .inl ⟨last, hmem, rfl⟩⟩
    have hcases := reconcileLoop_cases hl hmok hstart hfl hfm hlead hm 32 hc h
    refine ⟨fun hanch => ⟨fun hfirst hi => ?_, fun hnot => ?_⟩, fun hnot => ?_⟩
    · obtain ⟨e, g, a, u, hi⟩ := hi
      obtain ⟨r, hru, hrl, hro, -⟩ := hi.answer hfl hfm hlead
      have hu := hfl.increasing.le_last hlast hi.latest
      refine reconcileLoop_interleaving hmok hstart hfl hfm hlead hm hi hanch 32 hc
        ⟨?_, by omega, .inl (hi.order.2.2.le.trans hu)⟩ h hfirst
      exact (hi.order.2.1.trans hi.order.2.2).le.trans hu
    · exact hcases.resolve_right fun hi => hnot hi.1
    · exact hcases.resolve_right fun hi => hnot hi.1

/-! ## Samples -/

def sampleReplica (id : Int32) (calls : List PartitionCall) : Partition :=
  Runs.final (Partition.exec crc32c) (newPartition id (Log.fresh Log.roomyConfig))
    (calls.map fun c => (c, .none))

/-- A leadership in each of the epochs, with one record each. -/
def leaderships (epochs : List Int32) : List PartitionCall :=
  epochs.flatMap fun e => [.makeLeader e [1] 0, .appendRaw (Log.sampleRequest 1) .leader]

/-- Records of the epochs, replicated in one response. -/
def replicated (fetchEpoch : Int32) (records : ByteString) : List PartitionCall :=
  [.makeFollower fetchEpoch 1, .appendFromLeader records fetchEpoch 0, .makeFollower 6 1]

theorem leaderships_traced (epochs : List Int32) :
    (sampleReplica 1 (leaderships epochs)).Traced crc32c := by
  refine Partition.run_traced (Log.newLog_nil crc32c Log.roomyConfig .none) 1 _ ?_
  generalize newPartition 1 (Log.fresh Log.roomyConfig) = p
  induction epochs generalizing p with
  | nil => trivial
  | cons e es ih =>
    exact ⟨⟨trivial, Faults.none_harmless, trivial⟩, ⟨trivial, Faults.none_harmless, trivial⟩,
      ih _⟩

theorem replicated_traced (fetchEpoch : Int32) (records : ByteString) :
    (sampleReplica 2 (replicated fetchEpoch records)).Traced crc32c := by
  refine Partition.run_traced (Log.newLog_nil crc32c Log.roomyConfig .none) 2 _
    ⟨⟨trivial, Faults.none_harmless, trivial⟩, ⟨fun e _ c hc => ?_, Faults.none_harmless,
      fun e _ hsup => ?_⟩, ⟨trivial, Faults.none_harmless, trivial⟩, trivial⟩
  · have hnil : (Log.fresh Log.roomyConfig).batches = [] := by decide +kernel
    exact absurd (hnil ▸ hc) List.not_mem_nil
  · obtain ⟨x, hx, -⟩ := hsup
    exact absurd hx List.not_mem_nil

theorem Partition.Traced.faithful {crc : Checksum} {p : Partition} (h : p.Traced crc)
    (hfirst : ∀ e, p.log.epochCache.head? = some e → e.startOffset = p.log.oldestOffset) :
    p.log.Faithful :=
  ⟨h.history.increasing, hfirst, h.history.stamped⟩

theorem first_of_head? {l : Log} {x : EpochEntry} (hx : l.epochCache.head? = some x)
    (hs : x.startOffset = l.oldestOffset) (e : EpochEntry) (he : l.epochCache.head? = some e) :
    e.startOffset = l.oldestOffset := by
  rw [hx] at he
  cases he
  exact hs

/-- The follower has a record more than the leader in their common epoch. -/
def behindLeader : Partition := sampleReplica 1 (leaderships [1, 2])
def aheadFollower : Partition :=
  sampleReplica 2 (replicated 1 (Partition.sampleRecord 1 0 ++ Partition.sampleRecord 1 1))

theorem behindLeader_traced : behindLeader.Traced crc32c := leaderships_traced [1, 2]
theorem aheadFollower_traced : aheadFollower.Traced crc32c := replicated_traced 1 _

theorem behindLeader_faithful : behindLeader.log.Faithful :=
  behindLeader_traced.faithful
    (first_of_head? (x := ⟨1, 0⟩) (by decide +kernel) (by decide +kernel))

theorem aheadFollower_faithful : aheadFollower.log.Faithful :=
  aheadFollower_traced.faithful
    (first_of_head? (x := ⟨1, 0⟩) (by decide +kernel) (by decide +kernel))

theorem returned_ok {α : Type} {x : Except ReconcileError Unit × α} (h : x.1 = .ok ()) :
    x = (.ok (), x.2) := by
  rw [← h]

theorem reconciled_iff_ahead :
    (reconcilePartition behindLeader aheadFollower 2 fun _ => .none).1 = .ok () ∧
      (reconcilePartition behindLeader aheadFollower 2 fun _ => .none).2.log.nextOffset = 1 ∧
      (reconcilePartition behindLeader aheadFollower 2 fun _ => .none).2.log.batches <+:
        behindLeader.log.batches := by
  have hok : (reconcilePartition behindLeader aheadFollower 2 fun _ => .none).1 = .ok () := by
    decide +kernel
  refine ⟨hok, by decide +kernel, ?_⟩
  have hm : aheadFollower.log.Matches behindLeader.log := by decide +kernel
  refine (reconciled_iff aheadFollower_traced.ok behindLeader_traced.ok
    (by decide +kernel) aheadFollower_faithful behindLeader_faithful (by decide +kernel) hm
    (returned_ok hok)).2 ?_
  rintro ⟨e, g, a, u, hi⟩
  -- the follower has one epoch only
  have hone : ∀ x ∈ aheadFollower.log.epochCache, x.epoch = 1 := by decide +kernel
  have hgu := hi.order.2.1.trans hi.order.2.2
  rw [hone g hi.between, hone u hi.latest] at hgu
  exact absurd hgu (lt_irrefl _)

/-- Leader and follower without a common epoch: the leader's are 2, 4 and 6, the
follower's 1 (two records), 3 and 5. -/
def evenLeader : Partition := sampleReplica 1 (leaderships [2, 4, 6])
def oddFollower : Partition :=
  sampleReplica 2 (replicated 5 (Partition.sampleRecord 1 0 ++ Partition.sampleRecord 1 1 ++
    Partition.sampleRecord 3 2 ++ Partition.sampleRecord 5 3))

/-- The reconciliation ends without an error, and the record left at offset 0 is
of epoch 1, where the leader has one of epoch 2. -/
theorem reconciled_but_diverged :
    evenLeader.log.Faithful ∧ oddFollower.log.Faithful ∧
      oddFollower.log.Matches evenLeader.log ∧
      oddFollower.log.latestLeaderEpoch = some 5 ∧ evenLeader.log.latestLeaderEpoch = some 6 ∧
      (reconcilePartition evenLeader oddFollower 6 fun _ => .none).1 = .ok () ∧
      ((reconcilePartition evenLeader oddFollower 6 fun _ => .none).2.log.batches.map
        fun c => (baseOffset c, partitionLeaderEpoch c)) = [(0, 1)] ∧
      (evenLeader.log.batches.map fun c => (baseOffset c, partitionLeaderEpoch c)) =
        [(0, 2), (1, 4), (2, 6)] ∧
      ¬ (reconcilePartition evenLeader oddFollower 6 fun _ => .none).2.log.batches <+:
        evenLeader.log.batches := by
  refine ⟨(leaderships_traced [2, 4, 6]).faithful
      (first_of_head? (x := ⟨2, 0⟩) (by decide +kernel) (by decide +kernel)),
    (replicated_traced 5 _).faithful
      (first_of_head? (x := ⟨1, 0⟩) (by decide +kernel) (by decide +kernel)),
    by decide +kernel, by decide +kernel, by decide +kernel, by decide +kernel,
    by decide +kernel, by decide +kernel, by decide +kernel⟩

end MessageBroker.Broker
