import MessageBroker.Broker.Reconcile
import MessageBroker.Storage.Boundaries

/-!
# When a reconciliation cannot truncate

Each round of `reconcilePartition` cuts the follower's log at the lower of two
ends: the leader's for the epoch asked for and the follower's own for the
leader's epoch. Both are known before the first round, because truncations only
remove what lies above. The reconciliation fails at a truncation exactly if it
gets to an epoch for which the lower end is no place to cut the log.
-/
namespace MessageBroker.Broker

open Lib.Bytes Lib.Tiling Lib Storage Storage.EpochCache

/-- The offset that a round passes to `TruncateTo`. -/
def roundTruncation (leader : Partition) (currentLeaderEpoch followerEpoch : Int32)
    (p : Partition) : List Nat :=
  let rp := leader.offsetsForLeaderEpoch currentLeaderEpoch followerEpoch
  if rp.errorCode ≠ 0 ∨ rp.leaderEpoch < 0 ∨ rp.endOffset < 0 then []
  else
    let offset := truncationOffset rp.endOffset.toUInt64.toNat
      (p.log.endOffsetForLeaderEpoch rp.leaderEpoch) p.leo
    if offset < p.leo then [offset] else []

/-- The offsets that the loop passes to `TruncateTo`. -/
def loopTruncations (leader : Partition) (currentLeaderEpoch : Int32) (io : Nat → Faults) :
    Nat → Int32 → Partition → List Nat
  | 0, _, _ => []
  | attempts + 1, followerEpoch, p =>
      roundTruncation leader currentLeaderEpoch followerEpoch p ++
        match reconcileRound leader currentLeaderEpoch followerEpoch p (io attempts) with
        | (.ok (some epoch), p) => loopTruncations leader currentLeaderEpoch io attempts epoch p
        | _ => []

def truncations (leader p : Partition) (currentLeaderEpoch : Int32) (io : Nat → Faults) :
    List Nat :=
  match p.log.latestLeaderEpoch with
  | none => []
  | some followerEpoch => loopTruncations leader currentLeaderEpoch io 32 followerEpoch p

/-! ## Ends before and after truncations -/

theorem truncationOffset_cut {crc : Checksum} {l l' : Log} (hcut : Log.CutOf crc l l')
    (hinc : l.epochCache.Increasing) {epoch : Int32} {s : EpochEndOffset}
    (hs : l.endOffsetForLeaderEpoch epoch = some s) (leaderEnd : Nat) :
    truncationOffset leaderEnd (l'.endOffsetForLeaderEpoch epoch) l'.nextOffset =
      min (min leaderEnd s.endOffset) l'.nextOffset := by
  rw [truncationOffset_eq]
  cases hs' : l'.endOffsetForLeaderEpoch epoch with
  | none =>
    have := hcut.end_of_none hinc hs hs'
    simp only
    omega
  | some s' =>
    have := hcut.end_eq hinc hs hs'
    simp only
    omega

/-! ## One round -/

theorem offsetsForLeaderEpoch_some {leader : Partition} {current f : Int32} {r : EpochEndOffset}
    (hcode : (leader.offsetsForLeaderEpoch current f).errorCode = 0)
    (hr : leader.log.endOffsetForLeaderEpoch f = some r) :
    leader.offsetsForLeaderEpoch current f = ⟨0, r.epoch, Int64.ofNat r.endOffset⟩ := by
  rw [Partition.offsetsForLeaderEpoch, endOffset_of_errorCode hcode, hr]

theorem ofNat_wire {n : Nat} (h : n < 2 ^ 63) :
    (Int64.ofNat n).toUInt64.toNat = n ∧ ¬ Int64.ofNat n < 0 := by
  have h1 : (Int64.ofNat n).toUInt64.toNat = n := by
    show (BitVec.ofNat 64 n).toNat = n
    rw [BitVec.toNat_ofNat]
    omega
  refine ⟨h1, fun hneg => ?_⟩
  have h2 : (Int64.ofNat n).toInt < (0 : Int64).toInt := Int64.lt_iff_toInt_lt.mp hneg
  rw [Int64.toInt_ofNat_of_lt h] at h2
  have h3 : (0 : Int64).toInt = 0 := rfl
  omega

/-- What a log needs for its truncations to depend on boundaries and room only. -/
structure Trimmable (crc : Checksum) (p : Partition) : Prop where
  follower : p.isLeader = false
  ok : p.log.Ok crc
  writable : p.log.epochCache.Writable
  limits : ∀ q ∈ p.log.pairs, 0 ≤ q.index.maxBytes.toInt

/-- The truncation of a round. -/
theorem Trimmable.truncate {crc : Checksum} {p : Partition} (h : Trimmable crc p) {offset : Nat}
    (hlt : offset < p.leo) :
    (¬ (p.log.Boundary offset ∧ p.log.RoomAt offset) ∧
      ∃ e q, p.truncateTo offset .none = (.error e, q)) ∨
    ((p.log.Boundary offset ∧ p.log.RoomAt offset) ∧
      ∃ q, p.truncateTo offset .none = (.ok (), q) ∧ Trimmable crc q ∧
        q.log.nextOffset = offset ∧ ∀ t < offset, q.log.RoomAt t ↔ p.log.RoomAt t) := by
  have hiff := h.ok.truncateTo_iff h.writable h.limits hlt
  cases ht : p.log.truncateTo offset .none with
  | mk r l =>
    obtain ⟨r', notified, hf, hr, -⟩ := Partition.truncateTo_frame h.follower ht
    rw [ht] at hiff
    by_cases hok : r = .ok ()
    · right
      subst hok
      obtain ⟨hcut, hcache⟩ := h.ok.truncateTo_ok hlt ht
      obtain ⟨hroom, hlimits⟩ := h.ok.truncateTo_room h.writable.increasing hlt ht
      rw [hr.mpr rfl] at hf
      exact ⟨hiff.mp rfl, _, hf, ⟨h.follower, hcut.ok, hcache ▸ h.writable.takeWhile _,
        hlimits h.limits⟩, hcut.next, hroom⟩
    · left
      refine ⟨fun hb => hok (hiff.mpr hb), ?_⟩
      cases r' with
      | error e => exact ⟨e, _, hf⟩
      | ok _ => exact absurd (hr.mp rfl) hok

section Round

variable {crc : Checksum} {leader p : Partition} {current f : Int32} {r : EpochEndOffset}
  (hanswer : (leader.offsetsForLeaderEpoch current f).errorCode = 0)
  (hr : leader.log.endOffsetForLeaderEpoch f = some r) (hepoch : 0 ≤ r.epoch)
  (hend : r.endOffset < 2 ^ 63) (hp : Trimmable crc p)

include hanswer hr hepoch hend

theorem roundTruncation_eq :
    roundTruncation leader current f p =
      if truncationOffset r.endOffset (p.log.endOffsetForLeaderEpoch r.epoch) p.leo < p.leo then
        [truncationOffset r.endOffset (p.log.endOffsetForLeaderEpoch r.epoch) p.leo] else [] := by
  obtain ⟨h1, h2⟩ := ofNat_wire hend
  unfold roundTruncation
  simp only [offsetsForLeaderEpoch_some hanswer hr, h1, h2, not_lt.mpr hepoch, or_self,
    ne_eq, not_true_eq_false, if_false]

include hp

/-- With an answer from the leader, a round fails at its truncation or goes through. -/
theorem reconcileRound_answered {offset : Nat}
    (ho : truncationOffset r.endOffset (p.log.endOffsetForLeaderEpoch r.epoch) p.leo = offset) :
    (offset < p.leo ∧ ¬ (p.log.Boundary offset ∧ p.log.RoomAt offset) ∧
      ∃ e q, reconcileRound leader current f p .none = (.error (.truncate offset e), q)) ∨
    ((offset < p.leo → p.log.Boundary offset ∧ p.log.RoomAt offset) ∧
      ∃ next q, reconcileRound leader current f p .none = (.ok next, q) ∧ Trimmable crc q ∧
        (q = p ∧ ¬ offset < p.leo ∨ q.log.nextOffset = offset) ∧
        ∀ t < q.log.nextOffset, q.log.RoomAt t ↔ p.log.RoomAt t) := by
  obtain ⟨h1, h2⟩ := ofNat_wire hend
  unfold reconcileRound
  simp only [offsetsForLeaderEpoch_some hanswer hr, h1, h2, not_lt.mpr hepoch, or_self,
    ne_eq, not_true_eq_false, if_false, ho]
  by_cases hlt : offset < p.leo
  · rw [if_pos hlt]
    rcases hp.truncate hlt with ⟨hno, e, q, ht⟩ | ⟨hyes, q, ht, hq, hnext, hroom⟩
    · rw [ht]
      exact .inl ⟨hlt, hno, e, q, rfl⟩
    · rw [ht]
      right
      refine ⟨fun _ => hyes, ?_⟩
      cases p.log.endOffsetForLeaderEpoch r.epoch with
      | none => exact ⟨_, q, rfl, hq, .inr hnext, hnext ▸ hroom⟩
      | some s => exact ⟨_, q, rfl, hq, .inr hnext, hnext ▸ hroom⟩
  · rw [if_neg hlt]
    right
    refine ⟨fun h => absurd h hlt, ?_⟩
    cases p.log.endOffsetForLeaderEpoch r.epoch with
    | none => exact ⟨_, p, rfl, hp, .inl ⟨rfl, hlt⟩, fun _ _ => Iff.rfl⟩
    | some s => exact ⟨_, p, rfl, hp, .inl ⟨rfl, hlt⟩, fun _ _ => Iff.rfl⟩

end Round

/-! ## The loop -/

/-- The follower's log `l`, cut to that of `p`, before one of the attempts left: all
offsets below its end can be cut as before, and the lower end for the epoch asked
for is not above its end. -/
structure Descending (crc : Checksum) (l m : Log) (p : Partition) (f : Int32) (attempts : Nat) :
    Prop where
  chasing : Chasing crc l m p.log f
  tracking : ∀ e g a u, Log.Interleaving l m e g a u → Tracking m p.log e g a f
  trimmable : Trimmable crc p
  room : ∀ t < p.log.nextOffset, p.log.RoomAt t ↔ l.RoomAt t
  cut : p.log.nextOffset = l.nextOffset ∨ l.RoomAt p.log.nextOffset
  ahead : ∀ r s, m.endOffsetForLeaderEpoch f = some r → l.endOffsetForLeaderEpoch r.epoch = some s →
    min (min r.endOffset s.endOffset) l.nextOffset ≤ p.log.nextOffset
  count : l.turns m f + attempts = 32

section Loop

variable {crc : Checksum} {l : Log} {leader : Partition} {current : Int32} (hl : l.Ok crc)
  (hmok : leader.log.Ok crc) (hstart : l.oldestOffset = leader.log.oldestOffset)
  (hfl : l.Faithful) (hfm : leader.log.Faithful)
  (hlead : ∀ x ∈ leader.log.epochCache, x.startOffset ≤ leader.log.nextOffset)
  (hm : l.Matches leader.log) (hwl : l.epochCache.Writable)
  (hwm : leader.log.epochCache.Writable) (hsmall : leader.log.nextOffset < 2 ^ 63)
  (hlast : ∀ y ∈ l.epochCache, ∃ x ∈ leader.log.epochCache, y.epoch ≤ x.epoch)
  (hanswer : ∀ f, (leader.offsetsForLeaderEpoch current f).errorCode = 0)

include hfm hwl hlast in
/-- The leader has an answer for each of the follower's epochs. -/
theorem answered {y : EpochEntry} (hy : y ∈ l.epochCache) :
    ∃ r, leader.log.endOffsetForLeaderEpoch y.epoch = some r := by
  rcases endOffsetFor_cases hfm.increasing y.epoch leader.log.nextOffset with
    ⟨-, hneg | hall⟩ | ⟨r, hr, -⟩
  · exact absurd (hwl.nonneg y hy) (not_le.mpr hneg)
  · obtain ⟨x, hx, hle⟩ := hlast y hy
    exact absurd (hall x hx) (not_lt.mpr hle)
  · exact ⟨r, hr⟩

include hfm hwm in
theorem answer_nonneg {f : Int32} {r : EpochEndOffset}
    (hr : leader.log.endOffsetForLeaderEpoch f = some r) : 0 ≤ r.epoch := by
  obtain ⟨hans, h0, -⟩ := hfm.answers hr
  rcases hans.epoch with ⟨e, he, her, -, -⟩ | ⟨her, -⟩
  · exact her ▸ hwm.nonneg e he
  · exact her ▸ h0

include hfl in
/-- The follower has an end for every epoch up to one of its own. -/
theorem localEnd_some {epoch : Int32} (h0 : 0 ≤ epoch) {y : EpochEntry} (hy : y ∈ l.epochCache)
    (hle : epoch ≤ y.epoch) : ∃ s, l.endOffsetForLeaderEpoch epoch = some s := by
  rcases endOffsetFor_cases hfl.increasing epoch l.nextOffset with ⟨-, hneg | hall⟩ | ⟨s, hs, -⟩
  · exact absurd h0 (not_le.mpr hneg)
  · exact absurd (hall y hy) (not_lt.mpr hle)
  · exact ⟨s, hs⟩

variable {p : Partition} {f : Int32} {attempts : Nat}
  (hd : Descending crc l leader.log p f attempts) {r s : EpochEndOffset}
  (hr : leader.log.endOffsetForLeaderEpoch f = some r)
  (hs : l.endOffsetForLeaderEpoch r.epoch = some s)

include hfl hd hr hs in
/-- The offset of a round is the lower end, as it was before the first round. -/
theorem Descending.offset_eq :
    truncationOffset r.endOffset (p.log.endOffsetForLeaderEpoch r.epoch) p.leo =
      min (min r.endOffset s.endOffset) l.nextOffset := by
  have h1 := truncationOffset_cut hd.chasing.cut hfl.increasing hs r.endOffset
  have h2 := hd.ahead r s hr hs
  have h3 := hd.chasing.cut.next_le
  refine h1.trans ?_
  omega

include hl hfl hfm hlead hwm hsmall hanswer hd hr hs in
/-- A round fails at its truncation exactly if the lower end is no place to cut the
log as it was before the first round. -/
theorem Descending.round :
    (min r.endOffset s.endOffset < l.nextOffset ∧
      ¬ (l.Boundary (min r.endOffset s.endOffset) ∧ l.RoomAt (min r.endOffset s.endOffset)) ∧
      ∃ offset e q, reconcileRound leader current f p .none = (.error (.truncate offset e), q)) ∨
    ((min r.endOffset s.endOffset < l.nextOffset →
        l.Boundary (min r.endOffset s.endOffset) ∧ l.RoomAt (min r.endOffset s.endOffset)) ∧
      (∀ offset ∈ roundTruncation leader current f p, l.Boundary offset) ∧
      ∃ next q, reconcileRound leader current f p .none = (.ok next, q) ∧ Trimmable crc q ∧
        q.log.nextOffset = min (min r.endOffset s.endOffset) l.nextOffset ∧
        (∀ t < q.log.nextOffset, q.log.RoomAt t ↔ l.RoomAt t) ∧
        (q.log.nextOffset = l.nextOffset ∨ l.RoomAt q.log.nextOffset)) := by
  have ho := hd.offset_eq hfl hr hs
  have hahead := hd.ahead r s hr hs
  have hcut := hd.chasing.cut
  have hle := hcut.next_le
  have hleo : p.leo = p.log.nextOffset := rfl
  have hend : r.endOffset < 2 ^ 63 := lt_of_le_of_lt (hfm.answer_le hlead hr) hsmall
  have hnonneg := answer_nonneg hfm hwm hr
  have htr := roundTruncation_eq (p := p) (hanswer f) hr hnonneg hend
  rw [ho] at htr
  rcases reconcileRound_answered (hanswer f) hr hnonneg hend hd.trimmable ho with
    ⟨hlt, hno, e, q, he⟩ | ⟨hyes, next, q, he, hq, hnext, hroom⟩
  · left
    have heq : min (min r.endOffset s.endOffset) l.nextOffset = min r.endOffset s.endOffset := by
      omega
    rw [heq] at hlt hno he
    rw [hcut.boundary_iff hl hlt, hd.room _ hlt] at hno
    exact ⟨by omega, hno, _, e, q, he⟩
  · right
    have hcuttable : min r.endOffset s.endOffset < l.nextOffset →
        l.Boundary (min r.endOffset s.endOffset) ∧ l.RoomAt (min r.endOffset s.endOffset) := by
      intro hlt
      by_cases hshort : min (min r.endOffset s.endOffset) l.nextOffset < p.leo
      · have hb := hyes hshort
        rw [hcut.boundary_iff hl hshort, hd.room _ hshort, Nat.min_eq_left hlt.le] at hb
        exact hb
      · -- the log was cut there in an earlier round
        have heq : min r.endOffset s.endOffset = p.log.nextOffset := by omega
        rw [heq]
        exact ⟨hcut.boundary_next hl, hd.cut.resolve_left (by omega)⟩
    have hend' : q.log.nextOffset = min (min r.endOffset s.endOffset) l.nextOffset := by
      rcases hnext with ⟨rfl, hlong⟩ | hn
      · omega
      · exact hn
    have hqle : q.log.nextOffset ≤ p.log.nextOffset := by omega
    refine ⟨hcuttable, fun offset hoff => ?_, next, q, he, hq, hend', fun t ht => ?_, ?_⟩
    · rw [htr] at hoff
      split at hoff
      · rename_i hshort
        rw [List.mem_singleton.mp hoff]
        exact (hcut.boundary_iff hl hshort).mp (hyes hshort).1
      · exact absurd hoff List.not_mem_nil
    · rw [hroom t ht, hd.room t (by omega)]
    · by_cases hlt : min r.endOffset s.endOffset < l.nextOffset
      · right
        rw [hend', Nat.min_eq_left hlt.le]
        exact (hcuttable hlt).2
      · left
        omega

include hfl hfm hd hr in
/-- A round that goes on leaves an older epoch of the follower's, the newest one
not newer than the leader's. -/
theorem Descending.older {next : Option Int32} {f' : Int32} {l₂ : Log}
    (hround : Round crc leader.log p.log f next l₂ r) (hnext : next = some f') :
    f' < r.epoch ∧ (∃ x ∈ leader.log.epochCache, x.epoch = r.epoch) ∧
      (∃ y ∈ l.epochCache, y.epoch = f') ∧
      ∀ y ∈ l.epochCache, y.epoch ≤ r.epoch → y.epoch ≤ f' := by
  have hcut := hd.chasing.cut
  subst hnext
  rcases hround.localEnd with ⟨-, hn, -⟩ | ⟨s, hs, hn, -⟩
  · cases hn
  split at hn
  · cases hn
  rename_i hne
  cases hn
  obtain ⟨hans, -, z, hz, hzr⟩ := answers_of_endOffsetFor hcut.increasing hs
  rcases hans.epoch with ⟨y, hy, hys, hyr, hmax⟩ | ⟨hy, -⟩
  · refine ⟨lt_of_le_of_ne (hys ▸ hyr) hne, ?_, ⟨y, hcut.mem hy, hys⟩, fun w hw hwr => ?_⟩
    · rcases (hfm.answers hr).1.epoch with ⟨x, hx, hxr, -, -⟩ | ⟨hrf, -⟩
      · exact ⟨x, hx, hxr⟩
      · exact absurd (hrf ▸ hd.chasing.mem_of_found hfl hs hrf) hne
    · rw [← hys]
      exact hmax w (hcut.mem_of_le hfl.increasing hw hz (hwr.trans hzr)) hwr
  · exact absurd hy hne

include hfm hd hr in
/-- The leader's answer changes once in a round. -/
theorem Descending.turns_next {f' : Int32} (hlt : f' < r.epoch)
    (hx : ∃ x ∈ leader.log.epochCache, x.epoch = r.epoch)
    (hmax : ∀ y ∈ l.epochCache, y.epoch ≤ r.epoch → y.epoch ≤ f')
    (hfound : ∃ r', leader.log.endOffsetForLeaderEpoch f' = some r') :
    l.turns leader.log f' = l.turns leader.log f + 1 := by
  obtain ⟨x, hx, hxr⟩ := hx
  obtain ⟨r', hr'⟩ := hfound
  obtain ⟨g, hg, hgf⟩ := hd.chasing.follower
  have hans := (hfm.answers hr).1
  have hrf := hans.epoch_le
  have hr'f := (hfm.answers hr').1.epoch_le
  -- newer epochs have newer answers
  have hne : ∀ y : EpochEntry, f ≤ y.epoch →
      leader.log.endOffsetForLeaderEpoch y.epoch ≠ some r' := by
    intro y hy heq
    rcases (hfm.answers heq).1.epoch with ⟨e, -, he, -, hmax'⟩ | ⟨-, hall⟩
    · have h1 := hmax' x hx ((hxr.le.trans hrf).trans hy)
      rw [he, hxr] at h1
      exact absurd (hr'f.trans_lt hlt) (not_lt.mpr h1)
    · exact absurd (hall x hx) (not_lt.mpr ((hxr.le.trans hrf).trans hy))
  have hsame : ∀ y ∈ l.epochCache, f' < y.epoch → y.epoch ≤ f →
      leader.log.endOffsetForLeaderEpoch y.epoch = some r := by
    intro y hy hfy hyf
    have hry : r.epoch < y.epoch := not_le.mp fun hle => not_lt.mpr (hmax y hy hle) hfy
    rcases endOffsetFor_cases hfm.increasing y.epoch leader.log.nextOffset with
      ⟨-, hneg | hall⟩ | ⟨ry, hy', hansY, -⟩
    · exact absurd ((hfm.answers hr').2.1.trans hfy.le) (not_le.mpr hneg)
    · obtain ⟨-, -, w, hw, hfw⟩ := hfm.answers hr
      exact absurd (hall w hw) (not_lt.mpr (hyf.trans hfw))
    · rw [← hansY.eq_of_between hans hx hxr (hxr.le.trans hry.le) hyf]
      exact hy'
  have hset : ((l.epochCache.filter fun y => decide (f' < y.epoch)).map fun y =>
      leader.log.endOffsetForLeaderEpoch y.epoch).toFinset.erase (some r') =
      insert (some r) (((l.epochCache.filter fun y => decide (f < y.epoch)).map fun y =>
        leader.log.endOffsetForLeaderEpoch y.epoch).toFinset.erase (some r)) := by
    ext o
    simp only [Finset.mem_erase, Finset.mem_insert, List.mem_toFinset, List.mem_map,
      List.mem_filter, decide_eq_true_eq]
    constructor
    · rintro ⟨-, y, ⟨hy, hfy⟩, rfl⟩
      by_cases hyf : y.epoch ≤ f
      · exact .inl (hsame y hy hfy hyf)
      · by_cases ho : leader.log.endOffsetForLeaderEpoch y.epoch = some r
        · exact .inl ho
        · exact .inr ⟨ho, y, ⟨hy, not_le.mp hyf⟩, rfl⟩
    · rintro (rfl | ⟨-, y, ⟨hy, hfy⟩, rfl⟩)
      · rw [← hr, ← hgf]
        exact ⟨hne g hgf.ge, g, ⟨hg, hgf ▸ hlt.trans_le hrf⟩, rfl⟩
      · exact ⟨hne y hfy.le, y, ⟨hy, (hlt.trans_le hrf).trans hfy⟩, rfl⟩
  unfold Log.turns
  rw [hr, hr', hset, Finset.card_insert_of_notMem (Finset.notMem_erase _ _)]

include hmok hfl hfm hlead hwl hlast hd hr hs in
theorem Descending.next {f' : Int32} {q : Partition} {n : Nat} (hn : attempts = n + 1)
    (hround : reconcileRound leader current f p .none = (.ok (some f'), q))
    (htrim : Trimmable crc q)
    (hend : q.log.nextOffset = min (min r.endOffset s.endOffset) l.nextOffset)
    (hroom : ∀ t < q.log.nextOffset, q.log.RoomAt t ↔ l.RoomAt t)
    (hcut : q.log.nextOffset = l.nextOffset ∨ l.RoomAt q.log.nextOffset) :
    Descending crc l leader.log q f' n := by
  obtain ⟨r₁, hR⟩ := reconcileRound_ok hd.chasing.cut.ok hmok hfm hlead hround
  obtain rfl : r = r₁ := Option.some.inj (hr.symm.trans hR.answer)
  obtain ⟨hlt, hx, ⟨y, hy, hyf⟩, hmax⟩ := hd.older hfl hfm hr hR rfl
  have hfound := answered hfm hwl hlast hy
  rw [hyf] at hfound
  have hrf := (hfm.answers hr).1.epoch_le
  refine ⟨hd.chasing.next hfl hfm hR, fun e g a u hi =>
    (hd.tracking e g a u hi).next hfl hfm hlead hd.chasing hi hR, htrim, hroom, hcut,
    fun r' s' hr' hs' => ?_, ?_⟩
  · -- both ends are lower for the older epoch
    obtain ⟨hansR', -, -⟩ := hfm.answers hr'
    have h1 := hansR'.end_le (hfm.answers hr).1 (hlt.le.trans hrf)
    have h2 := (answers_of_endOffsetFor hfl.increasing hs').1.end_le
      (answers_of_endOffsetFor hfl.increasing hs).1 (hansR'.epoch_le.trans hlt.le)
    have h3 := hfm.answer_le hlead hr'
    omega
  · have h1 := hd.turns_next hfm hr hlt hx hmax hfound
    have h2 := hd.count
    omega

include hl hstart hfl hfm hr hs in
/-- Where the lower end can be cut, an epoch that blocks the truncation is older
than the leader's. -/
theorem stuckAt_lt_answer {u : Int32} (hu : l.StuckAt leader.log u) (huf : u ≤ f)
    (hcuttable : min r.endOffset s.endOffset < l.nextOffset →
      l.Boundary (min r.endOffset s.endOffset) ∧ l.RoomAt (min r.endOffset s.endOffset)) :
    ∃ x ∈ leader.log.epochCache, x.epoch = r.epoch ∧ u < x.epoch := by
  obtain ⟨ru, su, hru, hsu, hlow, hno⟩ := hu.ends
  have hans := (hfm.answers hr).1
  have hansU := (hfm.answers hru).1
  have hnot : min ru.endOffset su.endOffset ≠ min r.endOffset s.endOffset := by
    intro heq
    rw [heq] at hlow hno
    exact hno (hcuttable hlow)
  rcases hans.epoch with ⟨x, hx, hxr, -, -⟩ | ⟨-, hall⟩
  · refine ⟨x, hx, hxr, not_le.mp fun hle => hnot ?_⟩
    obtain rfl := hansU.eq_of_between hans hx hxr hle huf
    rw [Option.some.inj (hs.symm.trans hsu)]
  · -- all epochs of the leader are newer than both
    refine absurd ?_ hnot
    have h1 := hfm.answer_oldest hr hall
    have h2 := hfm.answer_oldest hru fun x hx => huf.trans_lt (hall x hx)
    have h3 := hfl.oldest_le_answer hl hs
    have h4 := hfl.oldest_le_answer hl hsu
    omega

include hmok hstart hfl hfm hlead hm hd in
/-- A round that ends the loop has not passed over such an epoch. -/
theorem Descending.stop {u : Int32} (hu : l.StuckAt leader.log u) {l₂ : Log}
    (hR : Round crc leader.log p.log f none l₂ r) {x : EpochEntry}
    (hx : x ∈ leader.log.epochCache) (hxr : x.epoch = r.epoch) (hux : u < x.epoch) : False := by
  have hcut := hd.chasing.cut
  rcases hR.localEnd with ⟨hnone, -, -⟩ | ⟨s', hs', hn, -⟩
  · obtain ⟨⟨g, a, w, hi⟩, -⟩ := hd.chasing.stuck hmok hstart hfl hfm hlead hm hR hnone hx hxr
    exact absurd (hu.visible x g a w hi) (not_le.mpr hux)
  · have hsr : s'.epoch = r.epoch := by
      by_contra hne
      rw [if_neg hne] at hn
      cases hn
    obtain ⟨hans', -, z, hz, hzr⟩ := answers_of_endOffsetFor hcut.increasing hs'
    rcases hans'.epoch with ⟨y, hy, hys, -, -⟩ | ⟨-, hall⟩
    · have := hu.common x hx y (hcut.mem hy) (hxr.trans (hsr.symm.trans hys.symm))
      exact absurd this (not_le.mpr hux)
    · obtain ⟨y, hy, hyu⟩ := hu.cached
      have hle : y.epoch < r.epoch := hyu ▸ hxr ▸ hux
      have hy' := hcut.mem_of_le hfl.increasing hy hz (hle.le.trans hzr)
      exact absurd (hall y hy') (not_lt.mpr hle.le)

include hfm hr in
/-- Fewer changes of the answer are above newer epochs. -/
theorem stuckAt_turns_le {u : Int32} (hu : l.StuckAt leader.log u) (huf : u ≤ f) :
    l.turns leader.log f ≤ l.turns leader.log u := by
  obtain ⟨ru, -, hru, -⟩ := hu.ends
  have hans := (hfm.answers hr).1
  refine Finset.card_le_card fun o ho => ?_
  simp only [Finset.mem_erase, List.mem_toFinset, List.mem_map, List.mem_filter,
    decide_eq_true_eq] at ho ⊢
  obtain ⟨hne, y, ⟨hy, hfy⟩, rfl⟩ := ho
  refine ⟨fun heq => hne ?_, y, ⟨hy, huf.trans_lt hfy⟩, rfl⟩
  -- an answer for both neighbours is one for the epoch between
  have hry : leader.log.endOffsetForLeaderEpoch y.epoch = some ru := heq.trans hru
  have hrule := (hfm.answers hru).1.epoch_le
  rcases (hfm.answers hry).1.epoch with ⟨e, he, her, -, -⟩ | ⟨her, -⟩
  · rw [hry, hr, hans.eq_of_between (hfm.answers hry).1 he her ((her.le.trans hrule).trans huf)
      hfy.le]
  · exact absurd (her ▸ hrule) (not_le.mpr (huf.trans_lt hfy))

include hl hmok hstart hfl hfm hlead hm hwl hwm hsmall hlast hanswer

/-- The loop fails at a truncation exactly if one of the epochs still to come blocks
it; otherwise all its truncations are at boundaries. -/
theorem reconcileLoop_stuck_iff : ∀ (attempts : Nat) {f : Int32} {p : Partition},
    Descending crc l leader.log p f attempts →
    ((∃ offset e q, reconcileLoop leader current (fun _ => .none) attempts f p =
        (.error (.truncate offset e), q)) ↔ ∃ u, u ≤ f ∧ l.StuckAt leader.log u) ∧
      ((¬ ∃ u, u ≤ f ∧ l.StuckAt leader.log u) →
        ∀ offset ∈ loopTruncations leader current (fun _ => .none) attempts f p,
          l.Boundary offset)
  | 0, f, p, hd => by
      refine ⟨⟨?_, ?_⟩, fun _ offset ho => absurd ho List.not_mem_nil⟩
      · rintro ⟨offset, e, q, h⟩
        cases h
      · rintro ⟨u, huf, hu⟩
        obtain ⟨y, hy, rfl⟩ := hd.chasing.follower
        obtain ⟨r, hr⟩ := answered hfm hwl hlast hy
        have h1 := stuckAt_turns_le hfm hr hu huf
        have h2 := hd.count
        have h3 := hu.near
        omega
  | attempts + 1, f, p, hd => by
      obtain ⟨y, hy, rfl⟩ := hd.chasing.follower
      obtain ⟨r, hr⟩ := answered hfm hwl hlast hy
      obtain ⟨s, hs⟩ := localEnd_some hfl (answer_nonneg hfm hwm hr) hy
        (hfm.answers hr).1.epoch_le
      unfold reconcileLoop loopTruncations
      rcases hd.round hl hfl hfm hlead hwm hsmall hanswer hr hs with
        ⟨hlow, hno, offset, e, q, he⟩ | ⟨hcuttable, hbound, next, q, he, htrim, hend, hroom, hcut⟩
      · -- the epoch asked for blocks the truncation
        have hstuck : l.StuckAt leader.log y.epoch := by
          have hcount := hd.count
          refine ⟨⟨y, hy, rfl⟩, hd.chasing.common, fun e g a u hi => ?_, by omega,
            r, s, hr, hs, hlow, hno⟩
          exact (hi.order.1.trans_le (hd.tracking e g a u hi).bound).le
        rw [he]
        exact ⟨⟨fun _ => ⟨y.epoch, le_refl _, hstuck⟩, fun _ => ⟨offset, e, q, rfl⟩⟩,
          fun hnot => absurd ⟨y.epoch, le_refl _, hstuck⟩ hnot⟩
      obtain ⟨r₁, hR⟩ := reconcileRound_ok hd.chasing.cut.ok hmok hfm hlead he
      obtain rfl : r = r₁ := Option.some.inj (hr.symm.trans hR.answer)
      rw [he]
      cases next with
      | none =>
        refine ⟨⟨?_, ?_⟩, fun _ offset ho => hbound offset (by simpa using ho)⟩
        · rintro ⟨offset, e, q, h⟩
          cases h
        · rintro ⟨u, huf, hu⟩
          obtain ⟨x, hx, hxr, hux⟩ :=
            stuckAt_lt_answer hl hstart hfl hfm hr hs hu huf hcuttable
          exact (hd.stop hmok hstart hfl hfm hlead hm hu hR hx hxr hux).elim
      | some f' =>
        obtain ⟨hlt, -, -, hmax⟩ := hd.older hfl hfm hr hR rfl
        have hd' := hd.next hmok hfl hfm hlead hwl hlast hr hs rfl he htrim hend hroom hcut
        obtain ⟨hiff, hall⟩ := reconcileLoop_stuck_iff attempts hd'
        -- the epochs that may block are not passed over
        have hsame : (∃ u, u ≤ f' ∧ l.StuckAt leader.log u) ↔
            ∃ u, u ≤ y.epoch ∧ l.StuckAt leader.log u := by
          constructor
          · rintro ⟨u, huf, hu⟩
            exact ⟨u, huf.trans (hlt.le.trans (hfm.answers hr).1.epoch_le), hu⟩
          · rintro ⟨u, huf, hu⟩
            obtain ⟨x, -, hxr, hux⟩ :=
              stuckAt_lt_answer hl hstart hfl hfm hr hs hu huf hcuttable
            obtain ⟨w, hw, rfl⟩ := hu.cached
            exact ⟨w.epoch, hmax w hw (hxr ▸ hux.le), hu⟩
        simp only [← hsame]
        refine ⟨hiff, fun hnot offset ho => ?_⟩
        rcases List.mem_append.mp ho with ho | ho
        · exact hbound offset ho
        · exact hall hnot offset ho

end Loop

/-- Between two logs with faithful caches that match epoch-wise, every offset
passed to `TruncateTo` is a batch boundary and no truncation fails, exactly if no
epoch of the follower blocks the reconciliation. -/
theorem truncations_at_boundaries_iff {crc : Checksum} {leader p : Partition} {current : Int32}
    (hfollower : p.isLeader = false)
    (hanswer : ∀ f, (leader.offsetsForLeaderEpoch current f).errorCode = 0)
    (hl : p.log.Ok crc) (hmok : leader.log.Ok crc)
    (hstart : p.log.oldestOffset = leader.log.oldestOffset) (hfl : p.log.Faithful)
    (hfm : leader.log.Faithful)
    (hlead : ∀ x ∈ leader.log.epochCache, x.startOffset ≤ leader.log.nextOffset)
    (hm : p.log.Matches leader.log) (hwl : p.log.epochCache.Writable)
    (hwm : leader.log.epochCache.Writable) (hsmall : leader.log.nextOffset < 2 ^ 63)
    (hlast : ∀ y ∈ p.log.epochCache, ∃ x ∈ leader.log.epochCache, y.epoch ≤ x.epoch)
    (hmax : ∀ q ∈ p.log.pairs, 0 ≤ q.index.maxBytes.toInt) :
    ((∀ offset ∈ truncations leader p current fun _ => .none, p.log.Boundary offset) ∧
      ∀ offset e, (reconcilePartition leader p current fun _ => .none).1 ≠
        .error (.truncate offset e)) ↔
      ¬ ∃ u, p.log.StuckAt leader.log u := by
  unfold truncations reconcilePartition
  cases hlatest : p.log.latestLeaderEpoch with
  | none =>
    have hnil : p.log.epochCache = [] :=
      List.getLast?_eq_none_iff.mp (Option.map_eq_none_iff.mp hlatest)
    refine ⟨fun _ ⟨u, hu⟩ => ?_, fun _ => ⟨fun _ ho => absurd ho List.not_mem_nil, fun _ _ h => ?_⟩⟩
    · obtain ⟨y, hy, -⟩ := hu.cached
      rw [hnil] at hy
      exact absurd hy List.not_mem_nil
    · cases h
  | some f =>
    obtain ⟨last, hlast', rfl⟩ := Option.map_eq_some_iff.mp hlatest
    have hmem := List.mem_of_getLast? hlast'
    have hle : ∀ y ∈ p.log.epochCache, y.epoch ≤ last.epoch := fun y hy =>
      hfl.increasing.le_last hlast' hy
    have hzero : p.log.turns leader.log last.epoch = 0 := by
      have hnil : (p.log.epochCache.filter fun y => decide (last.epoch < y.epoch)) = [] :=
        List.filter_eq_nil_iff.mpr fun y hy => by simpa using hle y hy
      unfold Log.turns
      rw [hnil]
      simp
    have hd : Descending crc p.log leader.log p last.epoch 32 := by
      refine ⟨⟨.refl hl hfl.increasing, ⟨last, hmem, rfl⟩, fun x _ y hy hxy => hxy ▸ hle y hy,
        .inl ⟨last, hmem, rfl⟩⟩, fun e g a u hi => ?_, ⟨hfollower, hl, hwl, hmax⟩,
        fun _ _ => Iff.rfl, .inl rfl, fun r s _ _ => Nat.min_le_right _ _, by omega⟩
      obtain ⟨r, hru, hrl, hro, -⟩ := hi.answer hfl hfm hlead
      have hu := hle u hi.latest
      exact ⟨(hi.order.2.1.trans hi.order.2.2).le.trans hu, by omega,
        .inl (hi.order.2.2.le.trans hu)⟩
    obtain ⟨hiff, hall⟩ := reconcileLoop_stuck_iff hl hmok hstart hfl hfm hlead hm hwl hwm hsmall
      hlast hanswer 32 hd
    have hany : (∃ u, u ≤ last.epoch ∧ p.log.StuckAt leader.log u) ↔
        ∃ u, p.log.StuckAt leader.log u := by
      constructor
      · rintro ⟨u, -, hu⟩
        exact ⟨u, hu⟩
      · rintro ⟨u, hu⟩
        obtain ⟨y, hy, rfl⟩ := hu.cached
        exact ⟨y.epoch, hle y hy, hu⟩
    rw [hany] at hiff hall
    constructor
    · rintro ⟨-, hno⟩ hu
      obtain ⟨offset, e, q, hq⟩ := hiff.mpr hu
      exact hno offset e (congrArg Prod.fst hq)
    · intro hnot
      refine ⟨hall hnot, fun offset e he => hnot (hiff.mp ?_)⟩
      simp only at he
      cases hq : reconcileLoop leader current (fun _ => .none) 32 last.epoch p with
      | mk x q =>
        rw [hq] at he
        exact ⟨offset, e, q, Prod.ext he rfl⟩

/-! ## Samples -/

theorem errorCode_zero {leader : Partition} {current : Int32} (hopen : leader.closed = false)
    (hlead : leader.isLeader = true)
    (hepoch : validateLeaderEpoch current leader.leaderEpoch = none) (f : Int32) :
    (leader.offsetsForLeaderEpoch current f).errorCode = 0 := by
  unfold Partition.offsetsForLeaderEpoch Partition.endOffsetForLeaderEpoch
  rw [hopen, hlead, hepoch]
  cases leader.log.endOffsetForLeaderEpoch f <;> rfl

/-- The follower drops the record that the leader does not have. -/
theorem truncations_at_boundaries_iff_ahead :
    truncations behindLeader aheadFollower 2 (fun _ => .none) = [1] ∧
      (∀ offset ∈ truncations behindLeader aheadFollower 2 fun _ => .none,
        aheadFollower.log.Boundary offset) ∧
      ∀ offset e, (reconcilePartition behindLeader aheadFollower 2 fun _ => .none).1 ≠
        .error (.truncate offset e) := by
  refine ⟨by decide +kernel, ?_⟩
  have hm : aheadFollower.log.Matches behindLeader.log := by decide +kernel
  refine (truncations_at_boundaries_iff (by decide +kernel) (errorCode_zero (by decide +kernel)
    (by decide +kernel) (by decide +kernel)) aheadFollower_traced.ok
    behindLeader_traced.ok (by decide +kernel) aheadFollower_faithful
    behindLeader_faithful (by decide +kernel) hm
    ⟨aheadFollower_faithful.increasing, by decide +kernel, by decide +kernel⟩
    ⟨behindLeader_faithful.increasing, by decide +kernel, by decide +kernel⟩ (by decide +kernel)
    (by decide +kernel) (by decide +kernel)).mpr ?_
  rintro ⟨u, hu⟩
  -- the follower's only epoch ends at 1 for the leader, with a batch boundary
  have hone : ∀ x ∈ aheadFollower.log.epochCache, x.epoch = 1 := by decide +kernel
  obtain ⟨y, hy, rfl⟩ := hu.cached
  obtain ⟨r, s, hr, hs, -, hno⟩ := hu.ends
  have h1 : behindLeader.log.endOffsetForLeaderEpoch 1 = some ⟨1, 1⟩ := by decide +kernel
  have h2 : aheadFollower.log.endOffsetForLeaderEpoch 1 = some ⟨1, 2⟩ := by decide +kernel
  rw [hone y hy, h1] at hr
  obtain rfl := Option.some.inj hr
  rw [h2] at hs
  obtain rfl := Option.some.inj hs
  exact hno (by decide +kernel)

/-- Two records in one batch. -/
def twoRecords (epoch : Int32) (offset : Nat) : ByteString :=
  stamp epoch offset (encodeBatch crc32c ⟨0, 0, 0, 0, 1, [⟨none, none, 0⟩, ⟨none, none, 0⟩]⟩ 0)

/-- The leader's epochs are 1, 4 and 6, with a record each; the follower's are 1,
3 with a batch of two records, and 5. -/
def shortLeader : Partition := sampleReplica 1 (leaderships [1, 4, 6])
def batchFollower : Partition :=
  sampleReplica 2 (replicated 5 (Partition.sampleRecord 1 0 ++ twoRecords 3 1 ++
    Partition.sampleRecord 5 3))

/-- The leader's epoch 4 ends at 2, inside the follower's batch of epoch 3: the
truncation fails and leaves the follower as it was. -/
theorem truncation_inside_follower_batch :
    shortLeader.log.Faithful ∧ batchFollower.log.Faithful ∧
      batchFollower.log.Matches shortLeader.log ∧
      batchFollower.log.latestLeaderEpoch = some 5 ∧ shortLeader.log.latestLeaderEpoch = some 6 ∧
      (batchFollower.log.batches.map fun c =>
        (baseOffset c, endOffset c, partitionLeaderEpoch c)) = [(0, 1, 1), (1, 3, 3), (3, 4, 5)] ∧
      truncations shortLeader batchFollower 6 (fun _ => .none) = [2] ∧
      ¬ batchFollower.log.Boundary 2 ∧
      (reconcilePartition shortLeader batchFollower 6 fun _ => .none).1 =
        .error (.truncate 2 (.log (.segment (.insideBatch 2 1 2)))) ∧
      (reconcilePartition shortLeader batchFollower 6 fun _ => .none).2.log.batches =
        batchFollower.log.batches := by
  refine ⟨(leaderships_traced [1, 4, 6]).faithful
      (first_of_head? (x := ⟨1, 0⟩) (by decide +kernel) (by decide +kernel)),
    (replicated_traced 5 _).faithful
      (first_of_head? (x := ⟨1, 0⟩) (by decide +kernel) (by decide +kernel)),
    by decide +kernel, by decide +kernel, by decide +kernel, by decide +kernel,
    by decide +kernel, by decide +kernel, by decide +kernel, by decide +kernel⟩

end MessageBroker.Broker
