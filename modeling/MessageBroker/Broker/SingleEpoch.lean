import MessageBroker.Broker.FetchPaths
import MessageBroker.Storage.Prefixes

/-!
# Replication within one leader epoch

A leader takes records from producers, and its followers fetch from it: a follower asks
at its end offset, the leader notes the offset and answers with batches and its high
watermark, and the follower appends them. Requests and responses may be lost, delayed or
repeated, and the leader overwrites what it knows of a follower by whatever request
arrives. The followers' logs stay prefixes of the leader's, the leader never believes a
follower to be further than it is, and the high watermark stays below the end of every
log in the in-sync set. A follower's own watermark is no further than the leader's,
unless it was before the leader took over.
-/
namespace MessageBroker.Broker

open Lib.Bytes Lib Storage

/-! ## The parties and the messages -/

/-- A fetch request; `follower` says whose it is. -/
structure FetchSent where
  follower : Nat
  replicaID : Int32
  fetchOffset : Nat
  leaderEpoch : Int32

structure FetchAnswered where
  follower : Nat
  records : ByteString
  highWatermark : Nat
  leaderEpoch : Int32

/-- A leader, its followers, and every message sent so far. A message that is on its way
is taken at any time, any number of times, or never. -/
structure ReplicaSet where
  leader : Partition
  followers : List Partition
  requests : List FetchSent
  responses : List FetchAnswered

inductive ReplicationEvent
  | produce (data : ByteString) (acks : Acks) (io : Faults)
  /-- a follower asks for what comes after its log -/
  | send (i : Nat)
  /-- a request arrives at the leader -/
  | serve (k : Nat) (maxBytes : Int32) (allowOversizedFirstBatch : Bool)
  /-- a response arrives at its follower -/
  | receive (k : Nat) (io : Faults)

namespace ReplicaSet

def serve (s : ReplicaSet) (r : FetchSent) (maxBytes : Int32) (allowOversizedFirstBatch : Bool) :
    ReplicaSet :=
  match s.leader.fetchRawRanges r.fetchOffset r.replicaID maxBytes allowOversizedFirstBatch with
  | (.error _, p) => { s with leader := p }
  | (.ok x, p) => { s with
      leader := p
      responses := s.responses ++
        [⟨r.follower, p.rangeBytes x.ranges, x.highWatermark, r.leaderEpoch⟩] }

def receive (crc : Checksum) (s : ReplicaSet) (r : FetchAnswered) (io : Faults) : ReplicaSet :=
  match s.followers[r.follower]? with
  | none => s
  | some f => { s with
      followers := s.followers.set r.follower
        (f.appendFromLeader crc r.records r.leaderEpoch r.highWatermark io).2 }

def step (crc : Checksum) (s : ReplicaSet) : ReplicationEvent → Unit × ReplicaSet
  | .produce data acks io => ((), { s with leader := (s.leader.appendRaw crc data acks io).2 })
  | .send i =>
      match s.followers[i]? with
      | none => ((), s)
      | some f => ((), { s with
          requests := s.requests ++ [⟨i, f.localBrokerID, f.leo, f.leaderEpoch⟩] })
  | .serve k maxBytes allowOversizedFirstBatch =>
      match s.requests[k]? with
      | none => ((), s)
      | some r => ((), s.serve r maxBytes allowOversizedFirstBatch)
  | .receive k io =>
      match s.responses[k]? with
      | none => ((), s)
      | some r => ((), s.receive crc r io)

/-- No segment write or file removal fails. -/
def Undisturbed : ReplicationEvent → Prop
  | .produce _ _ io => io.Harmless
  | .receive _ io => io.Harmless
  | _ => True

/-! ## What the leader knows -/

/-- The leader does not believe a follower to be further than it is. -/
def Modest (p : Partition) (fs : List Partition) : Prop :=
  ∀ e ∈ p.isr, ∀ f ∈ fs, f.localBrokerID = e.brokerID → e.leo ≤ f.leo

/-- The high watermark is in the log of every member of the in-sync set. -/
structure Committed (p : Partition) (fs : List Partition) : Prop where
  own : p.highWatermark ≤ p.leo
  isr : ∀ f ∈ fs, f.localBrokerID ∈ p.isrSnapshot → p.highWatermark ≤ f.leo

theorem Committed.advance {p : Partition} {fs : List Partition} (h : Committed p fs)
    (hmodest : Modest p fs) (hids : ∀ f ∈ fs, f.localBrokerID ≠ p.localBrokerID) :
    Committed p.maybeAdvanceHW fs ∧ p.highWatermark ≤ p.maybeAdvanceHW.highWatermark := by
  have hisr : p.maybeAdvanceHW.isrSnapshot = p.isrSnapshot := by
    unfold Partition.isrSnapshot
    rw [Partition.maybeAdvanceHW_isr]
  rcases p.maybeAdvanceHW_rises with ⟨hsame, -⟩ | ⟨-, hlt, hrise, -⟩
  · refine ⟨⟨?_, fun f hf hin => ?_⟩, hsame.ge⟩
    · rw [hsame, Partition.maybeAdvanceHW_leo]
      exact h.own
    · rw [hsame]
      exact h.isr f hf (hisr ▸ hin)
  · obtain ⟨hown, hall⟩ := Partition.le_minLEO_iff.mp (Nat.le_refl p.commonLEO)
    refine ⟨⟨?_, fun f hf hin => ?_⟩, by rw [hrise]; exact hlt.le⟩
    · rw [hrise, Partition.maybeAdvanceHW_leo]
      exact hown
    · rw [hrise]
      rw [hisr] at hin
      obtain ⟨e, he, heq⟩ := List.mem_map.mp hin
      have hne : e.brokerID ≠ p.localBrokerID := heq ▸ hids f hf
      exact (hall e he hne).trans (hmodest e he f hf heq.symm)

theorem mem_setLEO {brokerID : Int32} {leo : Nat} {e : ISREntry} : ∀ {isr : List ISREntry},
    e ∈ Partition.setLEO brokerID leo isr → e ∈ isr ∨ e.brokerID = brokerID ∧ e.leo = leo
  | [], he => by cases he
  | x :: xs, he => by
    unfold Partition.setLEO at he
    split at he
    · rename_i hx
      rcases List.mem_cons.mp he with rfl | he
      · exact .inr ⟨hx, rfl⟩
      · exact .inl (List.mem_cons_of_mem x he)
    · rcases List.mem_cons.mp he with rfl | he
      · exact .inl List.mem_cons_self
      · exact (mem_setLEO he).imp_left (List.mem_cons_of_mem x)

theorem map_setLEO (brokerID : Int32) (leo : Nat) : ∀ isr : List ISREntry,
    (Partition.setLEO brokerID leo isr).map (·.brokerID) = isr.map (·.brokerID)
  | [] => rfl
  | e :: es => by
    unfold Partition.setLEO
    split
    · rfl
    · rw [List.map_cons, List.map_cons, map_setLEO brokerID leo es]

/-- The watermark in a response is the leader's. -/
theorem fetchRawRanges_highWatermark {p q : Partition} {offset : Nat} {replicaID maxBytes : Int32}
    {allow : Bool} {r : FetchRawRangeResult}
    (hr : p.fetchRawRanges offset replicaID maxBytes allow = (.ok r, q)) :
    r.highWatermark = q.highWatermark := by
  unfold Partition.fetchRawRanges at hr
  simp only at hr
  repeat' split at hr
  all_goals
    cases hr
    try rfl

/-! ## The invariant -/

/-- What holds in every state of a run; `hw` are the watermarks of the followers at its
start. -/
structure Inv (crc : Checksum) (hw : Nat → Nat) (s : ReplicaSet) : Prop where
  leaderLog : s.leader.log.Apart crc
  followerLog : ∀ f ∈ s.followers, f.log.Apart crc
  prefixes : ∀ f ∈ s.followers, f.log.PrefixOf s.leader.log
  ids : (s.leader.localBrokerID :: s.followers.map (·.localBrokerID)).Nodup
  sent : ∀ r ∈ s.requests, ∃ f, s.followers[r.follower]? = some f ∧
    f.localBrokerID = r.replicaID ∧ r.fetchOffset ≤ f.leo
  answered : ∀ r ∈ s.responses, r.highWatermark ≤ s.leader.highWatermark ∧
    ∃ cs, cs <:+: s.leader.log.batches ∧ (∀ c ∈ cs, Stored crc c) ∧ r.records = cs.flatten
  modest : Modest s.leader s.followers
  committed : Committed s.leader s.followers
  watermarks : ∀ i f, s.followers[i]? = some f →
    f.highWatermark ≤ max s.leader.highWatermark (hw i)

section Inv

variable {crc : Checksum} {hw : Nat → Nat} {s : ReplicaSet} (h : s.Inv crc hw)

include h

theorem Inv.ne_leader {f : Partition} (hf : f ∈ s.followers) :
    f.localBrokerID ≠ s.leader.localBrokerID := by
  intro heq
  exact (List.nodup_cons.mp h.ids).1 (heq ▸ List.mem_map_of_mem hf)

theorem Inv.eq_of_id {f g : Partition} (hf : f ∈ s.followers) (hg : g ∈ s.followers)
    (heq : f.localBrokerID = g.localBrokerID) : f = g :=
  List.inj_on_of_nodup_map (List.nodup_cons.mp h.ids).2 hf hg heq

/-- The leader's log grows and its watermark rises. -/
theorem Inv.lead {p : Partition} {ds : List ByteString} (hadds : Log.Adds s.leader.log p.log ds)
    (hlog : p.log.Apart crc) (hid : p.localBrokerID = s.leader.localBrokerID)
    (hmodest : Modest p s.followers) (hcommitted : Committed p s.followers)
    (hrise : s.leader.highWatermark ≤ p.highWatermark) : Inv crc hw { s with leader := p } where
  leaderLog := hlog
  followerLog := h.followerLog
  prefixes f hf := (h.prefixes f hf).extend hadds
  ids := by
    show (p.localBrokerID :: _).Nodup
    rw [hid]
    exact h.ids
  sent := h.sent
  answered r hr := by
    obtain ⟨hle, cs, hcs, hstored, hrecords⟩ := h.answered r hr
    exact ⟨hle.trans hrise, cs, hadds.consecutive hcs, hstored, hrecords⟩
  modest := hmodest
  committed := hcommitted
  watermarks i f hi := (h.watermarks i f hi).trans (max_le_max hrise le_rfl)

/-- A leader whose watermark is reconsidered. -/
theorem Inv.advance {p : Partition} {ds : List ByteString}
    (hadds : Log.Adds s.leader.log p.log ds) (hlog : p.log.Apart crc)
    (hid : p.localBrokerID = s.leader.localBrokerID) (hmodest : Modest p s.followers)
    (hisr : p.isrSnapshot = s.leader.isrSnapshot)
    (hhw : p.highWatermark = s.leader.highWatermark) :
    Inv crc hw { s with leader := p.maybeAdvanceHW } := by
  have hcommitted : Committed p s.followers := by
    refine ⟨?_, fun f hf hin => ?_⟩
    · rw [hhw]
      exact h.committed.own.trans hadds.tiles.le
    · rw [hhw]
      exact h.committed.isr f hf (hisr ▸ hin)
  obtain ⟨hnext, hrise⟩ := hcommitted.advance hmodest fun f hf => hid ▸ h.ne_leader hf
  have hadds' : Log.Adds s.leader.log p.maybeAdvanceHW.log ds := by
    rw [Partition.maybeAdvanceHW_log]
    exact hadds
  refine h.lead hadds' ?_ ?_ ?_ hnext (hhw ▸ hrise)
  · rw [Partition.maybeAdvanceHW_log]
    exact hlog
  · rw [Partition.maybeAdvanceHW_localBrokerID]
    exact hid
  · intro e he
    rw [Partition.maybeAdvanceHW_isr] at he
    exact hmodest e he

theorem Inv.produce (data : ByteString) (acks : Acks) {io : Faults} (hio : io.Harmless) :
    Inv crc hw { s with leader := (s.leader.appendRaw crc data acks io).2 } := by
  obtain ⟨r, l, he, -, hcase⟩ := h.leaderLog.appendRaw_adds hio data s.leader.leaderEpoch
  have hlog := h.leaderLog.of_appendRaw hio he
  obtain ⟨ds, hadds⟩ : ∃ ds, Log.Adds s.leader.log l ds := by
    rcases hcase with ⟨-, hadds⟩ | hadds
    · exact ⟨_, hadds⟩
    · exact ⟨_, hadds⟩
  rcases s.leader.appendRaw_cases crc io data acks with
    ⟨e, hap⟩ | ⟨-, -, r', l', he', ⟨e, e', -, hap⟩ | ⟨x, y, purgatory, pushed, -, hap⟩⟩
  · rw [hap]
    exact h
  · obtain ⟨-, rfl⟩ := Prod.mk.inj (he.symm.trans he')
    rw [hap]
    exact h.lead (p := { s.leader with log := l }) hadds hlog rfl h.modest
      ⟨h.committed.own.trans hadds.tiles.le, h.committed.isr⟩ le_rfl
  · obtain ⟨-, rfl⟩ := Prod.mk.inj (he.symm.trans he')
    rw [hap]
    exact h.advance (p := { s.leader with log := l, notified := _, purgatory := _, pushed := _ })
      hadds hlog rfl h.modest rfl rfl

/-- A request is noted: its follower has at least as much. -/
theorem Inv.note {r : FetchSent} (hr : r ∈ s.requests) :
    Inv crc hw { s with leader := s.leader.updateFollowerLEO r.replicaID r.fetchOffset } := by
  obtain ⟨g, hg, hgid, hle⟩ := h.sent r hr
  refine h.advance (p := { s.leader with
      isr := Partition.setLEO r.replicaID r.fetchOffset s.leader.isr })
    (Log.Adds.refl _) h.leaderLog rfl (fun e he f hf hid => ?_) (map_setLEO _ _ _) rfl
  rcases mem_setLEO he with he | ⟨heid, heleo⟩
  · exact h.modest e he f hf hid
  · rw [h.eq_of_id hf (List.mem_of_getElem? hg) ((hid.trans heid).trans hgid.symm), heleo]
    exact hle

/-- What is handed out are consecutive batches, with the watermark of the moment. -/
theorem Inv.serve {r : FetchSent} (hr : r ∈ s.requests) (maxBytes : Int32) (allow : Bool) :
    Inv crc hw (s.serve r maxBytes allow) := by
  obtain ⟨x, p, hx, hp⟩ :=
    s.leader.fetchRawRanges_cases r.fetchOffset r.replicaID maxBytes allow
  have hnext : Inv crc hw { s with leader := p } := by
    rcases hp with rfl | rfl
    · exact h
    · exact h.note hr
  have hlog : p.log = s.leader.log := by
    rcases hp with rfl | rfl
    · rfl
    · exact updateFollowerLEO_log s.leader r.replicaID r.fetchOffset
  unfold ReplicaSet.serve
  rw [hx]
  cases x with
  | error e => exact hnext
  | ok x =>
    refine { hnext with answered := fun a ha => ?_ }
    rcases List.mem_append.mp ha with ha | ha
    · exact hnext.answered a ha
    rw [List.mem_singleton.mp ha]
    refine ⟨(fetchRawRanges_highWatermark hx).le, ?_⟩
    show ∃ cs, cs <:+: p.log.batches ∧ (∀ c ∈ cs, Stored crc c) ∧
      p.rangeBytes x.ranges = cs.flatten
    have hbytes : p.rangeBytes x.ranges = s.leader.rangeBytes x.ranges := by
      unfold Partition.rangeBytes
      rw [hlog]
    rw [hbytes, hlog]
    rcases fetchRawRanges_served h.leaderLog hx with
      ⟨hranges, -⟩ | ⟨g, pre, kept, dropped, rest, hread, -, hkept, -⟩
    · exact ⟨[], List.nil_infix, fun c hc => absurd hc List.not_mem_nil, by rw [hranges]; rfl⟩
    · exact ⟨kept, (List.prefix_append kept dropped).isInfix.trans hread.consecutive,
        fun c hc => hread.rep.stored c (by simp [hc]), hkept⟩

theorem Inv.send {i : Nat} {f : Partition} (hi : s.followers[i]? = some f) :
    Inv crc hw { s with
      requests := s.requests ++ [⟨i, f.localBrokerID, f.leo, f.leaderEpoch⟩] } := by
  refine { h with sent := fun r hr => ?_ }
  rcases List.mem_append.mp hr with hr | hr
  · exact h.sent r hr
  · rw [List.mem_singleton.mp hr]
    exact ⟨f, hi, rfl, Nat.le_refl _⟩

/-- A follower's log grows along the leader's. -/
theorem Inv.follow {i : Nat} {f f' : Partition} (hi : s.followers[i]? = some f)
    (hid : f'.localBrokerID = f.localBrokerID) (hlog : f'.log.Apart crc)
    (hfirst : f'.log.PrefixOf s.leader.log) (hleo : f.leo ≤ f'.leo)
    (hhw : f'.highWatermark ≤ max s.leader.highWatermark (hw i)) :
    Inv crc hw { s with followers := s.followers.set i f' } := by
  have hmem := List.mem_of_getElem? hi
  have hlt : i < s.followers.length := (List.getElem?_eq_some_iff.mp hi).1
  have hids : (s.followers.set i f').map (·.localBrokerID) =
      s.followers.map (·.localBrokerID) := by
    refine List.ext_getElem? fun j => ?_
    rw [List.getElem?_map, List.getElem?_map]
    by_cases hij : i = j
    · subst hij
      rw [List.getElem?_set_self hlt, hi, Option.map_some, Option.map_some, hid]
    · rw [List.getElem?_set_ne hij]
  have hat : ∀ {j : Nat} {g : Partition}, (s.followers.set i f')[j]? = some g →
      j = i ∧ g = f' ∨ s.followers[j]? = some g := by
    intro j g hj
    by_cases hij : i = j
    · subst hij
      rw [List.getElem?_set_self hlt] at hj
      exact .inl ⟨rfl, (Option.some.inj hj).symm⟩
    · rw [List.getElem?_set_ne hij] at hj
      exact .inr hj
  have hall : ∀ {P : Partition → Prop}, (∀ g ∈ s.followers, P g) → P f' →
      ∀ g ∈ s.followers.set i f', P g := by
    intro P hP hf' g hg
    rcases List.mem_or_eq_of_mem_set hg with hg | rfl
    · exact hP g hg
    · exact hf'
  refine ⟨h.leaderLog, hall h.followerLog hlog, hall h.prefixes hfirst, ?_, fun r hr => ?_,
    h.answered, fun e he => ?_, ⟨h.committed.own, ?_⟩, fun j g hj => ?_⟩
  · show (_ :: (s.followers.set i f').map (·.localBrokerID)).Nodup
    rw [hids]
    exact h.ids
  · obtain ⟨g, hg, hgid, hle⟩ := h.sent r hr
    by_cases hij : i = r.follower
    · subst hij
      obtain rfl := Option.some.inj (hi.symm.trans hg)
      exact ⟨f', List.getElem?_set_self hlt, hid.trans hgid, hle.trans hleo⟩
    · exact ⟨g, by rw [List.getElem?_set_ne hij]; exact hg, hgid, hle⟩
  · refine hall (h.modest e he) fun hf' => ?_
    exact (h.modest e he f hmem (hid.symm.trans hf')).trans hleo
  · refine hall h.committed.isr fun hin => ?_
    exact (h.committed.isr f hmem (hid ▸ hin)).trans hleo
  · rcases hat hj with ⟨rfl, rfl⟩ | hj
    · exact hhw
    · exact h.watermarks j g hj

theorem Inv.receive {r : FetchAnswered} (hr : r ∈ s.responses) {io : Faults}
    (hio : io.Harmless) : Inv crc hw (s.receive crc r io) := by
  unfold ReplicaSet.receive
  cases hi : s.followers[r.follower]? with
  | none => exact h
  | some f =>
    simp only
    have hmem := List.mem_of_getElem? hi
    obtain ⟨hle, cs, hcs, hstored, hrecords⟩ := h.answered r hr
    have hmax : ∀ n, max f.highWatermark (min r.highWatermark n) ≤
        max s.leader.highWatermark (hw r.follower) := fun n =>
      max_le (h.watermarks _ f hi) (((min_le_left _ _).trans hle).trans (le_max_left _ _))
    -- the log of the follower after the response
    obtain ⟨x, l, hl, -, hcase⟩ := (h.followerLog f hmem).appendReplicaRaw_adds hio r.records
      r.leaderEpoch
    have hlog := (h.followerLog f hmem).of_appendReplicaRaw hio hl
    obtain ⟨acc, hacc, hadds⟩ : ∃ acc, acc <+: cs ∧ Log.Adds f.log l acc := by
      rcases hcase with ⟨-, hadds⟩ | ⟨-, rfl, -⟩ | ⟨acc, haccepts, hadds, -⟩
      · exact ⟨[], List.nil_prefix, hadds⟩
      · exact ⟨[], List.nil_prefix, Log.Adds.refl _⟩
      · refine ⟨acc, ?_, hadds⟩
        rw [← haccepts.stored.2, hrecords, rawBatches_flatten hstored]
        exact List.takeWhile_prefix _
    have hfirst := (h.prefixes f hmem).follow (h.followerLog f hmem) h.leaderLog hcs hacc hadds
    rcases f.appendFromLeader_cases crc io r.records r.leaderEpoch r.highWatermark with
      ⟨e, hap⟩ | ⟨-, hap | ⟨x', l', hl', ⟨e, e', -, hap⟩ | ⟨n, -, hap⟩⟩⟩
    · rw [hap]
      exact h.follow hi rfl (h.followerLog f hmem) (h.prefixes f hmem) (Nat.le_refl _)
        (h.watermarks _ f hi)
    · obtain ⟨notified, hfollow, -⟩ := f.followHW_cases f.leo r.highWatermark
      rw [hap, hfollow]
      exact h.follow hi rfl (h.followerLog f hmem) (h.prefixes f hmem) (Nat.le_refl _) (hmax _)
    · obtain ⟨-, rfl⟩ := Prod.mk.inj (hl.symm.trans hl')
      rw [hap]
      exact h.follow hi rfl hlog hfirst hadds.tiles.le (h.watermarks _ f hi)
    · obtain ⟨-, rfl⟩ := Prod.mk.inj (hl.symm.trans hl')
      obtain ⟨notified, hfollow, -⟩ :=
        Partition.followHW_cases { f with log := l } f.leo r.highWatermark
      rw [hap, hfollow]
      exact h.follow hi rfl hlog hfirst hadds.tiles.le (hmax _)

theorem Inv.step {e : ReplicationEvent} (he : Undisturbed e) :
    Inv crc hw (s.step crc e).2 := by
  cases e with
  | produce data acks io => exact h.produce data acks he
  | send i =>
    cases hi : s.followers[i]? with
    | none => simpa only [ReplicaSet.step, hi] using h
    | some f => simpa only [ReplicaSet.step, hi] using h.send hi
  | serve k maxBytes allow =>
    cases hk : s.requests[k]? with
    | none => simpa only [ReplicaSet.step, hk] using h
    | some r =>
      simpa only [ReplicaSet.step, hk] using h.serve (List.mem_of_getElem? hk) maxBytes allow
  | receive k io =>
    cases hk : s.responses[k]? with
    | none => simpa only [ReplicaSet.step, hk] using h
    | some r => simpa only [ReplicaSet.step, hk] using h.receive (List.mem_of_getElem? hk) he

end Inv

/-! ## The result -/

/-- The start of a leader epoch: the logs are in order, as whatever was opened and used
without a failing write is; the followers' logs are prefixes of the leader's, the leader
believes none of them to be further than it is, and the high watermark is in the log of
every member of the in-sync set. -/
structure Begins (crc : Checksum) (s : ReplicaSet) : Prop where
  leaderLog : s.leader.log.Apart crc
  followerLog : ∀ f ∈ s.followers, f.log.Apart crc
  prefixes : ∀ f ∈ s.followers, f.log.PrefixOf s.leader.log
  ids : (s.leader.localBrokerID :: s.followers.map (·.localBrokerID)).Nodup
  modest : Modest s.leader s.followers
  committed : Committed s.leader s.followers
  idle : s.requests = [] ∧ s.responses = []

/-- The high watermark of a follower, 0 if there is none. -/
def watermark (s : ReplicaSet) (i : Nat) : Nat :=
  (s.followers[i]?.map (·.highWatermark)).getD 0

theorem Begins.inv {crc : Checksum} {s : ReplicaSet} (h : s.Begins crc) :
    s.Inv crc s.watermark where
  leaderLog := h.leaderLog
  followerLog := h.followerLog
  prefixes := h.prefixes
  ids := h.ids
  sent r hr := by
    rw [h.idle.1] at hr
    exact absurd hr List.not_mem_nil
  answered r hr := by
    rw [h.idle.2] at hr
    exact absurd hr List.not_mem_nil
  modest := h.modest
  committed := h.committed
  watermarks i f hi := by
    unfold watermark
    rw [hi]
    exact le_max_right _ _

/-- What replication keeps; `hw` are the watermarks the followers started with. -/
structure Safe (hw : Nat → Nat) (s : ReplicaSet) : Prop where
  prefixes : ∀ f ∈ s.followers, f.log.PrefixOf s.leader.log
  modest : Modest s.leader s.followers
  committed : Committed s.leader s.followers
  watermarks : ∀ i f, s.followers[i]? = some f →
    f.highWatermark ≤ max s.leader.highWatermark (hw i)

/-- Within a leader epoch, whatever becomes of the messages, replication is safe in
every state. -/
theorem replication_safe {crc : Checksum} {s : ReplicaSet} (h : s.Begins crc)
    (run : List ReplicationEvent) (hrun : ∀ e ∈ run, Undisturbed e) :
    Runs.Always (step crc) (Safe s.watermark) s run := by
  have hinv := Runs.always_guarded (step crc) (P := Inv crc s.watermark) (Q := fun _ _ => True)
    (fun _ _ hs he => ⟨hs.step he, trivial⟩) h.inv run
    (Runs.guarded_of_forall (step crc) hrun s)
  exact hinv.1.mono (step crc) fun _ hs =>
    ⟨hs.prefixes, hs.modest, hs.committed, hs.watermarks⟩

/-! ## A new leader that knows less -/

/-- A record of the leader of epoch 1. -/
def oldRecord : ByteString := stamp 1 0 (Log.sampleRequest 1)

/-- A replica fetches the record of broker 1 and the watermark that comes with it, and
takes its role in epoch 2. -/
def replicaRun (leaderHW : Nat) (role : Operation) : List (ReplicaEvent × Faults) :=
  [(.operation (.makeFollower 1 1), .none),
    (.operation (.appendFromLeader oldRecord 1 leaderHW), .none), (.operation role, .none)]

def replica (id : Int32) (leaderHW : Nat) (role : Operation) : Partition :=
  Runs.final (Partition.live crc32c) (newPartition id (Log.fresh Log.tightConfig))
    (replicaRun leaderHW role)

/-- Broker 3 takes over with the watermark it has; broker 2 had been told that the record
is committed. -/
def takenOver : ReplicaSet :=
  ⟨replica 3 0 (.makeLeader 2 [3, 2] 0), [replica 2 1 (.makeFollower 2 3)], [], []⟩

theorem takenOver_begins : takenOver.Begins crc32c where
  leaderLog := apart_run (Log.newLog_nil crc32c Log.tightConfig .none) 3 _
    ⟨⟨Faults.none_harmless, trivial⟩, ⟨Faults.none_harmless, trivial⟩,
      ⟨Faults.none_harmless, trivial⟩, trivial⟩
  followerLog f hf := by
    rw [List.mem_singleton.mp hf]
    exact apart_run (Log.newLog_nil crc32c Log.tightConfig .none) 2 _
      ⟨⟨Faults.none_harmless, trivial⟩, ⟨Faults.none_harmless, trivial⟩,
        ⟨Faults.none_harmless, trivial⟩, trivial⟩
  prefixes f hf := by
    rw [List.mem_singleton.mp hf]
    exact ⟨⟨[], by decide +kernel, fun c hc => absurd hc List.not_mem_nil⟩, by decide +kernel⟩
  ids := by decide +kernel
  modest := by
    unfold Modest
    decide +kernel
  committed := ⟨by decide +kernel, by decide +kernel⟩
  idle := ⟨rfl, rfl⟩

/-- The new leader appends, and is still behind its follower's watermark. -/
theorem follower_watermark_ahead :
    takenOver.Begins crc32c ∧
    let s := Runs.final (step crc32c) takenOver [.produce (Log.sampleRequest 1) .leader .none]
    ∃ f ∈ s.followers, s.leader.isLeader = true ∧ s.leader.highWatermark < f.highWatermark :=
  ⟨takenOver_begins, by decide +kernel⟩

/-- The first response is received twice, and the first request arrives once more after
the second one. -/
def repeatedRun : List ReplicationEvent :=
  [.produce (Log.sampleRequest 1) .all .none, .send 0, .serve 0 1000 true, .receive 0 .none,
    .receive 0 .none, .send 0, .serve 1 1000 true, .serve 0 1000 true, .receive 1 .none]

theorem replication_safe_repeatedRun :
    Runs.Always (step crc32c) (Safe takenOver.watermark) takenOver repeatedRun ∧
    let s := Runs.final (step crc32c) takenOver repeatedRun
    s.leader.highWatermark = 2 ∧ s.leader.isr = [⟨3, 0⟩, ⟨2, 1⟩] ∧
      s.followers.map (·.leo) = [2] := by
  refine ⟨replication_safe takenOver_begins repeatedRun ?_, by decide +kernel⟩
  simp [repeatedRun, Undisturbed, Faults.none_harmless]

end ReplicaSet

end MessageBroker.Broker
