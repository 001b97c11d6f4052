import MessageBroker.Storage.Acceptance
import MessageBroker.Storage.History
import MessageBroker.Storage.Reachable

/-!
# Raw appends to a reachable log

The segments of a reachable log are in order, if not without gaps, and a raw
append continues its last segment. A replica append stores the batches before the
first one of a later epoch, or nothing; a leader's append stores the request with
two fields of every batch overwritten, and what it stored is what a follower at
the same offset accepts and stores as it is.
-/
namespace MessageBroker.Storage

open Lib.Bytes Lib.Tiling Lib

namespace Log

/-- The bytes of the segment files, in order. -/
def bytes (l : Log) : ByteString := l.segments.flatMap (·.file)

theorem Apart.bytes_eq {crc : Checksum} {l : Log} (h : l.Apart crc) :
    l.bytes = l.batches.flatten := by
  have hfile : ∀ p ∈ l.pairs, p.segment.file = p.segment.batches.flatten :=
    fun p hp => (h.pair p hp).rep.file_eq
  unfold bytes segments batches
  generalize l.pairs = ps at hfile ⊢
  induction ps with
  | nil => rfl
  | cons p ps ih =>
    rw [List.map_cons, List.flatMap_cons, List.flatMap_cons, List.flatten_append,
      hfile p List.mem_cons_self, ih fun q hq => hfile q (List.mem_cons_of_mem _ hq)]

/-- A roll would start on an empty file. -/
theorem Apart.fileAt_next {crc : Checksum} {l : Log} (h : l.Apart crc) :
    l.fileAt l.nextOffset = [] := by
  have hfile := fileAt_behind h.front.fileAt_next h.front.strays h.vacant
  rwa [front_behind] at hfile

/-! ## What an append adds -/

/-- The log `l'` is `l` with the batches `ds` at its end offset. -/
structure Adds (l l' : Log) (ds : List ByteString) : Prop where
  batches : l'.batches = l.batches ++ ds
  tiles : BatchTiles l.nextOffset l'.nextOffset ds

theorem Adds.refl (l : Log) : Adds l l [] := ⟨by simp, rfl⟩

theorem Adds.nil {l l' : Log} (h : Adds l l' []) :
    l'.batches = l.batches ∧ l'.nextOffset = l.nextOffset :=
  ⟨by rw [h.batches, List.append_nil], Eq.symm h.tiles⟩

theorem Adds.next {l l' : Log} {ds : List ByteString} (h : Adds l l' ds) :
    l'.nextOffset = l.nextOffset + offsetsOf ds := (offsetsOf_of_tiles h.tiles).symm

theorem Adds.bytes {crc : Checksum} {l l' : Log} {ds : List ByteString} (h : Adds l l' ds)
    (hl : l.Apart crc) (hl' : l'.Apart crc) : l'.bytes = l.bytes ++ ds.flatten := by
  rw [hl.bytes_eq, hl'.bytes_eq, h.batches, List.flatten_append]

/-- What extends the last segments extends the log. -/
theorem Extends.adds {crc : Checksum} {l l₁ l' : Log} {ds : List ByteString}
    (h : Extends crc l₁ l' ds) (hok : l₁.Ok crc) (hpairs : l₁.pairs = [l.activePair])
    (hnext : l₁.nextOffset = l.nextOffset) : Adds l (l'.behind l.sealedPairs) ds where
  batches := by
    have hbehind : (l'.behind l.sealedPairs).batches =
        l.sealedPairs.flatMap (fun p => p.segment.batches) ++ l'.batches := by
      simp [Log.batches, pairs, behind]
    have hfront : l₁.batches = l.activePair.segment.batches := by
      rw [Log.batches, hpairs, List.flatMap_singleton]
    rw [hbehind, h.batches, hfront, batches_eq_append, List.append_assoc]
  tiles := hnext ▸ h.tiles hok

/-- With room in a new index, an append that failed added nothing. -/
theorem Adds.of_error {l l' : Log} {ds : List ByteString} (h : Adds l l' ds)
    (hnext : l'.nextOffset = l.nextOffset) : Adds l l' [] := by
  have hnil : ds = [] := by
    by_contra hne
    have := h.tiles.lt_of_ne_nil hne
    omega
  exact hnil ▸ h

section Appends

variable {crc : Checksum} {l : Log} (h : l.Apart crc)
  (hroom : (indexEntrySize : Int) ≤ l.config.maxIndexBytes.toInt) {io : Faults}
  (hio : io.Harmless)

include h hroom hio

omit hroom in
/-- Whatever a replica append returns, it adds nothing or the accepted batches. -/
theorem Apart.appendReplicaRaw_adds (data : ByteString) (fetchEpoch : Int32) :
    ∃ r l', l.appendReplicaRaw crc data fetchEpoch io = (r, l') ∧ l.Grown r l' ∧
      ((∃ e, r = .error e) ∧ Adds l l' [] ∨
        r = .ok 0 ∧ l' = l ∧ acceptedBatches fetchEpoch (rawBatches data) = [] ∨
        ∃ acc, Accepts crc l data fetchEpoch acc ∧ Adds l l' acc ∧
          ∀ n, r = .ok n → n = offsetsOf acc) := by
  obtain ⟨r, l', he, hg⟩ :=
    Clear.appendReplicaRaw crc (.inl h.fileAt_next) data fetchEpoch io
  refine ⟨r, l', he, hg, ?_⟩
  obtain ⟨r₁, l₁, he₁, hcase⟩ := h.front.appendReplicaRaw hio data fetchEpoch
  have hbehind := appendReplicaRaw_behind h.front h.vacant data fetchEpoch io
  rw [front_behind, he₁, he] at hbehind
  obtain ⟨rfl, rfl⟩ := Prod.mk.inj hbehind
  rcases hcase with ⟨rfl, hr⟩ | ⟨l₂, r₂, acc, hrep, hcase⟩
  · rw [front_behind]
    cases r with
    | error e => exact .inl ⟨⟨e, rfl⟩, .refl l⟩
    | ok n =>
      obtain ⟨rfl, hnil⟩ := hr n rfl
      exact .inr (.inl ⟨rfl, rfl, hnil⟩)
  · obtain ⟨r', cache, file, dirty, ha⟩ :=
      assignLeaderEpochs_frame l.front (epochStarts none acc) io
    obtain ⟨-, rfl⟩ := Prod.mk.inj (hrep.assigned.symm.trans ha)
    have hadds : ∀ {ds : List ByteString}, Extends crc _ l₁ ds →
        Adds l (l₁.behind l.sealedPairs) ds := fun hx => hx.adds hrep.ok rfl rfl
    rcases hcase with ⟨herr, hx⟩ | ⟨-, hx, hr, -⟩
    · exact .inl ⟨herr, hadds hx⟩
    · refine .inr (.inr ⟨acc, ?_, hadds hx, hr⟩)
      exact ⟨hrep.scanned, hrep.incoming, hrep.tiles, hrep.ordered⟩

theorem Apart.appendReplicaRaw (data : ByteString) (fetchEpoch : Int32) :
    ∃ r l', l.appendReplicaRaw crc data fetchEpoch io = (r, l') ∧
      ((∃ e, r = .error e) ∧ Adds l l' [] ∨
        r = .ok 0 ∧ l' = l ∧ acceptedBatches fetchEpoch (rawBatches data) = [] ∨
        ∃ acc, Accepts crc l data fetchEpoch acc ∧ Adds l l' acc ∧
          r = .ok (offsetsOf acc)) := by
  obtain ⟨r, l', he, hg, hcase⟩ := h.appendReplicaRaw_adds hio data fetchEpoch
  refine ⟨r, l', he, ?_⟩
  rcases hcase with herr | hok | ⟨acc, hacc, hadds, hr⟩
  · exact .inl herr
  · exact .inr (.inl hok)
  · cases r with
    | error e => exact .inl ⟨⟨e, rfl⟩, hadds.of_error (hg.error_next hroom ⟨e, rfl⟩)⟩
    | ok n => exact .inr (.inr ⟨acc, hacc, hadds, by rw [hr n rfl]⟩)

omit hroom in
/-- Whatever a leader's append returns, it adds nothing or the stamped request. -/
theorem Apart.appendRaw_adds (data : ByteString) (leaderEpoch : Int32) :
    ∃ r l', l.appendRaw crc data leaderEpoch io = (r, l') ∧ l.Grown r l' ∧
      ((∃ e, r = .error e) ∧ Adds l l' [] ∨
        Adds l l' (stampAll leaderEpoch l.nextOffset (rawBatches data))) := by
  obtain ⟨r, l', he, hg⟩ := Clear.appendRaw crc (.inl h.fileAt_next) data leaderEpoch io
  refine ⟨r, l', he, hg, ?_⟩
  obtain ⟨r₁, l₁, he₁, hcase⟩ := h.front.appendRaw hio data leaderEpoch
  have hbehind := appendRaw_behind h.front h.vacant data leaderEpoch io
  rw [front_behind, he₁, he] at hbehind
  obtain ⟨rfl, rfl⟩ := Prod.mk.inj hbehind
  rcases hcase with ⟨herr, hx⟩ | ⟨ds, rfl, -, hvalid, hx, -, -⟩
  · exact .inl ⟨herr, hx.adds h.front rfl rfl⟩
  · have hadds := hx.adds h.front (l := l) rfl rfl
    rw [rawBatches_flatten fun c hc => (hvalid c hc).toStored]
    exact .inr hadds

theorem Apart.appendRaw (data : ByteString) (leaderEpoch : Int32) :
    ∃ r l', l.appendRaw crc data leaderEpoch io = (r, l') ∧
      ((∃ e, r = .error e) ∧ Adds l l' [] ∨
        (∃ x, r = .ok x) ∧ Adds l l' (stampAll leaderEpoch l.nextOffset (rawBatches data))) := by
  obtain ⟨r, l', he, hg, hcase⟩ := h.appendRaw_adds hio data leaderEpoch
  refine ⟨r, l', he, ?_⟩
  rcases hcase with herr | hadds
  · exact .inl herr
  · cases r with
    | error e => exact .inl ⟨⟨e, rfl⟩, hadds.of_error (hg.error_next hroom ⟨e, rfl⟩)⟩
    | ok x => exact .inr ⟨⟨x, rfl⟩, hadds⟩

omit hroom in
theorem Apart.of_appendReplicaRaw {data : ByteString} {fetchEpoch : Int32}
    {r : Except LogError Nat} {l' : Log}
    (he : l.appendReplicaRaw crc data fetchEpoch io = (r, l')) : l'.Apart crc := by
  have hx : l.Encodes (.appendReplicaRaw data fetchEpoch, io) := ⟨hio, trivial⟩
  have hapart := h.exec hx
  unfold Log.exec at hapart
  simp only [he] at hapart
  cases r <;> exact hapart

omit hroom in
theorem Apart.of_appendRaw {data : ByteString} {leaderEpoch : Int32}
    {r : Except LogError (Nat × Nat)} {l' : Log}
    (he : l.appendRaw crc data leaderEpoch io = (r, l')) : l'.Apart crc := by
  have hx : l.Encodes (.appendRaw data leaderEpoch, io) := ⟨hio, trivial⟩
  have hapart := h.exec hx
  unfold Log.exec at hapart
  simp only [he] at hapart
  cases r <;> exact hapart

end Appends

/-! ## The replica append -/

/-- A replica append that returned `n`: the response was a sequence of batches,
and those before the first of a later epoch are at the end of the log. -/
structure TookPrefix (l : Log) (data : ByteString) (fetchEpoch : Int32) (n : Nat) (l' : Log) :
    Prop where
  parsed : (rawBatches data).flatten = data
  batches : l'.batches = l.batches ++ acceptedBatches fetchEpoch (rawBatches data)
  bytes : l'.bytes = l.bytes ++ (acceptedBatches fetchEpoch (rawBatches data)).flatten
  tiles : BatchTiles l.nextOffset l'.nextOffset (acceptedBatches fetchEpoch (rawBatches data))
  ordered : (acceptedBatches fetchEpoch (rawBatches data)).Pairwise
    fun x y => partitionLeaderEpoch x ≤ partitionLeaderEpoch y
  count : l'.nextOffset = l.nextOffset + n
  nothing : acceptedBatches fetchEpoch (rawBatches data) = [] → n = 0 ∧ l' = l

theorem scanned_of_appendReplicaRaw {crc : Checksum} {l l' : Log} {data : ByteString}
    {fetchEpoch : Int32} {io : Faults} {n : Nat}
    (h : l.appendReplicaRaw crc data fetchEpoch io = (.ok n, l')) :
    (rawBatches data).flatten = data := by
  unfold Log.appendReplicaRaw at h
  cases hscan : scanRawBatches crc data with
  | error e =>
    rw [hscan] at h
    cases h
  | ok bounds => exact (scans_of_scanRawBatches hscan).1

/-- `AppendReplicaRaw` on any reachable log: the accepted prefix is stored as it
came, or there was an error and the log has the batches it had. -/
theorem replica_append_takes_prefix {crc : Checksum} {l : Log} (h : l.Reachable crc)
    (hroom : (indexEntrySize : Int) ≤ l.config.maxIndexBytes.toInt) {io : Faults}
    (hio : io.Harmless) (data : ByteString) (fetchEpoch : Int32) :
    ∃ r l', l.appendReplicaRaw crc data fetchEpoch io = (r, l') ∧
      (∀ n, r = .ok n → TookPrefix l data fetchEpoch n l') ∧
      (∀ e, r = .error e →
        l'.batches = l.batches ∧ l'.bytes = l.bytes ∧ l'.nextOffset = l.nextOffset) := by
  obtain ⟨r, l', he, hcase⟩ := h.apart.appendReplicaRaw hroom hio data fetchEpoch
  have hapart' := h.apart.of_appendReplicaRaw hio he
  refine ⟨r, l', he, fun n hr => ?_, fun e hr => ?_⟩
  · subst hr
    have hparsed := scanned_of_appendReplicaRaw he
    rcases hcase with ⟨⟨e, hr⟩, -⟩ | ⟨hr, rfl, hnil⟩ | ⟨acc, hacc, hadds, hr⟩
    · cases hr
    · cases hr
      refine ⟨hparsed, ?_, ?_, ?_, ?_, rfl, fun _ => ⟨rfl, rfl⟩⟩
      · rw [hnil, List.append_nil]
      · rw [hnil, List.flatten_nil, List.append_nil]
      · rw [hnil]
        exact rfl
      · rw [hnil]
        exact .nil
    · cases hr
      obtain ⟨-, rfl⟩ := hacc.stored
      exact ⟨hparsed, hadds.batches, hadds.bytes h.apart hapart', hadds.tiles, hacc.ordered,
        hadds.next, fun hnil => absurd hnil hacc.ne_nil⟩
  · subst hr
    rcases hcase with ⟨-, hadds⟩ | ⟨hr, -⟩ | ⟨acc, -, -, hr⟩
    · obtain ⟨hb, hn⟩ := hadds.nil
      refine ⟨hb, ?_, hn⟩
      rw [hadds.bytes h.apart hapart', List.flatten_nil, List.append_nil]
    · cases hr
    · cases hr

theorem fresh_reachable (crc : Checksum) (config : LogConfig) : (fresh config).Reachable crc :=
  ⟨config, .none, fresh config, [], newLog_nil crc config .none, trivial, rfl⟩

/-- Two batches of one record, of epochs 1 and 3. -/
def sampleResponse : ByteString :=
  stamp 1 0 (sampleRequest 1) ++ stamp 3 1 (sampleRequest 1)

theorem replica_append_takes_prefix_sampleResponse :
    ∃ l', (fresh tightConfig).appendReplicaRaw crc32c sampleResponse 2 .none = (.ok 1, l') ∧
      TookPrefix (fresh tightConfig) sampleResponse 2 1 l' := by
  obtain ⟨r, l', he, hok, -⟩ := replica_append_takes_prefix (fresh_reachable crc32c tightConfig)
    (by decide) Faults.none_harmless sampleResponse 2
  have hr : r = .ok 1 := by
    rw [← show ((fresh tightConfig).appendReplicaRaw crc32c sampleResponse 2 .none).1 = r from
      congrArg Prod.fst he]
    decide +kernel
  subst hr
  exact ⟨l', he, hok 1 rfl⟩

/-! ## A follower of the leader's epoch -/

theorem epochStarts_same {e : Int32} {cs : List ByteString}
    (h : ∀ c ∈ cs, partitionLeaderEpoch c = e) : epochStarts (some e) cs = [] := by
  induction cs with
  | nil => rfl
  | cons c cs ih =>
    rw [epochStarts, if_neg (not_not.mpr (congrArg some (h c List.mem_cons_self)))]
    exact ih fun x hx => h x (List.mem_cons_of_mem _ hx)

theorem epochStarts_one {e : Int32} {cs : List ByteString} {a b : Nat} (hne : cs ≠ [])
    (ht : BatchTiles a b cs) (h : ∀ c ∈ cs, partitionLeaderEpoch c = e) :
    epochStarts none cs = [⟨e, a⟩] := by
  obtain ⟨c, cs, rfl⟩ := List.exists_cons_of_ne_nil hne
  have hc := h c List.mem_cons_self
  rw [epochStarts, if_pos (by simp), hc,
    epochStarts_same fun x hx => h x (List.mem_cons_of_mem _ hx), ht.1]

theorem assignLeaderEpoch_ok {l : Log} (h : l.epochCache.Wf) {epoch : Int32} (h0 : 0 ≤ epoch)
    {startOffset : Nat} (hlt : startOffset < 2 ^ 63) :
    ∃ l₁, l.assignLeaderEpochs [⟨epoch, startOffset⟩] .none = (.ok (), l₁) := by
  obtain ⟨⟨changed, cache⟩, ha⟩ := EpochCache.assign_ok l.epochCache h0 startOffset
  have hcheck : checkpointCheck 0 none cache = .ok () :=
    EpochCache.checkpointCheck_writable.mpr (h.assign_writable hlt ha)
  unfold assignLeaderEpochs assignLoop assignLoop persistEpochCheckpoint writeCheckpoint
  simp only [ha, hcheck]
  split
  · exact ⟨_, rfl⟩
  · exact ⟨_, rfl⟩

theorem Reachable.follows {crc : Checksum} {m : Log} (hm : m.Reachable crc)
    (hroom : (indexEntrySize : Int) ≤ m.config.maxIndexBytes.toInt) {ss : List ByteString}
    (hss : ∀ s ∈ ss, Scans crc s) (hne : ss ≠ []) {last : Nat}
    (ht : BatchTiles m.nextOffset last ss) {e fetchEpoch : Int32} (h0 : 0 ≤ e)
    (hepoch : ∀ s ∈ ss, partitionLeaderEpoch s = e) (hle : e ≤ fetchEpoch) :
    ∃ m', m.appendReplicaRaw crc ss.flatten fetchEpoch .none = (.ok (offsetsOf ss), m') ∧
      Adds m m' ss ∧ m'.Apart crc := by
  have hstored : ∀ s ∈ ss, Stored crc s := fun s hs => (hss s hs).toStored
  have hall : acceptedBatches fetchEpoch ss = ss := by
    refine List.takeWhile_eq_self_iff.mpr fun s hs => ?_
    rw [hepoch s hs]
    exact decide_eq_true hle
  have hord : ss.Pairwise fun x y => partitionLeaderEpoch x ≤ partitionLeaderEpoch y :=
    List.pairwise_of_forall_mem_list fun x hx y hy => by
      rw [hepoch x hx, hepoch y hy]
  -- the offsets are those of signed 64-bit numbers
  have hbase : m.nextOffset < 2 ^ 63 := by
    obtain ⟨c, cs, rfl⟩ := List.exists_cons_of_ne_nil hne
    rw [← ht.1]
    exact (hss c List.mem_cons_self).base_lt
  have hend : m.nextOffset + offsetsOf ss < 2 ^ 64 := by
    rw [offsetsOf_of_tiles ht, ht.end_eq_getLast hne, endOffset]
    have hlast := hss _ (List.getLast_mem hne)
    have h1 := hlast.base_lt
    have h2 := hlast.delta_lt
    omega
  obtain ⟨m₁, hassign⟩ := assignLeaderEpoch_ok hm.wf h0 hbase
  have hrun := appendReplicaRaw_of_scans (l := m) hss (hall.symm ▸ hne) (hall.symm ▸ ht)
    (hall.symm ▸ hord) .none
  rw [hall, epochStarts_one hne ht hepoch, hassign] at hrun
  obtain ⟨r', cache, file, dirty, hframe⟩ := assignLeaderEpochs_frame m [⟨e, m.nextOffset⟩] .none
  obtain ⟨-, rfl⟩ := Prod.mk.inj (hassign.symm.trans hframe)
  simp only at hrun
  obtain ⟨m', hm'⟩ := store_takes (l := { m with
    epochCache := cache
    checkpoint := file
    epochCheckpointDirty := dirty }) hm.apart.fileAt_next hm.apart.strays hroom hstored hne 0 false
    (fun _ => ⟨last, ht⟩) hend
  rw [hm'] at hrun
  refine ⟨m', hrun, ?_⟩
  obtain ⟨r, m'', he, hcase⟩ :=
    hm.apart.appendReplicaRaw hroom Faults.none_harmless ss.flatten fetchEpoch
  obtain ⟨rfl, rfl⟩ := Prod.mk.inj (he.symm.trans hrun)
  refine ⟨?_, hm.apart.of_appendReplicaRaw Faults.none_harmless he⟩
  have hraw : acceptedBatches fetchEpoch (rawBatches ss.flatten) = ss := by
    rw [rawBatches_flatten hstored, hall]
  rcases hcase with ⟨⟨e, hr⟩, -⟩ | ⟨-, -, hnil⟩ | ⟨acc, hacc, hadds, -⟩
  · cases hr
  · exact absurd (hraw.symm.trans hnil) hne
  · rwa [← hraw, hacc.stored.2]

/-! ## The leader's append -/

/-- A leader's append that stored the batches `ss` for the request: they differ
from it in the offset and epoch fields only, and any follower at the same offset
takes them as they are. -/
structure LeadsAppend (crc : Checksum) (l : Log) (data : ByteString) (e : Int32) (l' : Log)
    (ss : List ByteString) : Prop where
  parsed : (rawBatches data).flatten = data
  batches : l'.batches = l.batches ++ ss
  bytes : l'.bytes = l.bytes ++ ss.flatten
  restamped : List.Forall₂ Restamped (rawBatches data) ss
  tiles : BatchTiles l.nextOffset l'.nextOffset ss
  epoch : ∀ s ∈ ss, partitionLeaderEpoch s = e
  valid : ∀ s ∈ ss, validateRawBatch crc s = .ok (s.length, lastOffsetDelta s)
  followed : ∀ (m : Log) (fetchEpoch : Int32), m.Reachable crc →
    (indexEntrySize : Int) ≤ m.config.maxIndexBytes.toInt → m.nextOffset = l.nextOffset →
    e ≤ fetchEpoch →
    ∃ m', m.appendReplicaRaw crc ss.flatten fetchEpoch .none = (.ok (offsetsOf ss), m') ∧
      m'.batches = m.batches ++ ss ∧ m'.bytes = m.bytes ++ ss.flatten

theorem scanned_of_appendRaw {crc : Checksum} {l l' : Log} {data : ByteString}
    {leaderEpoch : Int32} {io : Faults} {x : Nat × Nat}
    (h : l.appendRaw crc data leaderEpoch io = (.ok x, l')) :
    (rawBatches data).flatten = data ∧ rawBatches data ≠ [] ∧
      ∀ c ∈ rawBatches data, Scans crc c := by
  unfold Log.appendRaw at h
  cases hscan : scanRawBatches crc data with
  | error e =>
    rw [hscan] at h
    cases h
  | ok bounds =>
    obtain ⟨hparsed, hscans, rfl⟩ := scans_of_scanRawBatches hscan
    refine ⟨hparsed, fun hnil => ?_, hscans⟩
    rw [hscan, hnil] at h
    cases h

/-- `AppendRaw` on any reachable log. A follower need not be free of later epochs
for this: it would drop them. -/
theorem leader_append_followed {crc : Checksum} {l : Log} (h : l.Reachable crc)
    (hroom : (indexEntrySize : Int) ≤ l.config.maxIndexBytes.toInt) {io : Faults}
    (hio : io.Harmless) (data : ByteString) {e : Int32} (h0 : 0 ≤ e) :
    ∃ r l', l.appendRaw crc data e io = (r, l') ∧
      (∀ x, r = .ok x → l'.nextOffset ≤ 2 ^ 63 → ∃ ss, LeadsAppend crc l data e l' ss) ∧
      (∀ err, r = .error err →
        l'.batches = l.batches ∧ l'.bytes = l.bytes ∧ l'.nextOffset = l.nextOffset) := by
  obtain ⟨r, l', he, hcase⟩ := h.apart.appendRaw hroom hio data e
  have hapart' := h.apart.of_appendRaw hio he
  refine ⟨r, l', he, fun x hr hend => ?_, fun err hr => ?_⟩
  · subst hr
    obtain ⟨hparsed, hne, hscans⟩ := scanned_of_appendRaw he
    have hstored : ∀ c ∈ rawBatches data, Stored crc c := fun c hc => (hscans c hc).toStored
    rcases hcase with ⟨⟨err, hr⟩, -⟩ | ⟨-, hadds⟩
    · cases hr
    have hle : l.nextOffset + offsetsOf (rawBatches data) ≤ 2 ^ 63 := by
      rw [← offsetsOf_stampAll e l.nextOffset hstored, ← hadds.next]
      exact hend
    have hss := scans_stampAll e hscans hle
    have hepoch : ∀ s ∈ stampAll e l.nextOffset (rawBatches data), partitionLeaderEpoch s = e :=
      fun s hs => epoch_of_mem_stampAll hstored hs
    refine ⟨_, hparsed, hadds.batches, hadds.bytes h.apart hapart', forall₂_stampAll hstored,
      hadds.tiles, hepoch, fun s hs => ?_, fun m fetchEpoch hm hroom hnext hfetch => ?_⟩
    · have hv := (hss s hs).validateRawBatch []
      rwa [List.append_nil] at hv
    · have ht : BatchTiles m.nextOffset l'.nextOffset
          (stampAll e l.nextOffset (rawBatches data)) := by
        rw [hnext]
        exact hadds.tiles
      obtain ⟨m', hrun, hm', happ'⟩ :=
        hm.follows hroom hss (stampAll_ne_nil hne) ht h0 hepoch hfetch
      exact ⟨m', hrun, hm'.batches, hm'.bytes hm.apart happ'⟩
  · subst hr
    rcases hcase with ⟨-, hadds⟩ | ⟨⟨x, hr⟩, -⟩
    · obtain ⟨hb, hn⟩ := hadds.nil
      refine ⟨hb, ?_, hn⟩
      rw [hadds.bytes h.apart hapart', List.flatten_nil, List.append_nil]
    · cases hr

theorem leader_append_followed_sampleRequest :
    ∃ l' ss, (fresh tightConfig).appendRaw crc32c (sampleRequest 2) 4 .none = (.ok (0, 1), l') ∧
      LeadsAppend crc32c (fresh tightConfig) (sampleRequest 2) 4 l' ss := by
  obtain ⟨r, l', he, hok, -⟩ := leader_append_followed (fresh_reachable crc32c tightConfig)
    (by decide) Faults.none_harmless (sampleRequest 2) (e := 4) (by decide)
  have hr : r = .ok (0, 1) := by
    rw [← show ((fresh tightConfig).appendRaw crc32c (sampleRequest 2) 4 .none).1 = r from
      congrArg Prod.fst he]
    decide +kernel
  have hend : l'.nextOffset ≤ 2 ^ 63 := by
    rw [← show ((fresh tightConfig).appendRaw crc32c (sampleRequest 2) 4 .none).2 = l' from
      congrArg Prod.snd he]
    decide +kernel
  subst hr
  obtain ⟨ss, hss⟩ := hok (0, 1) rfl hend
  exact ⟨l', ss, he, hss⟩

end Log

end MessageBroker.Storage
