import MessageBroker.Storage.Restart

/-!
# Stopping in the middle of a truncation

`TruncateTo` cuts the target segment, removes the files of the later segments one
by one and rewrites the epoch checkpoint. Here these file operations are a list,
and a process that stops between two of them leaves the directory after a first
part of it. `NewLog` opens whatever files it finds, so a later segment file that
is still there follows the cut with a gap.
-/
namespace MessageBroker.Storage

open Lib.Bytes Lib.Tiling Lib

/-! ## File operations -/

/-- What `NewLog` reads of a directory. The index files are not part of it: every
opening rebuilds them. -/
structure Disk where
  files : List (Nat × ByteString)
  checkpoint : Option EpochCache
  deriving DecidableEq

inductive FileOp
  | truncate (base size : Nat)
  | remove (base : Nat)
  | removeIndex (base : Nat)
  | writeCheckpoint (entries : EpochCache)
  deriving DecidableEq

/-- The operations that fail in a call with these faults. -/
def Faults.fails (io : Faults) : FileOp → Bool
  | .remove base => io.removeFails base
  | _ => false

namespace Disk

/-- One operation; `fails` says which `removeFile` calls have no effect. -/
def apply (fails : FileOp → Bool) (d : Disk) : FileOp → Disk
  | .truncate base size => { d with
      files := d.files.map fun f => if f.1 = base then (base, f.2.take size) else f }
  | .remove base =>
      if fails (.remove base) then d
      else { d with
        files := d.files.filter fun f => f.1 != base }
  | .removeIndex _ => d
  | .writeCheckpoint entries => { d with
      checkpoint := some entries }

def run (fails : FileOp → Bool) (d : Disk) (ops : List FileOp) : Disk :=
  ops.foldl (apply fails) d

/-- The operations remove the segment file of this base offset. -/
def Removed (fails : FileOp → Bool) (ops : List FileOp) (base : Nat) : Prop :=
  .remove base ∈ ops ∧ fails (.remove base) = false

instance (fails : FileOp → Bool) (ops : List FileOp) (base : Nat) :
    Decidable (Removed fails ops base) :=
  inferInstanceAs (Decidable (_ ∧ _))

section Run

variable {fails : FileOp → Bool} {ops : List FileOp}

theorem run_append (d : Disk) (ops ops' : List FileOp) :
    d.run fails (ops ++ ops') = (d.run fails ops).run fails ops' :=
  List.foldl_append

theorem apply_files {op : FileOp} (hop : ∀ base size, op ≠ .truncate base size) (d : Disk) :
    (d.apply fails op).files = d.files.filter fun f => !decide (Removed fails [op] f.1) := by
  have hall : (∀ base, op ≠ .remove base) →
      d.files = d.files.filter fun f => !decide (Removed fails [op] f.1) := by
    intro hne
    refine (List.filter_eq_self.mpr fun f _ => ?_).symm
    have : ¬ Removed fails [op] f.1 := fun h => hne f.1 (List.mem_singleton.mp h.1).symm
    simp [this]
  cases op with
  | truncate base size => exact absurd rfl (hop base size)
  | remove base =>
    rw [apply]
    split
    · rename_i hf
      refine (List.filter_eq_self.mpr fun f _ => ?_).symm
      have : ¬ Removed fails [.remove base] f.1 := by
        rintro ⟨hmem, hok⟩
        cases List.mem_singleton.mp hmem
        rw [hf] at hok
        cases hok
      simp [this]
    · rename_i hf
      refine List.filter_congr fun f _ => ?_
      have hiff : Removed fails [.remove base] f.1 ↔ f.1 = base := by
        constructor
        · rintro ⟨hmem, -⟩
          cases List.mem_singleton.mp hmem
          rfl
        · rintro rfl
          exact ⟨List.mem_singleton.mpr rfl, by simpa using hf⟩
      simp only [hiff]
      by_cases h : f.1 = base <;> simp [h]
  | removeIndex base => exact hall fun b h => (by cases h)
  | writeCheckpoint entries => exact hall fun b h => (by cases h)

/-- Without a truncation, the files left are those that were not removed. -/
theorem run_files : ∀ {ops : List FileOp} (d : Disk),
    (∀ op ∈ ops, ∀ base size, op ≠ .truncate base size) →
    (d.run fails ops).files = d.files.filter fun f => !decide (Removed fails ops f.1) := by
  intro ops
  induction ops with
  | nil =>
    intro d _
    refine (List.filter_eq_self.mpr fun f _ => ?_).symm
    have : ¬ Removed fails [] f.1 := fun h => absurd h.1 List.not_mem_nil
    simp [this]
  | cons op ops ih =>
    intro d hops
    have hrec := ih (d.apply fails op) fun x hx => hops x (List.mem_cons_of_mem _ hx)
    rw [apply_files (hops op List.mem_cons_self), List.filter_filter] at hrec
    refine hrec.trans (List.filter_congr fun f _ => ?_)
    have hiff : Removed fails (op :: ops) f.1 ↔
        Removed fails ops f.1 ∨ Removed fails [op] f.1 := by
      simp only [Removed, List.mem_cons, List.not_mem_nil, or_false]
      tauto
    simp only [hiff]
    by_cases h1 : Removed fails ops f.1 <;> by_cases h2 : Removed fails [op] f.1 <;> simp [h1, h2]

/-- The checkpoint stays one that passed the checks of its write. -/
theorem run_checkpoint : ∀ {ops : List FileOp} {d : Disk},
    (∀ es, .writeCheckpoint es ∈ ops → es.Writable) →
    (∀ c, d.checkpoint = some c → c.Writable) →
    ∀ c, (d.run fails ops).checkpoint = some c → c.Writable := by
  intro ops
  induction ops with
  | nil => exact fun _ hd => hd
  | cons op ops ih =>
    intro d hops hd
    refine ih (fun es hes => hops es (List.mem_cons_of_mem _ hes)) ?_
    intro c hc
    cases op with
    | truncate base size => exact hd c hc
    | remove base =>
      rw [apply] at hc
      split at hc <;> exact hd c hc
    | removeIndex base => exact hd c hc
    | writeCheckpoint entries =>
      cases hc
      exact hops _ List.mem_cons_self

end Run

/-- The directory opens as a log without a gap that is a first part of `l`. -/
def Recovers (crc : Checksum) (config : LogConfig) (d : Disk) (l : Log) : Prop :=
  ∃ l', newLog crc config d.files d.checkpoint .none = .ok l' ∧
    BatchTiles l'.oldestOffset l'.nextOffset l'.batches ∧ l'.batches <+: l.batches

end Disk

/-! ## The operations of a truncation -/

namespace Log

def disk (l : Log) : Disk := ⟨l.directory, l.checkpoint⟩

/-- The checkpoint write of a truncation that leaves this cache. -/
def checkpointOps (l : Log) (cache : EpochCache) : List FileOp :=
  if l.epochCheckpointDirty || decide (cache ≠ l.epochCache) then
    match checkpointCheck 0 none cache with
    | .error _ => []
    | .ok () => [.writeCheckpoint cache]
  else []

/-- `closeAndRemovePair` of each pair. -/
def removalOps (ps : List SegmentPair) : List FileOp :=
  ps.flatMap fun p => [.remove p.segment.baseOffset, .removeIndex p.segment.baseOffset]

/-- The file operations of `TruncateTo`, in order. -/
def truncationOps (l : Log) (offset : Nat) : List FileOp :=
  if l.nextOffset < offset then []
  else if offset < l.oldestOffset then []
  else if offset < l.nextOffset then
    match l.findSegment offset with
    | none => []
    | some target =>
      match (l.pairAt target).segment.findTruncationPosition offset with
      | .error _ => []
      | .ok position =>
        .truncate (l.pairAt target).segment.baseOffset position ::
          -- an index without room ends the call before anything is removed
          match truncateSegmentPair (l.pairAt target) position offset
              l.config.indexIntervalBytes false with
          | (.error _, _) => []
          | (.ok (), _) =>
              removalOps (l.after target) ++
                l.checkpointOps (l.epochCache.truncateFromEnd offset)
  else l.checkpointOps l.epochCache

theorem checkpointOps_spec {l : Log} {cache : EpochCache} {op : FileOp}
    (h : op ∈ l.checkpointOps cache) : op = .writeCheckpoint cache ∧ cache.Writable := by
  unfold checkpointOps at h
  split at h
  · split at h
    · exact absurd h List.not_mem_nil
    · rename_i hcheck
      exact ⟨List.mem_singleton.mp h, EpochCache.checkpointCheck_writable.mp hcheck⟩
  · exact absurd h List.not_mem_nil

theorem removalOps_spec {ps : List SegmentPair} {op : FileOp} (h : op ∈ removalOps ps) :
    ∃ t ∈ ps.map (·.segment), op = .remove t.baseOffset ∨ op = .removeIndex t.baseOffset := by
  obtain ⟨q, hq, hop⟩ := List.mem_flatMap.mp h
  exact ⟨q.segment, List.mem_map_of_mem hq, by simpa using hop⟩

/-- A truncation below the end: it cuts the segment `s` to `s'` and goes on with
removals of the segments after it and a checkpoint write. -/
structure CutPlan (crc : Checksum) (l : Log) (offset position : Nat) (before after : List Segment)
    (s s' : Segment) (rest : List FileOp) : Prop where
  segments : l.segments = before ++ s :: after
  entry : s'.fileEntry = (s.baseOffset, s.file.take position)
  rep : s'.Rep crc s'.batches
  kept : s'.batches <+: s.batches
  next : s'.nextOffset = offset
  beyond : ∀ t ∈ after, offset < t.baseOffset
  rest : ∀ op ∈ rest,
    (∃ t ∈ after, op = .remove t.baseOffset ∨ op = .removeIndex t.baseOffset) ∨
      ∃ es, op = .writeCheckpoint es ∧ es.Writable

section Plan

variable {crc : Checksum} {l : Log}

theorem Ok.cutPlan (h : l.Ok crc) {offset position : Nat} {target : Target}
    (hsplit : l.pairs = l.before target ++ l.pairAt target :: l.after target)
    (hbeyond : l.after target ≠ [] → offset < (l.pairAt target).segment.nextOffset)
    (hpos : (l.pairAt target).segment.findTruncationPosition offset = .ok position) :
    ∃ r p, truncateSegmentPair (l.pairAt target) position offset l.config.indexIntervalBytes
        false = (r, p) ∧
      ∀ cache, CutPlan crc l offset position ((l.before target).map (·.segment))
        ((l.after target).map (·.segment)) (l.pairAt target).segment p.segment
        (removalOps (l.after target) ++ l.checkpointOps cache) := by
  have hp := h.pair (l.pairAt target) (by rw [hsplit]; simp)
  rcases truncateSegmentPair_cases hp hpos l.config.indexIntervalBytes false with
    ⟨hf, -⟩ | ⟨r, p, cut, he, hp', hfile, hcut, hbase, hnext, -, -, -⟩
  · cases hf
  refine ⟨r, p, he, fun cache => ⟨?_, ?_, hp'.rep, ⟨cut, hcut.symm⟩, hnext, ?_, ?_⟩⟩
  · rw [segments, hsplit, List.map_append, List.map_cons]
  · rw [Segment.fileEntry, hbase, hfile]
  · intro t ht
    obtain ⟨q, hq, rfl⟩ := List.mem_map.mp ht
    have hlink := h.linked
    rw [hsplit] at hlink
    obtain ⟨m, -, -, -, hrest⟩ := linked_append.mp hlink
    have hle : (l.pairAt target).segment.nextOffset ≤ q.segment.baseOffset := (hrest.mem hq).1
    exact (hbeyond (List.ne_nil_of_mem hq)).trans_le hle
  · intro op hop
    rcases List.mem_append.mp hop with hop | hop
    · exact .inl (removalOps_spec hop)
    · exact .inr ⟨_, checkpointOps_spec hop⟩

/-- A plan covers every part of what it goes on with. -/
theorem CutPlan.mono {offset position : Nat} {before after : List Segment} {s s' : Segment}
    {rest rest' : List FileOp} (h : CutPlan crc l offset position before after s s' rest)
    (hsub : ∀ op ∈ rest', op ∈ rest) : CutPlan crc l offset position before after s s' rest' :=
  { h with rest := fun op hop => h.rest op (hsub op hop) }

theorem Ok.truncationOps_cases (h : l.Ok crc) (offset : Nat) :
    ((l.truncationOps offset = [] ∨ offset = l.nextOffset) ∧
      ∀ op ∈ l.truncationOps offset, ∃ es, op = .writeCheckpoint es ∧ es.Writable) ∨
    ∃ position before after s s' rest,
      l.truncationOps offset = .truncate s.baseOffset position :: rest ∧
        CutPlan crc l offset position before after s s' rest := by
  have hnone : ∀ op ∈ ([] : List FileOp), ∃ es, op = .writeCheckpoint es ∧ es.Writable :=
    fun _ hop => absurd hop List.not_mem_nil
  unfold truncationOps
  split
  · exact .inl ⟨.inl rfl, hnone⟩
  rename_i hle
  split
  · exact .inl ⟨.inl rfl, hnone⟩
  rename_i hge
  split
  · obtain ⟨target, hfind, hsplit, -, hbeyond⟩ :=
      findSegment_some h.linked (Nat.le_of_not_lt hge)
    rw [hfind]
    simp only
    cases hpos : (l.pairAt target).segment.findTruncationPosition offset with
    | error e => exact .inl ⟨.inl rfl, hnone⟩
    | ok position =>
      simp only
      obtain ⟨r, p, he, hplan⟩ := h.cutPlan hsplit hbeyond hpos
      rw [he]
      refine .inr ⟨position, _, _, _, p.segment, _, rfl,
        (hplan (l.epochCache.truncateFromEnd offset)).mono fun op hop => ?_⟩
      cases r with
      | error e => exact absurd hop List.not_mem_nil
      | ok _ => exact hop
  · rename_i heq
    exact .inl ⟨.inr (by omega), fun op hop => ⟨_, checkpointOps_spec hop⟩⟩

end Plan

/-! ## What a stopped truncation leaves -/

section Crash

variable {crc : Checksum} {l : Log}

/-- The files after a cut and any of the operations that follow it. -/
theorem CutPlan.files {offset position : Nat} {before after : List Segment} {s s' : Segment}
    {rest : List FileOp} (h : CutPlan crc l offset position before after s s' rest)
    (hlt : (l.segments.map Segment.baseOffset).Pairwise (· < ·))
    (hdir : l.directory = l.segments.map Segment.fileEntry) (fails : FileOp → Bool)
    {done : List FileOp} (hdone : ∀ op ∈ done, op ∈ rest) :
    (l.disk.run fails (.truncate s.baseOffset position :: done)).files =
      (before ++ s' :: after.filter fun t =>
        !decide (Disk.Removed fails done t.baseOffset)).map Segment.fileEntry := by
  have hs' : s'.baseOffset = s.baseOffset := congrArg Prod.fst h.entry
  rw [h.segments, List.pairwise_map] at hlt
  obtain ⟨hbefore, htail, hcross⟩ := List.pairwise_append.mp hlt
  obtain ⟨hafter, -⟩ := List.pairwise_cons.mp htail
  have hcut : (l.disk.apply fails (.truncate s.baseOffset position)).files =
      (before ++ s' :: after).map Segment.fileEntry := by
    show l.directory.map _ = _
    have hkeep : ∀ t : Segment, t.baseOffset ≠ s.baseOffset →
        (if t.fileEntry.1 = s.baseOffset then (s.baseOffset, t.fileEntry.2.take position)
          else t.fileEntry) = t.fileEntry := fun t ht => if_neg ht
    rw [hdir, h.segments, List.map_map, List.map_append, List.map_cons, List.map_append,
      List.map_cons]
    congr 1
    · refine List.map_congr_left fun t ht => hkeep t ?_
      exact Nat.ne_of_lt (hcross t ht s List.mem_cons_self)
    · congr 1
      · rw [h.entry]
        exact if_pos rfl
      · exact List.map_congr_left fun t ht => hkeep t (Nat.ne_of_gt (hafter t ht))
  have hops : ∀ op ∈ done, ∀ base size, op ≠ .truncate base size := by
    rintro op hop base size rfl
    rcases h.rest _ (hdone _ hop) with ⟨t, -, he | he⟩ | ⟨es, he, -⟩ <;> cases he
  -- only files of later segments are removed
  have hstay : ∀ t : Segment, t.baseOffset ≤ offset →
      ¬ Disk.Removed fails done t.fileEntry.1 := by
    rintro t ht ⟨hmem, -⟩
    rcases h.rest _ (hdone _ hmem) with ⟨u, hu, he | he⟩ | ⟨es, he, -⟩
    · have := h.beyond u hu
      have hbase : t.baseOffset = u.baseOffset := FileOp.remove.inj he
      omega
    · cases he
    · cases he
  have hs : s.baseOffset ≤ offset := by
    have := h.rep.base_le_next
    have := h.next
    omega
  show ((l.disk.apply fails (.truncate s.baseOffset position)).run fails done).files = _
  rw [Disk.run_files _ hops, hcut, List.filter_map, List.filter_append, List.filter_cons]
  congr 1
  rw [if_pos]
  · congr 1
    refine List.filter_eq_self.mpr fun t ht => ?_
    have := hcross t ht s List.mem_cons_self
    simpa using hstay t (by omega)
  · simpa using hstay s' (by omega)

/-- The segments follow one another. -/
theorem Ok.linked_segments (h : l.Ok crc) :
    Linked Segment.baseOffset Segment.nextOffset l.oldestOffset l.nextOffset l.segments :=
  linked_map.mpr h.linked

namespace CutPlan

variable {offset position : Nat} {before after : List Segment} {s s' : Segment}
  {rest : List FileOp}

theorem linked (h : CutPlan crc l offset position before after s s' rest) (hok : l.Ok crc) :
    Linked Segment.baseOffset Segment.nextOffset l.oldestOffset offset (before ++ [s']) := by
  have hlink := hok.linked_segments
  rw [h.segments] at hlink
  obtain ⟨m, hbefore, hs, -, -⟩ := linked_append.mp hlink
  have hs' : s'.baseOffset = m := (congrArg Prod.fst h.entry).trans hs
  exact linked_append.mpr ⟨m, hbefore, hs', hs' ▸ h.rep.base_le_next, h.next⟩

/-- Every segment in the directory after the cut can be read. -/
theorem readable (h : CutPlan crc l offset position before after s s' rest) (hok : l.Ok crc)
    {t : Segment} (ht : t ∈ before ++ s' :: after) :
    t.Rep crc t.batches ∧ ∀ c ∈ t.batches, c ∈ l.batches := by
  have hmem : ∀ u ∈ l.segments, u.Rep crc u.batches ∧ ∀ c ∈ u.batches, c ∈ l.batches :=
    fun u hu => ⟨hok.segment_rep hu, fun c hc => mem_batches_of_segment hu hc⟩
  rw [h.segments] at hmem
  rcases List.mem_append.mp ht with ht | ht
  · exact hmem t (List.mem_append_left _ ht)
  rcases List.mem_cons.mp ht with rfl | ht
  · refine ⟨h.rep, fun c hc => (hmem s (by simp)).2 c (h.kept.subset hc)⟩
  · exact hmem t (by simp [ht])

/-- A log opened after the cut has no gap only if no later segment is in it. -/
theorem no_later {kept : List Segment} (h : CutPlan crc l offset position before after s s' rest)
    (hok : l.Ok crc) (hkept : ∀ t ∈ kept, t ∈ after) {maxSize : Int64} {l' : Log}
    (hsegs : l'.segments = (before ++ s' :: kept).map (Segment.resized maxSize))
    (hbatches : l'.batches = (before ++ s' :: kept).flatMap Segment.batches)
    (htiles : BatchTiles l'.oldestOffset l'.nextOffset l'.batches) : kept = [] := by
  have hlink := h.linked hok
  have hreps : ∀ t ∈ before ++ s' :: after, t.Rep crc t.batches := fun t ht =>
    (h.readable hok ht).1
  have hold : l'.oldestOffset = l.oldestOffset := by
    cases before with
    | nil => exact (oldestOffset_of_head (congrArg List.head? hsegs)).trans hlink.1
    | cons t before => exact (oldestOffset_of_head (congrArg List.head? hsegs)).trans hlink.1
  have hbelow : BatchTiles l.oldestOffset offset ((before ++ [s']).flatMap Segment.batches) :=
    hlink.flatMap fun t ht => (hreps t (by
      rcases List.mem_append.mp ht with ht | ht
      · exact List.mem_append_left _ ht
      · simp [List.mem_singleton.mp ht])).tiles
  have hsplit : (before ++ s' :: kept).flatMap Segment.batches =
      (before ++ [s']).flatMap Segment.batches ++ kept.flatMap Segment.batches := by
    simp
  rw [hbatches, hsplit, hold] at htiles
  obtain ⟨m, hm, hlater⟩ := tiles_append.mp htiles
  rw [tiles_end_unique hm hbelow] at hlater
  rcases List.eq_nil_or_concat' kept with hnil | ⟨init, t, rfl⟩
  · exact hnil
  · exfalso
    have hlast : l'.segments =
        (before ++ s' :: init).map (Segment.resized maxSize) ++ [t.resized maxSize] := by
      rw [hsegs]
      simp
    have hnext : l'.nextOffset = t.nextOffset := (nextOffset_of_last hlast).trans rfl
    have hbase : ∀ u ∈ init ++ [t], offset < u.baseOffset ∧ u.Rep crc u.batches := fun u hu =>
      ⟨h.beyond u (hkept u hu), hreps u (by simp [hkept u hu])⟩
    cases hk : (init ++ [t]).flatMap Segment.batches with
    | nil =>
      rw [hk] at hlater
      have hend : offset = l'.nextOffset := hlater
      obtain ⟨hlt, hrep⟩ := hbase t (by simp)
      have := hrep.base_le_next
      omega
    | cons c cs =>
      rw [hk] at hlater
      have hc : c ∈ (init ++ [t]).flatMap Segment.batches := hk ▸ List.mem_cons_self
      obtain ⟨u, hu, hc⟩ := List.mem_flatMap.mp hc
      obtain ⟨hlt, hrep⟩ := hbase u hu
      have hin := (hrep.tiles.mem hc).1
      have hstart : baseOffset c = offset := hlater.1
      omega

/-- The cut log without later segments has no gap. -/
theorem tiled (h : CutPlan crc l offset position before after s s' rest) (hok : l.Ok crc)
    {maxSize : Int64} {l' : Log}
    (hsegs : l'.segments = (before ++ [s']).map (Segment.resized maxSize))
    (hbatches : l'.batches = (before ++ [s']).flatMap Segment.batches) :
    BatchTiles l'.oldestOffset l'.nextOffset l'.batches ∧ l'.batches <+: l.batches := by
  have hlink := h.linked hok
  have hpairs : Linked Segment.baseOffset Segment.nextOffset l.oldestOffset offset l'.segments := by
    rw [hsegs]
    exact linked_map.mpr hlink
  obtain ⟨hold, hnext⟩ := ends_of (linked_map.mp hpairs)
  constructor
  · rw [hold, hnext, hbatches]
    refine hlink.flatMap fun t ht => (h.readable hok ?_).1.tiles
    rcases List.mem_append.mp ht with ht | ht
    · exact List.mem_append_left _ ht
    · simp [List.mem_singleton.mp ht]
  · obtain ⟨cut, hcut⟩ := h.kept
    rw [hbatches, ← flatMap_segments, h.segments]
    exact ⟨cut ++ after.flatMap Segment.batches, by simp [← hcut]⟩

theorem recovers_iff (h : CutPlan crc l offset position before after s s' rest) (hok : l.Ok crc)
    (hr : l.Roomy) (hread : l.Readable) (hend : l.nextOffset ≤ 2 ^ 63) (config : LogConfig)
    (fails : FileOp → Bool) {done : List FileOp} (hdone : ∀ op ∈ done, op ∈ rest) :
    Disk.Recovers crc config (l.disk.run fails (.truncate s.baseOffset position :: done)) l ↔
      (∀ t ∈ after, Disk.Removed fails done t.baseOffset) ∧
        ∀ t ∈ before ++ [s'], (applyDefaults config).Fits t.batches := by
  have hfiles := h.files (hok.tiled hr).bases (hok.directory_eq hr) fails hdone
  have hck : ∀ c, (l.disk.run fails (.truncate s.baseOffset position :: done)).checkpoint =
      some c → c.Writable := by
    refine Disk.run_checkpoint (fun es hes => ?_) hread.written
    rcases List.mem_cons.mp hes with he | hes
    · cases he
    · rcases h.rest _ (hdone _ hes) with ⟨t, -, he | he⟩ | ⟨es', he, hw⟩
      · cases he
      · cases he
      · cases he
        exact hw
  unfold Disk.Recovers
  rw [hfiles]
  generalize hkept : after.filter (fun t => !decide (Disk.Removed fails done t.baseOffset)) = kept
  have hsub : ∀ t ∈ kept, t ∈ after := fun t ht => (List.mem_filter.mp (hkept ▸ ht)).1
  have hgone : (∀ t ∈ after, Disk.Removed fails done t.baseOffset) ↔ kept = [] := by
    rw [← hkept, List.filter_eq_nil_iff]
    simp
  have hss : ∀ t ∈ before ++ s' :: kept, t.Rep crc t.batches ∧ ∀ c ∈ t.batches, Scannable c := by
    intro t ht
    have hmem : t ∈ before ++ s' :: after := by
      rcases List.mem_append.mp ht with ht | ht
      · exact List.mem_append_left _ ht
      · refine List.mem_append_right _ ?_
        rcases List.mem_cons.mp ht with rfl | ht
        · exact List.mem_cons_self
        · exact List.mem_cons_of_mem _ (hsub t ht)
    obtain ⟨hrep, hin⟩ := h.readable hok hmem
    exact ⟨hrep, fun c hc => hread.scannable hok hend (hin c hc)⟩
  have hne : before ++ s' :: kept ≠ [] := by simp
  have hopen : (∃ l', newLog crc config ((before ++ s' :: kept).map Segment.fileEntry)
        (l.disk.run fails (.truncate s.baseOffset position :: done)).checkpoint .none = .ok l') ↔
      ∀ t ∈ before ++ s' :: kept, (applyDefaults config).Fits t.batches :=
    newLog_iff hss hne hck rfl
  have hcontents : ∀ l', newLog crc config ((before ++ s' :: kept).map Segment.fileEntry)
        (l.disk.run fails (.truncate s.baseOffset position :: done)).checkpoint .none = .ok l' →
      l'.segments = (before ++ s' :: kept).map
          (Segment.resized (applyDefaults config).maxSegmentBytes) ∧
        l'.batches = (before ++ s' :: kept).flatMap Segment.batches := by
    intro l' hl'
    obtain ⟨hsegs, -⟩ := newLog_segments (fun t ht => (hss t ht).1) hne hl'
    refine ⟨hsegs, ?_⟩
    rw [← flatMap_segments, hsegs, List.flatMap_map]
    refine List.flatMap_congr fun t ht => ?_
    exact ((hss t ht).1.resized _).batches_eq
  rw [hgone]
  constructor
  · rintro ⟨l', hl', htiles, -⟩
    obtain ⟨hsegs, hbatches⟩ := hcontents l' hl'
    have hnil := h.no_later hok hsub hsegs hbatches htiles
    subst hnil
    exact ⟨rfl, hopen.mp ⟨l', hl'⟩⟩
  · rintro ⟨rfl, hfits⟩
    obtain ⟨l', hl'⟩ := hopen.mpr hfits
    obtain ⟨hsegs, hbatches⟩ := hcontents l' hl'
    exact ⟨l', hl', h.tiled hok hsegs hbatches⟩

/-- In terms of the segments before the truncation: the later ones are gone, and
the batches below the cut fit the rebuilt indexes. -/
theorem conditions_iff (h : CutPlan crc l offset position before after s s' rest) (hok : l.Ok crc)
    (config : LogConfig) (fails : FileOp → Bool) (done : List FileOp) :
    ((∀ t ∈ after, Disk.Removed fails done t.baseOffset) ∧
        ∀ t ∈ before ++ [s'], (applyDefaults config).Fits t.batches) ↔
      (∀ t ∈ l.segments, offset < t.baseOffset →
          Disk.Removed fails (.truncate s.baseOffset position :: done) t.baseOffset) ∧
        ∀ t ∈ l.segments, (applyDefaults config).Fits
          (t.batches.filter fun c => decide (endOffset c ≤ offset)) := by
  have hlink := h.linked hok
  have hreps : ∀ t ∈ before ++ s' :: after, t.Rep crc t.batches := fun t ht =>
    (h.readable hok ht).1
  have hremoved : ∀ base, Disk.Removed fails (.truncate s.baseOffset position :: done) base ↔
      Disk.Removed fails done base := by
    intro base
    simp [Disk.Removed]
  have hlow : ∀ t ∈ before ++ [s'], t.baseOffset ≤ offset ∧ t.nextOffset ≤ offset := fun t ht =>
    have hm := hlink.mem ht
    ⟨hm.2.1.trans hm.2.2, hm.2.2⟩
  have hbefore : ∀ t ∈ before, t.batches.filter (fun c => decide (endOffset c ≤ offset)) =
      t.batches := by
    intro t ht
    refine List.filter_eq_self.mpr fun c hc => ?_
    have h1 := ((hreps t (List.mem_append_left _ ht)).tiles.mem hc).2.2
    have h2 := (hlow t (List.mem_append_left _ ht)).2
    simpa using h1.trans h2
  have hafter : ∀ t ∈ after, t.batches.filter (fun c => decide (endOffset c ≤ offset)) = [] := by
    intro t ht
    refine List.filter_eq_nil_iff.mpr fun c hc => ?_
    have h1 := (hreps t (by simp [ht])).tiles.mem hc
    have h2 := h.beyond t ht
    simp only [decide_eq_true_eq]
    omega
  have htarget : s.batches.filter (fun c => decide (endOffset c ≤ offset)) = s'.batches := by
    obtain ⟨cut, hcut⟩ := h.kept
    have hs : s.Rep crc s.batches := hok.segment_rep (by rw [h.segments]; simp)
    have htiles := hs.tiles
    have hbase : s'.baseOffset = s.baseOffset := congrArg Prod.fst h.entry
    rw [← hcut, ← hbase] at htiles
    obtain ⟨m, hm, hrest⟩ := tiles_append.mp htiles
    have hend := tiles_end_unique hm h.rep.tiles
    rw [h.next] at hend
    subst hend
    rw [← hcut]
    exact hm.filter_hi_le hrest
  have hempty : (applyDefaults config).Fits [] := Int.le_of_lt (applyDefaults_indexBytes config)
  have hsbase : s.baseOffset ≤ offset := by
    have h1 := (hlow s' (by simp)).1
    rwa [show s'.baseOffset = s.baseOffset from congrArg Prod.fst h.entry] at h1
  simp only [h.segments, List.forall_mem_append, List.forall_mem_cons, List.not_mem_nil,
    false_imp_iff, implies_true, and_true, hremoved, htarget]
  constructor
  · rintro ⟨hgone, hfit, hfit'⟩
    refine ⟨⟨fun t ht hlt => ?_, fun hlt => ?_, fun t ht _ => hgone t ht⟩, fun t ht => ?_, hfit',
      fun t ht => ?_⟩
    · exact absurd hlt (Nat.not_lt.mpr (hlow t (List.mem_append_left _ ht)).1)
    · exact absurd hlt (Nat.not_lt.mpr hsbase)
    · rw [hbefore t ht]
      exact hfit t ht
    · rw [hafter t ht]
      exact hempty
  · rintro ⟨⟨-, -, hgone⟩, hfit, hfit', -⟩
    exact ⟨fun t ht => hgone t ht (h.beyond t ht), fun t ht => hbefore t ht ▸ hfit t ht, hfit'⟩

end CutPlan

/-- The truncation stopped before its first operation, or it has removed the file
of every later segment. -/
def Settled (l : Log) (offset : Nat) (fails : FileOp → Bool) (done : List FileOp) : Prop :=
  done = [] ∨ ∀ s ∈ l.segments, offset < s.baseOffset → Disk.Removed fails done s.baseOffset

/-- The batches that the truncation has left fit the indexes rebuilt for them. -/
def KeptFits (l : Log) (config : LogConfig) (offset : Nat) (done : List FileOp) : Prop :=
  ∀ s ∈ l.segments, (applyDefaults config).Fits
    (s.batches.filter fun c => decide (endOffset c ≤ if done = [] then l.nextOffset else offset))

instance (l : Log) (offset : Nat) (fails : FileOp → Bool) (done : List FileOp) :
    Decidable (l.Settled offset fails done) :=
  inferInstanceAs (Decidable (_ ∨ _))

instance (l : Log) (config : LogConfig) (offset : Nat) (done : List FileOp) :
    Decidable (l.KeptFits config offset done) :=
  inferInstanceAs (Decidable (∀ s ∈ l.segments, _))

/-- A directory with all segment files of a log. -/
theorem Ok.recovers_whole (h : l.Ok crc) (hr : l.Roomy) (hread : l.Readable)
    (hend : l.nextOffset ≤ 2 ^ 63) (config : LogConfig) {d : Disk} (hfiles : d.files = l.directory)
    (hck : ∀ c, d.checkpoint = some c → c.Writable) :
    d.Recovers crc config l ↔ ∀ s ∈ l.segments, (applyDefaults config).Fits
      (s.batches.filter fun c => decide (endOffset c ≤ l.nextOffset)) := by
  have hall : ∀ s ∈ l.segments,
      s.batches.filter (fun c => decide (endOffset c ≤ l.nextOffset)) = s.batches := by
    intro s hs
    refine List.filter_eq_self.mpr fun c hc => ?_
    simpa using (h.tiles.mem (mem_batches_of_segment hs hc)).2.2
  have hok := h.ofEpochs l.epochCache d.checkpoint l.epochCheckpointDirty
  have hiff := hok.reopen_iff (hr.ofEpochs _ _ _) ⟨hread.lengths, hck⟩ hend config
    (show Faults.none.checkpointFails = false from rfl)
  have hdisk : ∀ l', newLog crc config d.files d.checkpoint .none = .ok l' ↔
      Log.reopen crc { l with
        epochCache := l.epochCache
        checkpoint := d.checkpoint
        epochCheckpointDirty := l.epochCheckpointDirty } config .none = .ok l' := by
    intro l'
    rw [hfiles]
    rfl
  unfold Disk.Recovers
  constructor
  · rintro ⟨l', hl', -⟩ s hs
    rw [hall s hs]
    exact hiff.mp ⟨l', (hdisk l').mp hl'⟩ s hs
  · intro hfits
    obtain ⟨l', hl'⟩ := hiff.mpr fun s hs => hall s hs ▸ hfits s hs
    have hre := hok.reopen hl'
    exact ⟨l', (hdisk l').mpr hl', hre.ok.tiles, hre.batches ▸ List.prefix_refl _⟩

/-- A truncation stopped after some of its operations, with some removals failing,
leaves a first part of the log exactly if the later segments are gone. -/
theorem Ok.crash_iff (h : l.Ok crc) (hr : l.Roomy) (hread : l.Readable)
    (hend : l.nextOffset ≤ 2 ^ 63) (config : LogConfig) (offset k : Nat) (fails : FileOp → Bool) :
    Disk.Recovers crc config (l.disk.run fails ((l.truncationOps offset).take k)) l ↔
      l.Settled offset fails ((l.truncationOps offset).take k) ∧
        l.KeptFits config offset ((l.truncationOps offset).take k) := by
  rcases h.truncationOps_cases offset with
    ⟨hnone, hops⟩ | ⟨position, before, after, s, s', rest, hops, hplan⟩
  · -- no segment file is touched
    have hdone : ∀ op ∈ (l.truncationOps offset).take k, ∃ es, op = .writeCheckpoint es ∧
        es.Writable := fun op hop => hops op (List.take_subset _ _ hop)
    have hbound : (if (l.truncationOps offset).take k = [] then l.nextOffset else offset) =
        l.nextOffset := by
      split
      · rfl
      · rename_i hne
        rcases hnone with hnil | heq
        · exact absurd (by rw [hnil, List.take_nil]) hne
        · exact heq
    have hsettled : l.Settled offset fails ((l.truncationOps offset).take k) := by
      rcases hnone with hnil | heq
      · exact .inl (by rw [hnil, List.take_nil])
      · refine .inr fun t ht hlt => ?_
        have := h.linked_segments.mem ht
        omega
    have hfiles : (l.disk.run fails ((l.truncationOps offset).take k)).files = l.directory := by
      rw [Disk.run_files]
      · refine List.filter_eq_self.mpr fun f _ => ?_
        have hnot : ¬ Disk.Removed fails ((l.truncationOps offset).take k) f.1 := by
          rintro ⟨hmem, -⟩
          obtain ⟨es, he, -⟩ := hdone _ hmem
          cases he
        simp [hnot]
      · rintro op hop base size rfl
        obtain ⟨es, he, -⟩ := hdone _ hop
        cases he
    rw [h.recovers_whole hr hread hend config hfiles, KeptFits, hbound]
    · exact ⟨fun hfits => ⟨hsettled, hfits⟩, fun hfits => hfits.2⟩
    · refine Disk.run_checkpoint (fun es hes => ?_) hread.written
      obtain ⟨es', he, hw⟩ := hdone _ hes
      cases he
      exact hw
  · rw [hops]
    cases k with
    | zero =>
      have hwhole := h.recovers_whole hr hread hend config (d := l.disk) rfl hread.written
      exact ⟨fun hrec => ⟨.inl rfl, hwhole.mp hrec⟩, fun hfits => hwhole.mpr hfits.2⟩
    | succ k =>
      rw [List.take_succ_cons, hplan.recovers_iff h hr hread hend config fails
        (fun op hop => List.take_subset _ _ hop), hplan.conditions_iff h]
      simp [Settled, KeptFits]

/-! ## The operations are those of the call -/

theorem lastOfEach_of_lt {fs : List (Nat × ByteString)} (h : fs.Pairwise fun a b => a.1 < b.1) :
    lastOfEach fs = fs := by
  induction fs with
  | nil => rfl
  | cons a fs ih =>
    obtain ⟨ha, hfs⟩ := List.pairwise_cons.mp h
    cases fs with
    | nil => rfl
    | cons b fs =>
      rw [lastOfEach, if_neg (Nat.ne_of_lt (ha b List.mem_cons_self)), ih hfs]

/-- The directory lists the files by base offset, wherever the log keeps them. -/
theorem directory_of_perm {fs : List (Nat × ByteString)}
    (hperm : (l.strays ++ l.pairs.map SegmentPair.fileEntry).Perm fs)
    (hlt : fs.Pairwise fun a b => a.1 < b.1) : l.directory = fs := by
  have : Std.Total fun a b : Nat × ByteString => a.1 ≤ b.1 := ⟨fun a b => Nat.le_total a.1 b.1⟩
  have : IsTrans (Nat × ByteString) fun a b => a.1 ≤ b.1 := ⟨fun _ _ _ => Nat.le_trans⟩
  have hsort : (l.strays ++ l.pairs.map SegmentPair.fileEntry).insertionSort
      (fun a b => a.1 ≤ b.1) = fs := by
    refine List.Perm.eq_of_pairwise ?_ (List.pairwise_insertionSort _ _)
      (hlt.imp fun h => Nat.le_of_lt h) ((List.perm_insertionSort _ _).trans hperm)
    intro a b ha hb hab hba
    have hnodup : (fs.map Prod.fst).Nodup := List.pairwise_map.mpr (hlt.imp Nat.ne_of_lt)
    have ha : a ∈ fs := hperm.subset ((List.perm_insertionSort _ _).subset ha)
    exact List.inj_on_of_nodup_map hnodup ha hb (Nat.le_antisymm hab hba)
  unfold directory
  exact (congrArg lastOfEach hsort).trans (lastOfEach_of_lt hlt)

theorem finishTruncate_disk (l : Log) (offset : Nat) (physical : Bool) (failed : List Nat)
    {io : Faults} (hio : io.checkpointFails = false) :
    (l.finishTruncate offset physical failed io).2.disk = l.disk.run io.fails
      (l.checkpointOps (if physical then l.epochCache.truncateFromEnd offset
        else l.epochCache)) := by
  unfold finishTruncate checkpointOps persistEpochCheckpoint writeCheckpoint
  generalize (if physical then l.epochCache.truncateFromEnd offset else l.epochCache) = cache
  cases hd : (l.epochCheckpointDirty || decide (cache ≠ l.epochCache)) with
  | false =>
    simp only [hd, Bool.not_false, if_true]
    split <;> rfl
  | true =>
    simp only [hd, hio, Bool.not_true, if_true]
    cases hc : checkpointCheck 0 none cache with
    | error e => rfl
    | ok _ =>
      simp only [Bool.false_eq_true, if_false]
      split <;> rfl

theorem removed_removalOps {fails : FileOp → Bool} {ps : List SegmentPair} {t : Segment}
    (ht : t ∈ ps.map (·.segment)) :
    Disk.Removed fails (removalOps ps) t.baseOffset ↔ fails (.remove t.baseOffset) = false := by
  obtain ⟨p, hp, rfl⟩ := List.mem_map.mp ht
  refine and_iff_right (List.mem_flatMap.mpr ⟨p, hp, List.mem_cons_self⟩)

/-- A log whose files are those left by a cut and the removals after it. -/
theorem CutPlan.disk_eq {offset position : Nat} {before after : List Segment} {s s' : Segment}
    {rest : List FileOp} (h : CutPlan crc l offset position before after s s' rest)
    (hok : l.Ok crc) (hr : l.Roomy) (fails : FileOp → Bool) {ps : List SegmentPair}
    (hps : ∀ op ∈ removalOps ps, op ∈ rest) {m : Log} (hck : m.checkpoint = l.checkpoint)
    (hperm : (m.strays ++ m.pairs.map SegmentPair.fileEntry).Perm
      ((before ++ s' :: after.filter fun t =>
        !decide (Disk.Removed fails (removalOps ps) t.baseOffset)).map Segment.fileEntry)) :
    m.disk = l.disk.run fails (.truncate s.baseOffset position :: removalOps ps) := by
  have hlt := (hok.tiled hr).bases
  have hfiles := h.files hlt (hok.directory_eq hr) fails hps
  have hdir : m.directory = (l.disk.run fails
      (.truncate s.baseOffset position :: removalOps ps)).files := by
    rw [hfiles]
    refine directory_of_perm hperm ?_
    have hbases : (before ++ s' :: after).map Segment.baseOffset =
        l.segments.map Segment.baseOffset := by
      rw [h.segments]
      simp [show s'.baseOffset = s.baseOffset from congrArg Prod.fst h.entry]
    rw [← hbases, List.pairwise_map] at hlt
    rw [List.pairwise_map]
    exact hlt.sublist (((List.filter_sublist).cons_cons s').append_left before)
  have hsame : ∀ (ops : List FileOp) (d : Disk), (∀ op ∈ ops, ∀ es, op ≠ .writeCheckpoint es) →
      (d.run fails ops).checkpoint = d.checkpoint := by
    intro ops
    induction ops with
    | nil => exact fun _ _ => rfl
    | cons op ops ih =>
      intro d hops
      refine (ih _ fun x hx => hops x (List.mem_cons_of_mem _ hx)).trans ?_
      cases op with
      | truncate base size => rfl
      | remove base =>
        rw [Disk.apply]
        split <;> rfl
      | removeIndex base => rfl
      | writeCheckpoint entries => exact absurd rfl (hops _ List.mem_cons_self entries)
  have hcheck : (l.disk.run fails
      (.truncate s.baseOffset position :: removalOps ps)).checkpoint = m.checkpoint := by
    rw [hck]
    refine hsame _ _ fun op hop es he => ?_
    subst he
    rcases List.mem_cons.mp hop with he | hop
    · cases he
    · obtain ⟨t, -, he | he⟩ := removalOps_spec hop <;> cases he
  rw [disk, hdir, ← hcheck]

theorem filter_removed_nil (fails : FileOp → Bool) (ss : List Segment) :
    ss.filter (fun t => !decide (Disk.Removed fails (removalOps []) t.baseOffset)) = ss :=
  List.filter_eq_self.mpr fun t _ => by simp [Disk.Removed, removalOps]

theorem filter_removed (io : Faults) (ps : List SegmentPair) :
    (ps.map (·.segment)).filter (fun t =>
        !decide (Disk.Removed io.fails (removalOps ps) t.baseOffset)) =
      (ps.filter fun q => io.removeFails q.segment.baseOffset).map (·.segment) := by
  rw [List.filter_map]
  refine congrArg (List.map _) (List.filter_congr fun q hq => ?_)
  simp [removed_removalOps (List.mem_map_of_mem hq), Faults.fails]

theorem fileEntry_segment (ps : List SegmentPair) :
    (ps.map (·.segment)).map Segment.fileEntry = ps.map SegmentPair.fileEntry := by
  rw [List.map_map]
  rfl

/-- Without failing truncations and checkpoint writes, the operations of a call
leave the directory that the call leaves. -/
theorem Ok.truncateTo_disk (h : l.Ok crc) (hr : l.Roomy) {io : Faults}
    (ht : io.truncateFails = false) (hc : io.checkpointFails = false) (offset : Nat) :
    (l.truncateTo offset io).2.disk = l.disk.run io.fails (l.truncationOps offset) := by
  unfold Log.truncateTo truncationOps
  split
  · rfl
  split
  · rfl
  split
  · rename_i hge hlt
    obtain ⟨target, hfind, hsplit, -, hbeyond⟩ :=
      findSegment_some h.linked (Nat.le_of_not_lt hge)
    rw [hfind]
    simp only
    cases hpos : (l.pairAt target).segment.findTruncationPosition offset with
    | error e => rfl
    | ok position =>
      obtain ⟨r, p, he, hplan⟩ := h.cutPlan hsplit hbeyond hpos
      have hplan := hplan (l.epochCache.truncateFromEnd offset)
      -- the directory when only the cut was made
      have hcut : ∀ m : Log, m.strays = [] → m.pairs = l.before target ++ p :: l.after target →
          m.checkpoint = l.checkpoint → m.disk = l.disk.run io.fails
            (.truncate (l.pairAt target).segment.baseOffset position :: removalOps []) := by
        intro m hstrays hpairs hck
        refine hplan.disk_eq h hr io.fails (fun op hop => absurd hop List.not_mem_nil) hck ?_
        rw [filter_removed_nil, hstrays, hpairs, ← List.map_cons, ← List.map_append,
          fileEntry_segment]
        exact .refl _
      simp only [ht, he]
      cases target with
      | active =>
        have hdisk := hcut { l with activePair := p } h.strays rfl rfl
        cases r with
        | error e => exact hdisk
        | ok _ =>
          refine (finishTruncate_disk _ offset true [] hc).trans ?_
          rw [hdisk]
          exact (Disk.run_append _ _ _).symm
      | sealed i =>
        cases r with
        | error e =>
          refine hcut { l with sealedPairs := l.sealedPairs.set i p } h.strays ?_ rfl
          have hi : i < l.sealedPairs.length := by
            have hlen := congrArg List.length hsplit
            simp only [pairs, before, after, List.length_append, List.length_cons,
              List.length_nil, List.length_take, List.length_drop] at hlen
            omega
          simp [pairs, before, after, List.set_eq_take_append_cons_drop, hi]
        | ok _ =>
          refine (finishTruncate_disk _ offset true _ hc).trans ?_
          have hdisk := hplan.disk_eq h hr io.fails
            (fun op hop => List.mem_append_left _ hop) (m := { l with
              sealedPairs := l.sealedPairs.take i
              activePair := p
              strays := l.strays ++ ((l.after (.sealed i)).filter fun q =>
                io.removeFails q.segment.baseOffset).map SegmentPair.fileEntry }) rfl (by
            rw [filter_removed, h.strays, ← List.map_cons, ← List.map_append, fileEntry_segment,
              List.nil_append, ← List.map_append]
            refine List.Perm.map _ (List.perm_append_comm.trans (.of_eq ?_))
            simp [pairs, before])
          rw [← List.cons_append, Disk.run_append, ← hdisk]
          rfl
  · exact l.finishTruncate_disk offset false [] hc

end Crash

/-- In every log that safe calls make, a truncation to any offset that stops after
any of its operations, with any removals failing, leaves a directory that opens as
a first part of the log exactly if every later segment file is gone and the rebuilt
indexes fit. -/
theorem stopped_truncation_recovers_iff (crc : Checksum) (config : LogConfig)
    (hroom : (indexEntrySize : Int) ≤ (applyDefaults config).maxIndexBytes.toInt)
    (calls : List (Call × Faults))
    (hg : Runs.Guarded (Log.exec crc) (fun l x => l.Safe x ∧ KeepsRoom x ∧ Short x)
      (fresh config) calls)
    (hend : (Runs.final (Log.exec crc) (fresh config) calls).nextOffset ≤ 2 ^ 63)
    (reopened : LogConfig) (offset k : Nat) (fails : FileOp → Bool) :
    let l := Runs.final (Log.exec crc) (fresh config) calls
    let done := (l.truncationOps offset).take k
    (l.disk.run fails done).Recovers crc reopened l ↔
      l.Settled offset fails done ∧ l.KeptFits reopened offset done := by
  obtain ⟨hok, hr⟩ := newLog_ok (newLog_nil crc config .none)
  obtain ⟨h1, h2, h3⟩ := Runs.invariant_guarded (Log.exec crc)
    (P := fun l => l.Ok crc ∧ l.Roomy ∧ l.Readable)
    (fun l x h hx => ⟨(h.1.exec hx.1).1, (h.1.exec hx.1).2 hx.2.1 h.2.1,
      h.2.2.exec h.1 hx.1 hx.2.2⟩)
    ⟨hok, hr hroom, readable_fresh config⟩ calls hg
  exact h1.crash_iff h2 h3 hend reopened offset k fails

/-- Three segments of one batch each. -/
def stackRun : List (Call × Faults) :=
  List.replicate 3 (.appendRaw (sampleRequest 1) 1, .none)

def stackLog : Log := Runs.final (Log.exec crc32c) (fresh tightConfig) stackRun

/-- The truncation of the second segment, run to its end. -/
theorem stopped_truncation_recovers_iff_stackLog :
    (stackLog.disk.run (fun _ => false) ((stackLog.truncationOps 1).take 4)).Recovers crc32c
      tightConfig stackLog := by
  have hcall : ∀ l : Log, l.Safe (.appendRaw (sampleRequest 1) 1, .none) ∧
      KeepsRoom (.appendRaw (sampleRequest 1) 1, .none) ∧
        Short (.appendRaw (sampleRequest 1) 1, .none) :=
    fun l => ⟨⟨Faults.none_harmless, trivial⟩, trivial, trivial⟩
  refine (stopped_truncation_recovers_iff crc32c tightConfig (by decide) stackRun ?_
    (by decide +kernel) tightConfig 1 4 (fun _ => false)).mpr (by decide +kernel)
  exact ⟨hcall _, hcall _, hcall _, trivial⟩

/-- Stopped after the cut, before the file of the third segment is removed: the
directory opens with offset 1 missing and the batch at offset 2 back. -/
theorem stopped_truncation_gap :
    (stackLog.truncationOps 1).take 1 = [.truncate 1 0] ∧
      ((newLog crc32c tightConfig (stackLog.disk.run (fun _ => false) [.truncate 1 0]).files
        (stackLog.disk.run (fun _ => false) [.truncate 1 0]).checkpoint .none).toOption.map
          fun l => (l.oldestOffset, l.nextOffset, l.batches.map baseOffset)) =
        some (0, 3, [0, 2]) ∧
      ¬ (stackLog.disk.run (fun _ => false) [.truncate 1 0]).Recovers crc32c tightConfig
        stackLog := by
  have hopen : ((newLog crc32c tightConfig
      (stackLog.disk.run (fun _ => false) [.truncate 1 0]).files
      (stackLog.disk.run (fun _ => false) [.truncate 1 0]).checkpoint .none).toOption.map
        fun l => (l.oldestOffset, l.nextOffset, l.batches.map baseOffset)) =
      some (0, 3, [0, 2]) := by
    decide +kernel
  refine ⟨by decide +kernel, hopen, ?_⟩
  rintro ⟨l', hl', -, hpre⟩
  rw [hl', Except.toOption, Option.map_some] at hopen
  have hbases : l'.batches.map baseOffset = [0, 2] :=
    (Prod.mk.inj (Prod.mk.inj (Option.some.inj hopen)).2).2
  have hstack : stackLog.batches.map baseOffset = [0, 1, 2] := by decide +kernel
  have := hpre.map baseOffset
  rw [hbases, hstack] at this
  revert this
  decide

/-- In every log that safe calls make, the file operations of a truncation, in their order
and with any removals failing, leave the directory of the log that it returns. -/
theorem truncation_operations_exact (crc : Checksum) (config : LogConfig)
    (hroom : (indexEntrySize : Int) ≤ (applyDefaults config).maxIndexBytes.toInt)
    (calls : List (Call × Faults))
    (hg : Runs.Guarded (Log.exec crc) (fun l x => l.Safe x ∧ KeepsRoom x) (fresh config) calls)
    {io : Faults} (ht : io.truncateFails = false) (hc : io.checkpointFails = false)
    (offset : Nat) :
    let l := Runs.final (Log.exec crc) (fresh config) calls
    (l.truncateTo offset io).2.disk = l.disk.run io.fails (l.truncationOps offset) := by
  obtain ⟨hok, hr⟩ := newLog_ok (newLog_nil crc config .none)
  obtain ⟨h1, h2⟩ := Runs.invariant_guarded (Log.exec crc) (P := fun l => l.Ok crc ∧ l.Roomy)
    (fun l x h hx => ⟨(h.1.exec hx.1).1, (h.1.exec hx.1).2 hx.2 h.2⟩) ⟨hok, hr hroom⟩ calls hg
  exact h1.truncateTo_disk h2 ht hc offset

theorem truncation_operations_exact_stackLog :
    (stackLog.truncateTo 1 .none).2.disk =
      stackLog.disk.run Faults.none.fails (stackLog.truncationOps 1) := by
  have hcall : ∀ l : Log, l.Safe (.appendRaw (sampleRequest 1) 1, .none) ∧
      KeepsRoom (.appendRaw (sampleRequest 1) 1, .none) :=
    fun l => ⟨⟨Faults.none_harmless, trivial⟩, trivial⟩
  exact truncation_operations_exact crc32c tightConfig (by decide) stackRun
    ⟨hcall _, hcall _, hcall _, trivial⟩ rfl rfl 1

end Log

end MessageBroker.Storage
