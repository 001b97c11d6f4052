import MessageBroker.Storage.EndOffset

/-!
# What the raw appends accept, and where it goes

The lemmas about scanning say what an accepted request is. The converses are
here: valid batches in sequence are scanned, pass the checks of a replica append
and are taken by the segment. If the next segment file is not there yet, storing
them is one append to the active segment, or to a fresh one after it.
-/
namespace MessageBroker.Storage

open Lib.Bytes Lib.Tiling

/-! ## Scanning -/

/-- A batch that `scanRawBatches` takes. -/
structure Scans (crc : Checksum) (c : ByteString) : Prop extends Valid crc c where
  count_lt : recordCount c < 2 ^ 31

theorem validateRawBatch_count {crc : Checksum} {data : ByteString} {x : Nat × Nat}
    (h : validateRawBatch crc data = .ok x) : recordCount data < 2 ^ 31 := by
  by_contra hge
  have hneg : int32 (recordCount data) ≤ 0 := Int.le_of_lt (int32_neg (field_lt data 57 4) hge)
  unfold validateRawBatch at h
  simp only [hneg, if_true] at h
  split_ifs at h

/-- A batch passes validation, whatever follows it. -/
theorem Scans.validateRawBatch {crc : Checksum} {c : ByteString} (h : Scans crc c)
    (rest : ByteString) :
    validateRawBatch crc (c ++ rest) = .ok (c.length, lastOffsetDelta c) := by
  have h61 := h.length_ge
  have hlen : (c ++ rest).length = c.length + rest.length := List.length_append
  have hfield : ∀ {i w}, i + w ≤ 61 → field (c ++ rest) i w = field c i w :=
    fun hi => field_append_left (by omega)
  have hblen : batchLength (c ++ rest) = batchLength c := hfield (by omega)
  have hsize : declaredSize (c ++ rest) = c.length := by
    rw [declaredSize, hblen]
    exact h.size_eq
  have hlod : lastOffsetDelta (c ++ rest) = lastOffsetDelta c := hfield (by omega)
  have hcount : recordCount (c ++ rest) = recordCount c := hfield (by omega)
  have hmagic : magic (c ++ rest) = 2 := (hfield (by omega)).trans h.magic_eq
  have hsum := h.count_eq
  unfold Storage.validateRawBatch recordBatchOverhead
  simp only [hsize, hblen, hlod, hcount, int32_of_lt h.length_lt, int32_of_lt h.delta_lt,
    int32_of_lt h.count_lt]
  rw [if_neg (by omega), if_neg (by omega), if_neg (by omega), if_neg (by omega),
    if_neg (not_not.mpr hmagic), if_neg (not_not.mpr ?_), if_neg (by omega), if_neg (by omega),
    if_neg (by omega)]
  rw [List.take_left' rfl, h.crc_eq]
  exact (hfield (by omega)).symm

theorem scanLoop_scans {crc : Checksum} {cs : List ByteString} :
    ∀ {fuel pos : Nat}, (∀ c ∈ cs, Scans crc c) → cs.length ≤ fuel →
      scanLoop crc fuel pos cs.flatten = .ok (boundsFrom pos cs) := by
  induction cs with
  | nil =>
    intro fuel pos _ _
    cases fuel <;> rfl
  | cons c cs ih =>
    intro fuel pos hall hfuel
    have hc := hall c List.mem_cons_self
    have h61 := hc.length_ge
    have hbase : baseOffset (c ++ cs.flatten) = baseOffset c := field_append_left (by omega)
    have hepoch : partitionLeaderEpoch (c ++ cs.flatten) = partitionLeaderEpoch c := by
      rw [partitionLeaderEpoch, partitionLeaderEpoch, field_append_left (by omega)]
    have hne : c ++ cs.flatten ≠ [] :=
      List.append_ne_nil_of_left_ne_nil (List.ne_nil_of_length_pos (by omega)) _
    obtain ⟨fuel, rfl⟩ : ∃ k, fuel = k + 1 := ⟨fuel - 1, by rw [List.length_cons] at hfuel; omega⟩
    rw [List.length_cons] at hfuel
    rw [List.flatten_cons, scanLoop, if_neg hne, hc.validateRawBatch]
    simp only [hbase, hepoch, if_neg (Nat.not_le.mpr hc.base_lt), List.drop_left,
      ih (fun x hx => hall x (List.mem_cons_of_mem _ hx)) (Nat.le_of_succ_le_succ hfuel)]
    rfl

theorem scanRawBatches_flatten {crc : Checksum} {cs : List ByteString}
    (h : ∀ c ∈ cs, Scans crc c) : scanRawBatches crc cs.flatten = .ok (boundsFrom 0 cs) :=
  scanLoop_scans h (length_le_flatten fun c hc => (h c hc).toStored)

theorem scanLoop_counts {crc : Checksum} {cs : List ByteString} :
    ∀ {fuel pos : Nat} {bounds : List BatchBounds}, (∀ c ∈ cs, Valid crc c) → cs.length ≤ fuel →
      scanLoop crc fuel pos cs.flatten = .ok bounds → ∀ c ∈ cs, recordCount c < 2 ^ 31 := by
  induction cs with
  | nil => exact fun _ _ _ c hc => absurd hc List.not_mem_nil
  | cons c cs ih =>
    intro fuel pos bounds hall hfuel h
    have h61 := (hall c List.mem_cons_self).length_ge
    have hne : c ++ cs.flatten ≠ [] :=
      List.append_ne_nil_of_left_ne_nil (List.ne_nil_of_length_pos (by omega)) _
    obtain ⟨fuel, rfl⟩ : ∃ k, fuel = k + 1 := ⟨fuel - 1, by rw [List.length_cons] at hfuel; omega⟩
    rw [List.length_cons] at hfuel
    rw [List.flatten_cons, scanLoop, if_neg hne] at h
    split at h
    · cases h
    rename_i size lod hv
    split at h
    · cases h
    split at h
    · cases h
    rename_i more hmore
    have hcount := validateRawBatch_count hv
    rw [recordCount, field_append_left (by omega)] at hcount
    -- the batch is as long as its header says
    obtain ⟨hsize, -⟩ := validateRawBatch_ok hv
    rw [declaredSize_append (by omega), (hall c List.mem_cons_self).size_eq] at hsize
    subst hsize
    rw [List.drop_left] at hmore
    intro x hx
    rcases List.mem_cons.mp hx with rfl | hx
    · exact hcount
    · exact ih (fun y hy => hall y (List.mem_cons_of_mem _ hy)) (Nat.le_of_succ_le_succ hfuel)
        hmore x hx

/-- What is scanned is a sequence of such batches. -/
theorem scans_of_scanRawBatches {crc : Checksum} {data : ByteString} {bounds : List BatchBounds}
    (h : scanRawBatches crc data = .ok bounds) :
    (rawBatches data).flatten = data ∧ (∀ c ∈ rawBatches data, Scans crc c) ∧
      bounds = boundsFrom 0 (rawBatches data) := by
  obtain ⟨cs, rfl, hvalid, rfl⟩ := scanRawBatches_ok h
  have hstored : ∀ c ∈ cs, Stored crc c := fun c hc => (hvalid c hc).toStored
  rw [rawBatches_flatten hstored]
  exact ⟨rfl, fun c hc => ⟨hvalid c hc,
    scanLoop_counts hvalid (length_le_flatten hstored) h c hc⟩, rfl⟩

/-! ## Stamping -/

/-- Two batches that differ in their offset and epoch fields at most. -/
structure Restamped (sent stored : ByteString) : Prop where
  length_eq : stored.length = sent.length
  kept : ∀ k, 8 ≤ k ∧ k < 12 ∨ 16 ≤ k → stored[k]? = sent[k]?

theorem restamped_stamp {c : ByteString} (h61 : 61 ≤ c.length) (leaderEpoch : Int32)
    (offset : Nat) : Restamped c (stamp leaderEpoch offset c) where
  length_eq := length_stamp leaderEpoch offset h61
  kept k hk := by
    have h8 : (beBytes 8 offset).length = 8 := length_beBytes 8 offset
    have h4 : (beBytes 4 leaderEpoch.toUInt32.toNat).length = 4 := length_beBytes 4 _
    have hpatch : (patch c 0 (beBytes 8 offset)).length = c.length :=
      length_patch (by rw [h8]; omega)
    rw [stamp, getElem?_patch (by rw [hpatch, h4]; omega) (by rw [h4]; omega),
      getElem?_patch (by rw [h8]; omega) (by rw [h8]; omega)]

theorem forall₂_stampAll {crc : Checksum} {leaderEpoch : Int32} {cs : List ByteString} :
    ∀ {offset : Nat}, (∀ c ∈ cs, Stored crc c) →
      List.Forall₂ Restamped cs (stampAll leaderEpoch offset cs) := by
  induction cs with
  | nil => exact fun _ => .nil
  | cons c cs ih =>
    intro offset h
    exact .cons (restamped_stamp (h c List.mem_cons_self).length_ge leaderEpoch offset)
      (ih fun x hx => h x (List.mem_cons_of_mem _ hx))

theorem Scans.stamp {crc : Checksum} {c : ByteString} (h : Scans crc c) (leaderEpoch : Int32)
    {offset : Nat} (hoff : offset < 2 ^ 63) : Scans crc (stamp leaderEpoch offset c) := by
  have h61 := h.length_ge
  have hfield : ∀ {i w}, (8 ≤ i ∧ i + w ≤ 12) ∨ 16 ≤ i →
      field (Storage.stamp leaderEpoch offset c) i w = field c i w :=
    field_stamp leaderEpoch offset h61
  have hcount : recordCount (Storage.stamp leaderEpoch offset c) = recordCount c :=
    hfield (by omega)
  have hlod := lastOffsetDelta_stamp leaderEpoch offset h61
  refine ⟨⟨h.toStored.stamp leaderEpoch offset, ?_, ?_, ?_, ?_⟩, ?_⟩
  · rw [hlod]
    exact h.delta_lt
  · rw [hcount, hlod]
    exact h.count_eq
  · rw [baseOffset_stamp leaderEpoch offset h61 (by omega)]
    exact hoff
  · exact (hfield (by omega)).trans_lt h.length_lt
  · rw [hcount]
    exact h.count_lt

theorem scans_stampAll {crc : Checksum} (leaderEpoch : Int32) {cs : List ByteString} :
    ∀ {offset : Nat}, (∀ c ∈ cs, Scans crc c) → offset + offsetsOf cs ≤ 2 ^ 63 →
      ∀ s ∈ stampAll leaderEpoch offset cs, Scans crc s := by
  induction cs with
  | nil => exact fun _ _ s hs => absurd hs List.not_mem_nil
  | cons c cs ih =>
    intro offset h hle s hs
    have hsum : offsetsOf (c :: cs) = lastOffsetDelta c + 1 + offsetsOf cs := rfl
    rcases List.mem_cons.mp hs with rfl | hs
    · exact (h c List.mem_cons_self).stamp leaderEpoch (by omega)
    · exact ih (fun x hx => h x (List.mem_cons_of_mem _ hx)) (by omega) s hs

theorem stampAll_ne_nil {leaderEpoch : Int32} {offset : Nat} {cs : List ByteString} (h : cs ≠ []) :
    stampAll leaderEpoch offset cs ≠ [] := by
  obtain ⟨c, cs, rfl⟩ := List.exists_cons_of_ne_nil h
  exact List.cons_ne_nil _ _

theorem offsetsOf_stampAll {crc : Checksum} (leaderEpoch : Int32) {cs : List ByteString} :
    ∀ (offset : Nat), (∀ c ∈ cs, Stored crc c) →
      offsetsOf (stampAll leaderEpoch offset cs) = offsetsOf cs := by
  induction cs with
  | nil => exact fun _ _ => rfl
  | cons c cs ih =>
    intro offset h
    have h61 := (h c List.mem_cons_self).length_ge
    have hsum : ∀ c cs, offsetsOf (c :: cs) = lastOffsetDelta c + 1 + offsetsOf cs :=
      fun _ _ => rfl
    rw [stampAll, hsum, hsum, lastOffsetDelta_stamp leaderEpoch offset h61,
      ih _ fun x hx => h x (List.mem_cons_of_mem _ hx)]

/-- With room for its offsets the loop does not overflow. -/
theorem stampLoop_some (leaderEpoch : Int32) (assign : Bool) {cs : List ByteString} :
    ∀ (pos : Nat) (data : ByteString) {offset : Nat}, offset + offsetsOf cs < 2 ^ 64 →
      ∃ x, stampLoop leaderEpoch assign (boundsFrom pos cs) data offset = some x := by
  induction cs with
  | nil => exact fun _ _ _ _ => ⟨_, rfl⟩
  | cons c cs ih =>
    intro pos data offset h
    have hsum : offsetsOf (c :: cs) = lastOffsetDelta c + 1 + offsetsOf cs := rfl
    rw [boundsFrom, stampLoop]
    simp only
    rw [if_neg (by omega)]
    exact ih _ _ (by omega)

/-! ## The checks of a replica append -/

/-- Batches that continue one another pass the checks. -/
theorem Log.transitionsLoop_of_tiles {crc : Checksum} {cs : List ByteString} :
    ∀ (i pos pos' : Nat) {last : Nat} {c : ByteString}, Valid crc c → (∀ x ∈ cs, Valid crc x) →
      BatchTiles (endOffset c) last cs →
      (c :: cs).Pairwise (fun x y => partitionLeaderEpoch x ≤ partitionLeaderEpoch y) →
      ∃ entries, transitionsLoop i
        ⟨pos, c.length, lastOffsetDelta c, baseOffset c, partitionLeaderEpoch c⟩
        (boundsFrom pos' cs) = .ok entries := by
  induction cs with
  | nil => exact fun _ _ _ _ _ _ _ _ _ => ⟨_, rfl⟩
  | cons x cs ih =>
    intro i pos pos' last c hc hcs ht hord
    have hend : (baseOffset c + lastOffsetDelta c + 1) % 2 ^ 64 = endOffset c := by
      have h1 := hc.base_lt
      have h2 := hc.delta_lt
      exact Nat.mod_eq_of_lt (by omega)
    obtain ⟨hle, hrest⟩ := List.pairwise_cons.mp hord
    obtain ⟨entries, he⟩ := ih (i + 1) pos' (pos' + x.length)
      (hcs x List.mem_cons_self) (fun y hy => hcs y (List.mem_cons_of_mem _ hy)) ht.2.2 hrest
    have hstep := hle x List.mem_cons_self
    simp only [boundsFrom, transitionsLoop, hend]
    rw [if_neg (not_not.mpr ht.1), if_neg (not_lt.mpr hstep), he]
    exact ⟨_, rfl⟩

/-- A response whose accepted batches continue the log gets past the checks. -/
theorem Log.appendReplicaRaw_of_scans {crc : Checksum} {l : Log} {ds : List ByteString}
    {fetchEpoch : Int32} {last : Nat} (hds : ∀ c ∈ ds, Scans crc c)
    (hne : acceptedBatches fetchEpoch ds ≠ [])
    (ht : BatchTiles l.nextOffset last (acceptedBatches fetchEpoch ds))
    (hord : (acceptedBatches fetchEpoch ds).Pairwise
      fun x y => partitionLeaderEpoch x ≤ partitionLeaderEpoch y) (io : Faults) :
    l.appendReplicaRaw crc ds.flatten fetchEpoch io =
      match l.assignLeaderEpochs (epochStarts none (acceptedBatches fetchEpoch ds)) io with
      | (.error e, l₁) => (.error (.epoch e), l₁)
      | (.ok (), l₁) =>
        match l₁.store crc (acceptedBatches fetchEpoch ds).flatten
            (boundsFrom 0 (acceptedBatches fetchEpoch ds)) 0 false io with
        | (.error e, l') => (.error e, l')
        | (.ok (_, total), l') => (.ok total, l') := by
  have hvalid : ∀ c ∈ acceptedBatches fetchEpoch ds, Valid crc c :=
    fun c hc => (hds c (List.takeWhile_subset _ hc)).toValid
  obtain ⟨htake, hbytes⟩ := boundsFrom_accepted fetchEpoch ds []
  rw [List.length_nil] at htake hbytes
  obtain ⟨c, cs, hcs⟩ := List.exists_cons_of_ne_nil hne
  rw [hcs] at hvalid ht hord htake hbytes ⊢
  have hrest : ∀ x ∈ cs, Valid crc x := fun x hx => hvalid x (List.mem_cons_of_mem _ hx)
  obtain ⟨entries, htrans⟩ := transitionsLoop_of_tiles 1 0 c.length
    (hvalid c List.mem_cons_self) hrest ht.2.2 hord
  obtain ⟨-, -, rfl⟩ := transitionsLoop_ok (hvalid c List.mem_cons_self) hrest htrans
  have hdsne : boundsFrom 0 ds ≠ [] := by
    intro hnil
    rw [hnil] at htake
    cases htake
  have hstarts : (⟨partitionLeaderEpoch c, baseOffset c⟩ : EpochEntry) ::
      epochStarts (some (partitionLeaderEpoch c)) cs = epochStarts none (c :: cs) := by
    simp [epochStarts]
  rw [List.nil_append, List.nil_append] at hbytes
  unfold Log.appendReplicaRaw
  rw [scanRawBatches_flatten hds]
  simp only [if_neg hdsne, htake, hbytes]
  simp only [boundsFrom, Nat.zero_add]
  rw [if_neg (not_not.mpr ht.1), ← hstarts]
  exact htrans ▸ rfl

/-! ## Where the batches go -/

namespace Log

/-- The log after the roll, if bytes of this size need one. -/
def landing (l : Log) (size : Nat) : Log := if l.RollsFor size then l.rolled else l

/-- An append to the active segment, with its index entry. -/
def storeInActive (l : Log) (data : ByteString) (bounds : List BatchBounds) (leaderEpoch : Int32)
    (assign : Bool) (fault : Option Nat) : Except LogError (Nat × Nat) × Log :=
  match l.activePair.segment.appendRawBatches data bounds leaderEpoch assign fault with
  | (.error e, s) => (.error (.segment e), l.withSegment s)
  | (.ok (assigned, pos, total), s) =>
    match (l.withSegment s).noteAppend assigned pos data.length with
    | (.error e, l) => (.error e, l)
    | (.ok (), l) => (.ok (assigned, total), l)

/-- The bytes do not fit behind those of the active segment. -/
def Overflows (l : Log) (size : Nat) : Prop :=
  0 < l.activePair.segment.currentSize ∧
    l.activePair.segment.maxSize.toInt < l.activePair.segment.currentSize + size

theorem not_overflows_landing (l : Log) (size : Nat) : ¬ (l.landing size).Overflows size := by
  unfold landing
  split
  · exact fun h => absurd h.1 (Nat.lt_irrefl 0)
  · rename_i hroom
    exact fun h => hroom (.inr h)

theorem appendRawBatches_full {l : Log} {data : ByteString} {bounds : List BatchBounds}
    {leaderEpoch : Int32} {assign : Bool} {fault : Option Nat} {s : Segment}
    (h : l.activePair.segment.appendRawBatches data bounds leaderEpoch assign fault =
      (.error .segmentFull, s)) : l.Overflows data.length := by
  unfold Segment.appendRawBatches at h
  split at h
  · assumption
  · split at h
    · cases h
    · split at h
      · cases h
      · rcases fault with _ | k <;> cases h

theorem store_storeInActive {crc : Checksum} {l : Log} {data : ByteString}
    {bounds : List BatchBounds}
    {leaderEpoch : Int32} {assign : Bool} {io : Faults} {l₁ : Log}
    (hroll : l.rollIfFull crc io = (.ok (), l₁)) (hfit : ¬ l₁.Overflows data.length) :
    l.store crc data bounds leaderEpoch assign io =
      l₁.storeInActive data bounds leaderEpoch assign io.writeFails := by
  unfold store storeInActive
  rw [hroll]
  simp only
  rcases ha : l₁.activePair.segment.appendRawBatches data bounds leaderEpoch assign
    io.writeFails with ⟨e | x, s⟩
  · cases e with
    | segmentFull => exact absurd (appendRawBatches_full ha) hfit
    | _ => rfl
  · rfl

/-- Batches that fit are stored and noted. -/
theorem storeInActive_ok {crc : Checksum} {l : Log} {ds : List ByteString}
    (hds : ∀ c ∈ ds, Stored crc c) (hne : ds ≠ []) (leaderEpoch : Int32) (assign : Bool)
    (hkeep : assign = false → ∃ last, BatchTiles l.nextOffset last ds)
    (hfit : ¬ l.Overflows ds.flatten.length) (hidx : l.activePair.index.isFull = false)
    (hlt : l.nextOffset + offsetsOf ds < 2 ^ 64) :
    ∃ l', l.storeInActive ds.flatten (boundsFrom 0 ds) leaderEpoch assign none =
      (.ok (l.nextOffset, offsetsOf ds), l') := by
  have htaken : ∃ x s, l.activePair.segment.appendRawBatches ds.flatten (boundsFrom 0 ds)
      leaderEpoch assign none = (.ok x, s) := by
    obtain ⟨⟨buf, last⟩, hst⟩ := stampLoop_some leaderEpoch assign 0 ds.flatten hlt
    unfold Overflows at hfit
    unfold Segment.appendRawBatches
    have hassigned : (if assign then some l.activePair.segment.nextOffset
        else (boundsFrom 0 ds).head?.map (·.baseOffset)) = some l.nextOffset :=
      assigned_eq hne hkeep
    rw [if_neg hfit, hassigned]
    simp only [hst]
    exact ⟨_, _, rfl⟩
  obtain ⟨x, s, hs⟩ := htaken
  rcases Segment.appendRawBatches_moves hds hne l.activePair.segment leaderEpoch assign none
      hkeep with ⟨e, s', he, -⟩ | ⟨s', he, -⟩
  · cases hs.symm.trans he
  · obtain ⟨r, l', hn, -, hok⟩ := noteAppend_ends (l.withSegment s') l.nextOffset
      l.activePair.segment.currentSize ds.flatten.length
    have hr := hok hidx
    subst hr
    refine ⟨l', ?_⟩
    unfold storeInActive
    rw [he]
    show (match (l.withSegment s').noteAppend l.nextOffset l.activePair.segment.currentSize
        ds.flatten.length with
      | (.error e, l) => ((.error e, l) : Except LogError (Nat × Nat) × Log)
      | (.ok (), l₁) => (.ok (l.nextOffset, offsetsOf ds), l₁)) = _
    rw [hn]

theorem store_overflows {crc : Checksum} {l : Log} {data : ByteString} {bounds : List BatchBounds}
    {leaderEpoch : Int32} {assign : Bool} {io : Faults} {l₁ : Log}
    (hroll : l.rollIfFull crc io = (.ok (), l₁)) (hover : l₁.Overflows data.length) :
    l.store crc data bounds leaderEpoch assign io =
      match l₁.roll crc io with
      | (.error e, l₂) => (.error e, l₂)
      | (.ok (), l₂) => l₂.storeInActive data bounds leaderEpoch assign io.writeFails := by
  have ha : l₁.activePair.segment.appendRawBatches data bounds leaderEpoch assign io.writeFails =
      (.error .segmentFull, l₁.activePair.segment) := if_pos hover
  unfold store
  rw [hroll]
  simp only [ha]
  rfl

/-- Storing, when a roll would start on an empty file: one append to the active
segment, after a roll if the bytes need one. -/
theorem store_eq {crc : Checksum} {l : Log} (hfile : l.fileAt l.nextOffset = [])
    (hstrays : l.strays = []) (data : ByteString) (bounds : List BatchBounds)
    (leaderEpoch : Int32) (assign : Bool) (io : Faults) :
    l.store crc data bounds leaderEpoch assign io =
      if l.RollsFor data.length ∧ io.rollFails = true then (.error .rollFiles, l)
      else (l.landing data.length).storeInActive data bounds leaderEpoch assign io.writeFails := by
  have hroll := roll_fresh crc hfile hstrays io
  have hland : l.RollsFor data.length → l.landing data.length = l.rolled := fun h => if_pos h
  have hempty : ¬ l.rolled.Overflows data.length := fun h => absurd h.1 (Nat.lt_irrefl 0)
  by_cases hfull : l.full = true
  · have hneeds : l.RollsFor data.length := .inl hfull
    have hif : l.rollIfFull crc io = l.roll crc io := if_pos hfull
    cases hf : io.rollFails with
    | true =>
      rw [hf, if_pos rfl] at hroll
      rw [if_pos ⟨hneeds, rfl⟩, store, hif, hroll]
    | false =>
      rw [hf, if_neg Bool.false_ne_true] at hroll
      rw [if_neg (fun h => Bool.false_ne_true h.2), hland hneeds]
      exact store_storeInActive (hif.trans hroll) hempty
  · have hif : l.rollIfFull crc io = (.ok (), l) := if_neg hfull
    by_cases hover : l.Overflows data.length
    · have hneeds : l.RollsFor data.length := .inr hover
      rw [store_overflows hif hover, hroll]
      cases hf : io.rollFails with
      | true => rw [if_pos rfl, if_pos ⟨hneeds, rfl⟩]
      | false =>
        rw [if_neg Bool.false_ne_true, if_neg (fun h => Bool.false_ne_true h.2), hland hneeds]
    · have hstay : ¬ l.RollsFor data.length := fun h => h.elim hfull hover
      rw [if_neg (fun h => hstay h.1), landing, if_neg hstay]
      exact store_storeInActive hif hover

/-- Bytes that were stored went to the active segment, or after a roll to the next
one, or after a second roll if that one had bytes already. -/
theorem store_ok_cases {crc : Checksum} {l l' : Log} {data : ByteString}
    {bounds : List BatchBounds} {leaderEpoch : Int32} {assign : Bool} {io : Faults}
    {x : Nat × Nat} (h : l.store crc data bounds leaderEpoch assign io = (.ok x, l')) :
    ∃ l₁, l₁.storeInActive data bounds leaderEpoch assign io.writeFails = (.ok x, l') ∧
      (¬ l.RollsFor data.length ∧ l₁ = l ∨
        l.RollsFor data.length ∧ ∃ l₂, l.roll crc io = (.ok (), l₂) ∧
          (l₁ = l₂ ∨ l₂.Overflows data.length ∧ l₂.roll crc io = (.ok (), l₁))) := by
  by_cases hfull : l.full = true
  · have hif : l.rollIfFull crc io = l.roll crc io := if_pos hfull
    rcases hroll : l.roll crc io with ⟨e | _, l₂⟩
    · rw [store, hif, hroll] at h
      cases h
    have hif₂ : l.rollIfFull crc io = (.ok (), l₂) := hif.trans hroll
    by_cases hover : l₂.Overflows data.length
    · rw [store_overflows hif₂ hover] at h
      rcases hroll₂ : l₂.roll crc io with ⟨e | _, l₁⟩
      · rw [hroll₂] at h
        cases h
      · rw [hroll₂] at h
        exact ⟨l₁, h, .inr ⟨.inl hfull, l₂, rfl, .inr ⟨hover, hroll₂⟩⟩⟩
    · rw [store_storeInActive hif₂ hover] at h
      exact ⟨l₂, h, .inr ⟨.inl hfull, l₂, rfl, .inl rfl⟩⟩
  · have hif : l.rollIfFull crc io = (.ok (), l) := if_neg hfull
    by_cases hover : l.Overflows data.length
    · rw [store_overflows hif hover] at h
      rcases hroll : l.roll crc io with ⟨e | _, l₂⟩
      · rw [hroll] at h
        cases h
      · rw [hroll] at h
        exact ⟨l₂, h, .inr ⟨.inr hover, l₂, rfl, .inl rfl⟩⟩
    · rw [store_storeInActive hif hover] at h
      exact ⟨l, h, .inl ⟨fun hr => hr.elim hfull hover, rfl⟩⟩

/-- The index of the segment that takes the batches has room for an entry. -/
theorem landing_index {l : Log} (hroom : (indexEntrySize : Int) ≤ l.config.maxIndexBytes.toInt)
    (size : Nat) : (l.landing size).activePair.index.isFull = false := by
  unfold landing
  split
  · exact fresh_index_room hroom l.nextOffset
  · rename_i hstay
    by_contra hfull
    refine hstay (.inl (Bool.or_eq_true_iff.mpr (.inr ?_)))
    exact Bool.not_eq_false _ ▸ hfull

theorem landing_next (l : Log) (size : Nat) : (l.landing size).nextOffset = l.nextOffset := by
  unfold landing
  split <;> rfl

/-- Without failing file operations, and with room for an index entry and for the
offsets, the batches are stored. -/
theorem store_takes {crc : Checksum} {l : Log} (hfile : l.fileAt l.nextOffset = [])
    (hstrays : l.strays = []) (hroom : (indexEntrySize : Int) ≤ l.config.maxIndexBytes.toInt)
    {ds : List ByteString} (hds : ∀ c ∈ ds, Stored crc c) (hne : ds ≠ []) (leaderEpoch : Int32)
    (assign : Bool) (hkeep : assign = false → ∃ last, BatchTiles l.nextOffset last ds)
    (hlt : l.nextOffset + offsetsOf ds < 2 ^ 64) :
    ∃ l', l.store crc ds.flatten (boundsFrom 0 ds) leaderEpoch assign .none =
      (.ok (l.nextOffset, offsetsOf ds), l') := by
  have hnext := l.landing_next ds.flatten.length
  obtain ⟨l', hl'⟩ := storeInActive_ok hds hne leaderEpoch assign (by rwa [hnext])
    (l.not_overflows_landing ds.flatten.length) (landing_index hroom _) (by rwa [hnext])
  refine ⟨l', ?_⟩
  rw [store_eq hfile hstrays, if_neg fun h => Bool.false_ne_true h.2, ← hnext]
  exact hl'

end Log

end MessageBroker.Storage
