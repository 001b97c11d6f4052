import MessageBroker.Storage.Layout

/-!
# What the append paths write

A scan that accepts a request has cut it into valid batches. The leader path
stamps each with its offset and epoch, two fields outside the checksum; the
replica path stores them as they are; the internal path encodes one batch. Each
extends the batches of the segment by batches that continue its offsets.
-/
namespace MessageBroker.Storage

open Lib.Bytes Lib.Tiling

/-! ## Scanning -/

/-- What `scanRawBatches` guarantees of each batch. -/
structure Valid (crc : Checksum) (c : ByteString) : Prop extends Stored crc c where
  delta_lt : lastOffsetDelta c < 2 ^ 31
  count_eq : recordCount c = lastOffsetDelta c + 1
  base_lt : baseOffset c < 2 ^ 63
  length_lt : batchLength c < 2 ^ 31

theorem validateRawBatch_ok {crc : Checksum} {data : ByteString} {size lod : Nat}
    (h : validateRawBatch crc data = .ok (size, lod)) :
    size = declaredSize data ∧ lod = lastOffsetDelta data ∧ size ≤ data.length ∧
      Stored crc (data.take size) ∧ lod < 2 ^ 31 ∧ recordCount data = lod + 1 ∧
      batchLength data < 2 ^ 31 := by
  unfold validateRawBatch at h
  split at h
  · cases h
  rename_i hshort
  split at h
  · cases h
  rename_i hneg
  simp only at h
  split at h
  · cases h
  rename_i hmin
  split at h
  · cases h
  rename_i htrunc
  split at h
  · cases h
  rename_i hmagic
  split at h
  · cases h
  rename_i hcrc
  split at h
  · cases h
  rename_i hlod
  split at h
  · cases h
  rename_i hcount
  split at h
  · cases h
  rename_i hcons
  cases h
  have h32 : lastOffsetDelta data < 2 ^ 32 := field_lt data 23 4
  have hc32 : recordCount data < 2 ^ 32 := field_lt data 57 4
  have hlod31 : lastOffsetDelta data < 2 ^ 31 := by
    by_contra hge
    exact hlod (int32_neg h32 hge)
  have hcount31 : recordCount data < 2 ^ 31 := by
    by_contra hge
    exact hcount (Int.le_of_lt (int32_neg hc32 hge))
  have hlen : (data.take (declaredSize data)).length = declaredSize data := by
    rw [List.length_take]
    omega
  unfold recordBatchOverhead at hmin hshort
  have hfield : ∀ i w, i + w ≤ 61 → field (data.take (declaredSize data)) i w = field data i w :=
    fun i w hi => field_take (by omega)
  have hlen31 : batchLength data < 2 ^ 31 := by
    by_contra hge
    exact hneg (int32_neg (field_lt data 8 4) hge)
  refine ⟨rfl, rfl, by omega, ⟨?_, ?_, ?_, ?_⟩, hlod31, ?_, hlen31⟩
  · rw [hlen, declaredSize, declaredSize, batchLength, batchLength]
    simp only [declaredSize, batchLength] at hfield
    rw [hfield 8 4 (by omega)]
  · rw [hlen]
    exact Nat.le_of_not_lt hmin
  · exact (hfield 16 1 (by omega)).trans (not_not.mp hmagic)
  · exact (not_not.mp hcrc).trans (hfield 17 4 (by omega)).symm
  · rw [int32_of_lt hlod31, int32_of_lt hcount31] at hcons
    have := not_not.mp hcons
    omega

/-- The bounds of batches laid end to end from a position. -/
def boundsFrom : Nat → List ByteString → List BatchBounds
  | _, [] => []
  | pos, c :: cs =>
      ⟨pos, c.length, lastOffsetDelta c, baseOffset c, partitionLeaderEpoch c⟩ ::
        boundsFrom (pos + c.length) cs

theorem scanLoop_ok {crc : Checksum} : ∀ (fuel pos : Nat) {rest : ByteString}
    {bounds : List BatchBounds}, rest.length ≤ fuel → scanLoop crc fuel pos rest = .ok bounds →
    ∃ cs, rest = cs.flatten ∧ (∀ c ∈ cs, Valid crc c) ∧ bounds = boundsFrom pos cs := by
  intro fuel
  induction fuel with
  | zero =>
    intro pos rest bounds hlen h
    cases h
    have hnil : rest = [] := List.length_eq_zero_iff.mp (by omega)
    exact ⟨[], hnil, by simp, rfl⟩
  | succ fuel ih =>
    intro pos rest bounds hlen h
    unfold scanLoop at h
    split at h
    · rename_i hnil
      cases h
      exact ⟨[], hnil, by simp, rfl⟩
    split at h
    · cases h
    rename_i size lod hv
    split at h
    · cases h
    rename_i hbase
    split at h
    · cases h
    rename_i more hmore
    cases h
    obtain ⟨hsize, hlod, hle, hst, hlt, hcount, hlength⟩ := validateRawBatch_ok hv
    have h61 := hst.length_ge
    rw [List.length_take, Nat.min_eq_left hle] at h61
    obtain ⟨cs, hcs, hall, rfl⟩ := ih (pos + size)
      (by rw [List.length_drop]; omega) hmore
    have hfield : ∀ i w, i + w ≤ 61 → field (rest.take size) i w = field rest i w :=
      fun i w hi => field_take (by omega)
    refine ⟨rest.take size :: cs, ?_, ?_, ?_⟩
    · rw [List.flatten_cons, ← hcs, List.take_append_drop]
    · intro c hc
      rcases List.mem_cons.mp hc with rfl | hc
      · refine ⟨hst, ?_, ?_, ?_, ?_⟩
        · rw [hlod] at hlt
          exact (hfield 23 4 (by omega)).trans_lt hlt
        · rw [hlod] at hcount
          rw [recordCount, lastOffsetDelta, hfield 57 4 (by omega), hfield 23 4 (by omega)]
          exact hcount
        · rw [baseOffset, hfield 0 8 (by omega)]
          exact Nat.lt_of_not_le hbase
        · rw [batchLength, hfield 8 4 (by omega)]
          exact hlength
      · exact hall c hc
    · simp only [boundsFrom, List.length_take, Nat.min_eq_left hle, lastOffsetDelta, baseOffset,
        partitionLeaderEpoch, hfield 23 4 (by omega), hfield 0 8 (by omega),
        hfield 12 4 (by omega)]
      rw [hlod]
      rfl

/-- A request that scans is a concatenation of valid batches. -/
theorem scanRawBatches_ok {crc : Checksum} {data : ByteString} {bounds : List BatchBounds}
    (h : scanRawBatches crc data = .ok bounds) :
    ∃ cs, data = cs.flatten ∧ (∀ c ∈ cs, Valid crc c) ∧ bounds = boundsFrom 0 cs :=
  scanLoop_ok data.length 0 (Nat.le_refl _) h

/-! ## Stamping -/

/-- A batch with its offset and epoch fields overwritten. -/
def stamp (leaderEpoch : Int32) (offset : Nat) (c : ByteString) : ByteString :=
  patch (patch c 0 (beBytes 8 offset)) 12 (beBytes 4 leaderEpoch.toUInt32.toNat)

/-- Consecutive batches stamped from an offset on. -/
def stampAll (leaderEpoch : Int32) : Nat → List ByteString → List ByteString
  | _, [] => []
  | offset, c :: cs =>
      stamp leaderEpoch offset c :: stampAll leaderEpoch (offset + (lastOffsetDelta c + 1)) cs

/-- The number of offsets that batches take. -/
def offsetsOf (cs : List ByteString) : Nat := (cs.map fun c => lastOffsetDelta c + 1).sum

theorem ofNat_toUInt32 (e : Int32) : Int32.ofNat e.toUInt32.toNat = e := by
  apply Int32.toBitVec_inj.mp
  simp

section Stamp

variable {c : ByteString} (leaderEpoch : Int32) (offset : Nat) (h61 : 61 ≤ c.length)

include h61

theorem length_stamp : (stamp leaderEpoch offset c).length = c.length := by
  have h1 : (patch c 0 (beBytes 8 offset)).length = c.length :=
    length_patch (by rw [length_beBytes]; omega)
  rw [stamp, length_patch (by rw [length_beBytes]; omega), h1]

/-- Stamping changes nothing outside its two fields. -/
theorem field_stamp {i w : Nat} (h : (8 ≤ i ∧ i + w ≤ 12) ∨ 16 ≤ i) :
    field (stamp leaderEpoch offset c) i w = field c i w := by
  have h1 : (patch c 0 (beBytes 8 offset)).length = c.length :=
    length_patch (by rw [length_beBytes]; omega)
  have hin : field (patch c 0 (beBytes 8 offset)) i w = field c i w :=
    field_patch_after (by rw [length_beBytes]; omega) (by rw [length_beBytes]; omega)
  rcases h with ⟨-, h⟩ | h
  · rw [stamp, field_patch_before (by omega) h, hin]
  · rw [stamp, field_patch_after (by rw [length_beBytes]; omega) (by rw [length_beBytes]; omega),
      hin]

theorem drop_stamp : (stamp leaderEpoch offset c).drop 21 = c.drop 21 := by
  have h1 : (patch c 0 (beBytes 8 offset)).length = c.length :=
    length_patch (by rw [length_beBytes]; omega)
  rw [stamp, drop_patch (by rw [length_beBytes]; omega) (by rw [length_beBytes]; omega),
    drop_patch (by rw [length_beBytes]; omega) (by rw [length_beBytes]; omega)]

theorem baseOffset_stamp (hoff : offset < 2 ^ 64) :
    baseOffset (stamp leaderEpoch offset c) = offset := by
  have h1 : (patch c 0 (beBytes 8 offset)).length = c.length :=
    length_patch (by rw [length_beBytes]; omega)
  have hself : field (patch c 0 (beBytes 8 offset)) 0 (beBytes 8 offset).length =
      beNat (beBytes 8 offset) := field_patch_self (by omega)
  rw [length_beBytes] at hself
  rw [baseOffset, stamp, field_patch_before (by omega) (by omega), hself]
  exact beNat_beBytes_of_lt hoff

theorem partitionLeaderEpoch_stamp :
    partitionLeaderEpoch (stamp leaderEpoch offset c) = leaderEpoch := by
  have h1 : (patch c 0 (beBytes 8 offset)).length = c.length :=
    length_patch (by rw [length_beBytes]; omega)
  have hself : field (stamp leaderEpoch offset c) 12
      (beBytes 4 leaderEpoch.toUInt32.toNat).length =
      beNat (beBytes 4 leaderEpoch.toUInt32.toNat) := field_patch_self (by omega)
  rw [length_beBytes] at hself
  rw [partitionLeaderEpoch, hself, beNat_beBytes_of_lt leaderEpoch.toUInt32.toNat_lt]
  exact ofNat_toUInt32 leaderEpoch

theorem lastOffsetDelta_stamp :
    lastOffsetDelta (stamp leaderEpoch offset c) = lastOffsetDelta c :=
  field_stamp leaderEpoch offset h61 (by omega)

end Stamp

theorem Stored.stamp {crc : Checksum} {c : ByteString} (h : Stored crc c) (leaderEpoch : Int32)
    (offset : Nat) : Stored crc (stamp leaderEpoch offset c) := by
  have h61 := h.length_ge
  have hlen := length_stamp leaderEpoch offset h61
  refine ⟨?_, ?_, ?_, ?_⟩
  · rw [hlen, ← h.size_eq, declaredSize, declaredSize, batchLength, batchLength,
      field_stamp leaderEpoch offset h61 (by omega)]
  · rw [hlen]
    exact h.min_size
  · exact (field_stamp leaderEpoch offset h61 (by omega)).trans h.magic_eq
  · rw [drop_stamp leaderEpoch offset h61, h.crc_eq]
    exact (field_stamp leaderEpoch offset h61 (by omega)).symm

theorem stampAll_stored {crc : Checksum} {leaderEpoch : Int32} {cs : List ByteString} :
    ∀ {offset : Nat}, (∀ c ∈ cs, Stored crc c) →
      ∀ c ∈ stampAll leaderEpoch offset cs, Stored crc c := by
  induction cs with
  | nil => intro offset _ c hc; simp [stampAll] at hc
  | cons x cs ih =>
    intro offset hall c hc
    rcases List.mem_cons.mp hc with rfl | hc
    · exact (hall x List.mem_cons_self).stamp leaderEpoch offset
    · exact ih (fun y hy => hall y (List.mem_cons_of_mem _ hy)) c hc

theorem stampAll_tiles {crc : Checksum} {leaderEpoch : Int32} {cs : List ByteString} :
    ∀ {offset : Nat}, (∀ c ∈ cs, Stored crc c) → offset + offsetsOf cs < 2 ^ 64 →
      BatchTiles offset (offset + offsetsOf cs) (stampAll leaderEpoch offset cs) := by
  induction cs with
  | nil => intro offset _ _; exact rfl
  | cons c cs ih =>
    intro offset hall hlt
    have h61 := (hall c List.mem_cons_self).length_ge
    have hsum : offsetsOf (c :: cs) = lastOffsetDelta c + 1 + offsetsOf cs := rfl
    rw [hsum] at hlt ⊢
    have hbase := baseOffset_stamp leaderEpoch offset h61 (by omega)
    have hend : endOffset (stamp leaderEpoch offset c) = offset + (lastOffsetDelta c + 1) := by
      rw [endOffset, hbase, lastOffsetDelta_stamp leaderEpoch offset h61]
      omega
    refine ⟨hbase, by omega, ?_⟩
    rw [hend]
    have h : BatchTiles (offset + (lastOffsetDelta c + 1))
        (offset + (lastOffsetDelta c + 1) + offsetsOf cs) _ :=
      ih (fun y hy => hall y (List.mem_cons_of_mem _ hy)) (by omega)
    rwa [Nat.add_assoc offset] at h

/-- With `assign`, the loop stamps the batches in place. -/
theorem stampLoop_assign {crc : Checksum} {leaderEpoch : Int32} {cs : List ByteString} :
    ∀ (done : ByteString) {offset last : Nat} {buf : ByteString}, (∀ c ∈ cs, Stored crc c) →
      stampLoop leaderEpoch true (boundsFrom done.length cs) (done ++ cs.flatten) offset =
        some (buf, last) →
      buf = done ++ (stampAll leaderEpoch offset cs).flatten ∧ last = offset + offsetsOf cs ∧
        (cs ≠ [] → last < 2 ^ 64) := by
  induction cs with
  | nil =>
    intro done offset last buf _ h
    cases h
    exact ⟨rfl, rfl, fun h => absurd rfl h⟩
  | cons c cs ih =>
    intro done offset last buf hall h
    have h61 := (hall c List.mem_cons_self).length_ge
    have hlen := length_stamp leaderEpoch offset h61
    rw [boundsFrom, stampLoop] at h
    simp only [if_true] at h
    split at h
    · cases h
    rename_i hover
    -- the two writes stay inside the first batch
    have hpatch : patch (patch (done ++ (c :: cs).flatten) done.length (beBytes 8 offset))
        (done.length + 12) (beBytes 4 leaderEpoch.toUInt32.toNat) =
        (done ++ stamp leaderEpoch offset c) ++ cs.flatten := by
      have h1 : (patch c 0 (beBytes 8 offset)).length = c.length :=
        length_patch (by rw [length_beBytes]; omega)
      have hin : patch (c ++ cs.flatten) 0 (beBytes 8 offset) =
          patch c 0 (beBytes 8 offset) ++ cs.flatten :=
        patch_append_left (by rw [length_beBytes]; omega)
      have hfirst := patch_append_right done (c ++ cs.flatten) (beBytes 8 offset) 0
      rw [Nat.add_zero, hin] at hfirst
      rw [List.flatten_cons, hfirst, patch_append_right,
        patch_append_left (by rw [length_beBytes]; omega), List.append_assoc]
      rfl
    have hpos : done.length + c.length = (done ++ stamp leaderEpoch offset c).length := by
      rw [List.length_append, hlen]
    rw [hpatch, hpos] at h
    obtain ⟨hbuf, hlast, hlt⟩ := ih _ (fun y hy => hall y (List.mem_cons_of_mem _ hy)) h
    have hsum : offsetsOf (c :: cs) = lastOffsetDelta c + 1 + offsetsOf cs := rfl
    refine ⟨?_, by rw [hlast, hsum]; omega, fun _ => ?_⟩
    · rw [hbuf, stampAll, List.flatten_cons, List.append_assoc]
    · cases cs with
      | nil =>
        have h0 : offsetsOf [] = 0 := rfl
        have h32 : lastOffsetDelta c < 2 ^ 32 := field_lt c 23 4
        omega
      | cons c' cs => exact hlt (by simp)

/-- Without `assign`, the loop only counts. -/
theorem stampLoop_keep {leaderEpoch : Int32} {cs : List ByteString} :
    ∀ {pos offset last : Nat} {data buf : ByteString},
      stampLoop leaderEpoch false (boundsFrom pos cs) data offset = some (buf, last) →
      buf = data ∧ last = offset + offsetsOf cs ∧ (cs ≠ [] → last < 2 ^ 64) := by
  induction cs with
  | nil =>
    intro pos offset last data buf h
    cases h
    exact ⟨rfl, rfl, fun h => absurd rfl h⟩
  | cons c cs ih =>
    intro pos offset last data buf h
    rw [boundsFrom, stampLoop] at h
    simp only [Bool.false_eq_true, if_false] at h
    split at h
    · cases h
    rename_i hover
    obtain ⟨hbuf, hlast, hlt⟩ := ih h
    have hsum : offsetsOf (c :: cs) = lastOffsetDelta c + 1 + offsetsOf cs := rfl
    refine ⟨hbuf, by rw [hlast, hsum]; omega, fun _ => ?_⟩
    cases cs with
    | nil =>
      have h0 : offsetsOf [] = 0 := rfl
      have h32 : lastOffsetDelta c < 2 ^ 32 := field_lt c 23 4
      omega
    | cons c' cs => exact hlt (by simp)

theorem offsetsOf_of_tiles {a b : Nat} {cs : List ByteString} (h : BatchTiles a b cs) :
    a + offsetsOf cs = b := by
  induction cs generalizing a with
  | nil => exact h
  | cons c cs ih =>
    obtain ⟨hbase, -, hrest⟩ := h
    have hsum : offsetsOf (c :: cs) = lastOffsetDelta c + 1 + offsetsOf cs := rfl
    have := ih hrest
    rw [endOffset, hbase] at this
    omega

/-! ## Appending to a segment -/

/-- More batches after those of a segment. -/
theorem rep_append {crc : Checksum} {s : Segment} {cs ds : List ByteString} (h : s.Rep crc cs)
    (hds : ∀ c ∈ ds, Stored crc c) {last : Nat} (htiles : BatchTiles s.nextOffset last ds)
    (hlast : last < 2 ^ 64) {buf : ByteString} (hbuf : buf = ds.flatten) :
    Segment.Rep crc { s with
      file := writeAt s.file s.currentSize buf
      nextOffset := last
      currentSize := s.currentSize + buf.length } (cs ++ ds) where
  file_eq := by rw [h.size_eq, writeAt_length, h.file_eq, hbuf, List.flatten_append]
  size_eq := by simp only [h.size_eq, writeAt_length, List.length_append]
  stored c hc := by
    rcases List.mem_append.mp hc with hc | hc
    · exact h.stored c hc
    · exact hds c hc
  tiles := h.tiles.append htiles
  next_lt := hlast

/-- The batches a raw append stores. -/
def written (assign : Bool) (leaderEpoch : Int32) (offset : Nat) (ds : List ByteString) :
    List ByteString :=
  if assign then stampAll leaderEpoch offset ds else ds

theorem length_flatten_stampAll {crc : Checksum} {leaderEpoch : Int32} {cs : List ByteString} :
    ∀ {offset : Nat}, (∀ c ∈ cs, Stored crc c) →
      (stampAll leaderEpoch offset cs).flatten.length = cs.flatten.length := by
  induction cs with
  | nil => intro offset _; rfl
  | cons c cs ih =>
    intro offset hall
    have h61 := (hall c List.mem_cons_self).length_ge
    simp only [stampAll, List.flatten_cons, List.length_append, length_stamp leaderEpoch offset h61,
      ih fun y hy => hall y (List.mem_cons_of_mem _ hy)]

/-- The offset a raw append starts at, given or kept. -/
theorem assigned_eq {ds : List ByteString} (hne : ds ≠ []) {next : Nat} {assign : Bool}
    (hkeep : assign = false → ∃ last, BatchTiles next last ds) :
    (if assign then some next else (boundsFrom 0 ds).head?.map (·.baseOffset)) = some next := by
  cases assign with
  | true => rfl
  | false =>
    obtain ⟨last, ht⟩ := hkeep rfl
    obtain ⟨c, cs, rfl⟩ := List.exists_cons_of_ne_nil hne
    exact congrArg some ht.1

/-- A raw append without write faults: refused without a trace, or the batches
are there, starting at the old end offset. -/
theorem appendRawBatches_cases {crc : Checksum} {s : Segment} {cs ds : List ByteString}
    (h : s.Rep crc cs) (hds : ∀ c ∈ ds, Stored crc c) (hne : ds ≠ []) (leaderEpoch : Int32)
    (assign : Bool)
    (hkeep : assign = false → ∃ last, BatchTiles s.nextOffset last ds) :
    (∃ e, s.appendRawBatches ds.flatten (boundsFrom 0 ds) leaderEpoch assign none =
      (.error e, s) ∧ (e = .segmentFull → 0 < s.currentSize)) ∨
    ∃ s', s.appendRawBatches ds.flatten (boundsFrom 0 ds) leaderEpoch assign none =
        (.ok (s.nextOffset, s.currentSize, offsetsOf ds), s') ∧
      s'.Rep crc (cs ++ written assign leaderEpoch s.nextOffset ds) ∧
      s'.baseOffset = s.baseOffset ∧ s'.nextOffset = s.nextOffset + offsetsOf ds ∧
      s'.currentSize = s.currentSize + ds.flatten.length ∧ s'.maxSize = s.maxSize := by
  unfold Segment.appendRawBatches
  rw [assigned_eq hne hkeep]
  by_cases hfull : 0 < s.currentSize ∧ s.maxSize.toInt < s.currentSize + ds.flatten.length
  · exact .inl ⟨_, if_pos hfull, fun _ => hfull.1⟩
  rw [if_neg hfull]
  simp only
  cases hst : stampLoop leaderEpoch assign (boundsFrom 0 ds) ds.flatten s.nextOffset with
  | none => exact .inl ⟨_, rfl, fun he => by cases he⟩
  | some r =>
    obtain ⟨buf, last⟩ := r
    right
    have hspec : buf = (written assign leaderEpoch s.nextOffset ds).flatten ∧
        last = s.nextOffset + offsetsOf ds ∧ last < 2 ^ 64 := by
      cases assign with
      | true =>
        obtain ⟨h1, h2, h3⟩ := stampLoop_assign [] hds hst
        exact ⟨h1, h2, h3 hne⟩
      | false =>
        obtain ⟨h1, h2, h3⟩ := stampLoop_keep hst
        exact ⟨h1, h2, h3 hne⟩
    obtain ⟨hbuf, hlast, hlt⟩ := hspec
    have hwst : ∀ c ∈ written assign leaderEpoch s.nextOffset ds, Stored crc c := by
      cases assign with
      | true => exact stampAll_stored hds
      | false => exact hds
    have hwt : BatchTiles s.nextOffset last (written assign leaderEpoch s.nextOffset ds) := by
      cases assign with
      | true =>
        rw [hlast]
        exact stampAll_tiles hds (by omega)
      | false =>
        obtain ⟨last', ht⟩ := hkeep rfl
        rw [hlast, offsetsOf_of_tiles ht]
        exact ht
    have hlen : buf.length = ds.flatten.length := by
      rw [hbuf]
      cases assign with
      | true => exact length_flatten_stampAll hds
      | false => rfl
    have htotal : last - s.nextOffset = offsetsOf ds := by omega
    have hmod : (s.nextOffset + offsetsOf ds) % 2 ^ 64 = last := by
      rw [← hlast]
      exact Nat.mod_eq_of_lt hlt
    simp only [Segment.write, htotal, hmod]
    refine ⟨_, rfl, ?_, rfl, hlast, rfl, rfl⟩
    rw [← hlen]
    exact rep_append h hwst hwt hlt hbuf

end MessageBroker.Storage
