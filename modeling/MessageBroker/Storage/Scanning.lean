import MessageBroker.Storage.Acceptance
import MessageBroker.Storage.Tiling

/-!
# The scan of a produce request is exact

`scanRawBatches` is the only check between the bytes of a request and the append
that indexes into them. It takes exactly the concatenations of well-formed
batches, and the bounds it returns cut the request where the batches end.
-/
namespace MessageBroker.Storage

open Lib.Bytes

/-- A batch as the format has it, its header read as signed numbers. -/
structure WellFormed (crc : Checksum) (c : ByteString) : Prop where
  size_eq : 12 + int32 (batchLength c) = c.length
  size_ge : recordBatchOverhead ≤ c.length
  magic_eq : magic c = 2
  crc_eq : (crc (c.drop 21)).toNat = storedCRC c
  count_pos : 0 < int32 (recordCount c)
  delta_eq : int32 (lastOffsetDelta c) = int32 (recordCount c) - 1
  base_nonneg : baseOffset c < 2 ^ 63

/-- A field is a non-negative `int32` exactly when its top bit is clear. -/
theorem int32_nonneg_iff {n : Nat} (hn : n < 2 ^ 32) : 0 ≤ int32 n ↔ n < 2 ^ 31 := by
  constructor
  · intro h
    by_contra hge
    have := int32_neg hn hge
    omega
  · intro h
    rw [int32_of_lt h]
    omega

theorem scans_iff_wellFormed {crc : Checksum} {c : ByteString} :
    Scans crc c ↔ WellFormed crc c := by
  have hlength := int32_nonneg_iff (field_lt c 8 4)
  have hdelta := int32_nonneg_iff (field_lt c 23 4)
  have hcount := int32_nonneg_iff (field_lt c 57 4)
  constructor
  · intro h
    have hsize := h.size_eq
    have hsum := h.count_eq
    unfold declaredSize at hsize
    refine ⟨?_, h.min_size, h.magic_eq, h.crc_eq, ?_, ?_, h.base_lt⟩
    · rw [int32_of_lt h.length_lt]
      omega
    · rw [int32_of_lt h.count_lt]
      omega
    · rw [int32_of_lt h.count_lt, int32_of_lt h.delta_lt]
      omega
  · intro h
    have hsize := h.size_eq
    have hge := h.size_ge
    have hpos := h.count_pos
    have hsum := h.delta_eq
    unfold recordBatchOverhead at hge
    have hlength' : batchLength c < 2 ^ 31 := hlength.mp (by unfold batchLength at hsize; omega)
    have hcount' : recordCount c < 2 ^ 31 := hcount.mp (by unfold recordCount at hpos; omega)
    have hdelta' : lastOffsetDelta c < 2 ^ 31 :=
      hdelta.mp (by unfold lastOffsetDelta at hsum; omega)
    rw [int32_of_lt hlength'] at hsize
    rw [int32_of_lt hcount', int32_of_lt hdelta'] at hsum
    refine ⟨⟨⟨?_, h.size_ge, h.magic_eq, h.crc_eq⟩, hdelta', by omega, h.base_nonneg, hlength'⟩,
      hcount'⟩
    unfold declaredSize
    omega

/-! ## The loop needs no more rounds than there are bytes -/

theorem scanLoop_enough {crc : Checksum} : ∀ (fuel extra pos : Nat) {rest : ByteString},
    rest.length ≤ fuel → scanLoop crc (fuel + extra) pos rest = scanLoop crc fuel pos rest := by
  intro fuel
  induction fuel with
  | zero =>
    intro extra pos rest hlen
    rw [List.length_eq_zero_iff.mp (Nat.le_zero.mp hlen)]
    cases extra <;> rfl
  | succ fuel ih =>
    intro extra pos rest hlen
    rw [Nat.add_right_comm, scanLoop, scanLoop]
    split
    · rfl
    rcases hv : validateRawBatch crc rest with e | ⟨size, lod⟩
    · rfl
    -- a batch that passes takes 61 bytes at least, so the rest fits the fuel left
    obtain ⟨-, -, hle, hstored, -⟩ := validateRawBatch_ok hv
    have h61 := hstored.length_ge
    rw [List.length_take, Nat.min_eq_left hle] at h61
    have hrest : (rest.drop size).length ≤ fuel := by
      rw [List.length_drop]
      omega
    simp only [ih extra (pos + size) hrest]

/-! ## The bounds -/

/-- The bytes a bound delimits. -/
def BatchBounds.bytes (data : ByteString) (b : BatchBounds) : ByteString :=
  (data.drop b.offset).take b.size

/-- The bounds cut `data` into batches, and each carries its own batch's fields. -/
structure Delimits (crc : Checksum) (data : ByteString) (bounds : List BatchBounds) : Prop where
  starts : ∀ b, bounds.head? = some b → b.offset = 0
  consecutive : ∀ (i : Nat) (b b' : BatchBounds), bounds[i]? = some b → bounds[i + 1]? = some b' →
    b'.offset = b.offset + b.size
  covers : (bounds.map (·.size)).sum = data.length
  inside : ∀ b ∈ bounds, b.offset + b.size ≤ data.length
  wellFormed : ∀ b ∈ bounds, WellFormed crc (b.bytes data)
  own : ∀ b ∈ bounds, b.baseOffset = baseOffset (b.bytes data) ∧
    b.leaderEpoch = partitionLeaderEpoch (b.bytes data) ∧
    b.lastOffsetDelta = lastOffsetDelta (b.bytes data)

theorem getElem?_boundsFrom {cs : List ByteString} : ∀ (pos i : Nat),
    (boundsFrom pos cs)[i]? = cs[i]?.map fun c =>
      ⟨pos + (cs.take i).flatten.length, c.length, lastOffsetDelta c, baseOffset c,
        partitionLeaderEpoch c⟩ := by
  induction cs with
  | nil => exact fun _ _ => rfl
  | cons c cs ih =>
    intro pos i
    cases i with
    | zero => rfl
    | succ i =>
      rw [boundsFrom, List.getElem?_cons_succ, ih, List.getElem?_cons_succ, List.take_succ_cons,
        List.flatten_cons, List.length_append, Nat.add_assoc]

theorem sizes_boundsFrom {cs : List ByteString} : ∀ (pos : Nat),
    ((boundsFrom pos cs).map (·.size)).sum = cs.flatten.length := by
  induction cs with
  | nil => exact fun _ => rfl
  | cons c cs ih =>
    intro pos
    rw [boundsFrom, List.map_cons, List.sum_cons, ih, List.flatten_cons, List.length_append]

/-- Where the `i`-th piece of a concatenation lies. -/
theorem flatten_split {cs : List ByteString} {i : Nat} {c : ByteString} (h : cs[i]? = some c) :
    cs.flatten = (cs.take i).flatten ++ (c ++ (cs.drop (i + 1)).flatten) := by
  obtain ⟨hi, rfl⟩ := List.getElem?_eq_some_iff.mp h
  rw [← List.flatten_cons, List.getElem_cons_drop, ← List.flatten_append, List.take_append_drop]

/-- The `i`-th bound is the `i`-th batch's, and delimits it. -/
theorem bound_of_mem {cs : List ByteString} {i : Nat} {b : BatchBounds}
    (h : (boundsFrom 0 cs)[i]? = some b) :
    ∃ c, cs[i]? = some c ∧ b = ⟨(cs.take i).flatten.length, c.length, lastOffsetDelta c,
      baseOffset c, partitionLeaderEpoch c⟩ ∧ b.bytes cs.flatten = c ∧
      b.offset + b.size ≤ cs.flatten.length := by
  rw [getElem?_boundsFrom] at h
  obtain ⟨c, hc, rfl⟩ := Option.map_eq_some_iff.mp h
  refine ⟨c, hc, by rw [Nat.zero_add], ?_, ?_⟩
  · simp only [BatchBounds.bytes, Nat.zero_add, flatten_split hc, List.drop_left, List.take_left]
  · rw [flatten_split hc]
    simp only [Nat.zero_add, List.length_append]
    omega

theorem delimits_boundsFrom {crc : Checksum} {cs : List ByteString}
    (h : ∀ c ∈ cs, WellFormed crc c) : Delimits crc cs.flatten (boundsFrom 0 cs) where
  starts b hb := by
    rw [List.head?_eq_getElem?] at hb
    obtain ⟨c, -, rfl, -⟩ := bound_of_mem hb
    rfl
  consecutive i b b' hb hb' := by
    obtain ⟨c, hc, rfl, -⟩ := bound_of_mem hb
    obtain ⟨c', -, rfl, -⟩ := bound_of_mem hb'
    obtain ⟨hi, rfl⟩ := List.getElem?_eq_some_iff.mp hc
    simp only [List.take_succ_eq_append_getElem hi, List.flatten_append, List.flatten_cons,
      List.flatten_nil, List.append_nil, List.length_append]
  covers := sizes_boundsFrom 0
  inside b hb := by
    obtain ⟨i, hi⟩ := List.mem_iff_getElem?.mp hb
    obtain ⟨c, -, -, -, hle⟩ := bound_of_mem hi
    exact hle
  wellFormed b hb := by
    obtain ⟨i, hi⟩ := List.mem_iff_getElem?.mp hb
    obtain ⟨c, hc, -, hbytes, -⟩ := bound_of_mem hi
    rw [hbytes]
    exact h c (List.mem_of_getElem? hc)
  own b hb := by
    obtain ⟨i, hi⟩ := List.mem_iff_getElem?.mp hb
    obtain ⟨c, -, hfields, hbytes, -⟩ := bound_of_mem hi
    rw [hbytes, hfields]
    exact ⟨rfl, rfl, rfl⟩

/-! ## The scan -/

theorem scanRawBatches_iff {crc : Checksum} {data : ByteString} :
    (∃ bounds, scanRawBatches crc data = .ok bounds) ↔
      ∃ cs : List ByteString, cs.flatten = data ∧ ∀ c ∈ cs, WellFormed crc c := by
  constructor
  · rintro ⟨bounds, h⟩
    obtain ⟨hdata, hscans, -⟩ := scans_of_scanRawBatches h
    exact ⟨_, hdata, fun c hc => scans_iff_wellFormed.mp (hscans c hc)⟩
  · rintro ⟨cs, rfl, hall⟩
    exact ⟨_, scanRawBatches_flatten fun c hc => scans_iff_wellFormed.mpr (hall c hc)⟩

/-! ## The stamps -/

/-- Pieces that keep their lengths keep their places. -/
theorem length_take_flatten {cs ss : List ByteString} (h : List.Forall₂ Restamped cs ss) (i : Nat) :
    (ss.take i).flatten.length = (cs.take i).flatten.length := by
  induction h generalizing i with
  | nil => rfl
  | cons hc _ ih =>
    cases i with
    | zero => rfl
    | succ i =>
      simp only [List.take_succ_cons, List.flatten_cons, List.length_append, hc.length_eq, ih i]

theorem restamped_bytes {cs ss : List ByteString} (h : List.Forall₂ Restamped cs ss)
    {b : BatchBounds} (hb : b ∈ boundsFrom 0 cs) :
    Restamped (b.bytes cs.flatten) (b.bytes ss.flatten) := by
  obtain ⟨i, hi⟩ := List.mem_iff_getElem?.mp hb
  obtain ⟨c, hc, rfl, hbytes, -⟩ := bound_of_mem hi
  obtain ⟨s, hs⟩ : ∃ s, ss[i]? = some s := by
    have hlt : i < ss.length := by
      rw [← h.length_eq]
      exact (List.getElem?_eq_some_iff.mp hc).1
    exact ⟨_, List.getElem?_eq_getElem hlt⟩
  have hcs : Restamped c s := by
    obtain ⟨hlt, rfl⟩ := List.getElem?_eq_some_iff.mp hc
    obtain ⟨hlt', rfl⟩ := List.getElem?_eq_some_iff.mp hs
    exact h.get hlt hlt'
  have hstored : BatchBounds.bytes ss.flatten ⟨(cs.take i).flatten.length, c.length,
      lastOffsetDelta c, baseOffset c, partitionLeaderEpoch c⟩ = s := by
    simp only [BatchBounds.bytes, ← length_take_flatten h, ← hcs.length_eq, flatten_split hs,
      List.drop_left, List.take_left]
  rw [hbytes, hstored]
  exact hcs

/-- Over the bounds of a scan, each batch is stamped in its own place. -/
theorem stampLoop_in_place {crc : Checksum} {data : ByteString} {bounds : List BatchBounds}
    (h : scanRawBatches crc data = .ok bounds) {leaderEpoch : Int32} {offset last : Nat}
    {buf : ByteString} (hstamp : stampLoop leaderEpoch true bounds data offset = some (buf, last)) :
    buf.length = data.length ∧ ∀ b ∈ bounds, Restamped (b.bytes data) (b.bytes buf) := by
  obtain ⟨hdata, hscans, rfl⟩ := scans_of_scanRawBatches h
  have hstored : ∀ c ∈ rawBatches data, Stored crc c := fun c hc => (hscans c hc).toStored
  rw [← hdata, rawBatches_flatten hstored] at hstamp
  obtain ⟨rfl, -⟩ := stampLoop_assign [] hstored hstamp
  have hstamps : List.Forall₂ Restamped _ (stampAll leaderEpoch offset (rawBatches data)) :=
    forall₂_stampAll hstored
  refine ⟨?_, fun b hb => ?_⟩
  · rw [List.nil_append, length_flatten_stampAll hstored, hdata]
  · have := restamped_bytes hstamps hb
    rwa [hdata] at this

/-! ## The scan, whole -/

theorem scanRawBatches_exact (crc : Checksum) (data : ByteString) :
    (∀ fuel, data.length ≤ fuel → scanLoop crc fuel 0 data = scanRawBatches crc data) ∧
    ((∃ bounds, scanRawBatches crc data = .ok bounds) ↔
      ∃ cs : List ByteString, cs.flatten = data ∧ ∀ c ∈ cs, WellFormed crc c) ∧
    ∀ bounds, scanRawBatches crc data = .ok bounds →
      Delimits crc data bounds ∧
      (∀ b ∈ bounds, b.offset + 12 + 4 ≤ b.offset + b.size) ∧
      ∀ leaderEpoch offset buf last,
        stampLoop leaderEpoch true bounds data offset = some (buf, last) →
        buf.length = data.length ∧ ∀ b ∈ bounds, Restamped (b.bytes data) (b.bytes buf) := by
  refine ⟨fun fuel hfuel => ?_, scanRawBatches_iff, fun bounds h => ?_⟩
  · obtain ⟨extra, rfl⟩ := Nat.exists_eq_add_of_le hfuel
    exact scanLoop_enough data.length extra 0 (Nat.le_refl _)
  · have hdelimits : Delimits crc data bounds := by
      obtain ⟨hdata, hscans, hbounds⟩ := scans_of_scanRawBatches h
      rw [hbounds]
      have := delimits_boundsFrom fun c hc => scans_iff_wellFormed.mp (hscans c hc)
      rwa [hdata] at this
    refine ⟨hdelimits, fun b hb => ?_, fun _ _ _ _ hstamp => stampLoop_in_place h hstamp⟩
    have hge := (hdelimits.wellFormed b hb).size_ge
    rw [BatchBounds.bytes, List.length_take] at hge
    unfold recordBatchOverhead at hge
    omega

/-- Two batches of one record, end to end. -/
theorem scanRawBatches_exact_sampleRequest :
    ∃ bounds, scanRawBatches crc32c (Log.sampleRequest 2) = .ok bounds ∧
      Delimits crc32c (Log.sampleRequest 2) bounds ∧ bounds.length = 2 := by
  refine ⟨[⟨0, 69, 0, 0, 0⟩, ⟨69, 69, 0, 0, 0⟩], by decide +kernel, ?_, rfl⟩
  exact ((scanRawBatches_exact crc32c (Log.sampleRequest 2)).2.2 _ (by decide +kernel)).1

end MessageBroker.Storage
