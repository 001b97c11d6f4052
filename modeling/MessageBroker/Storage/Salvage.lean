import MessageBroker.Storage.EndOffset
import MessageBroker.Storage.Residue

/-!
# Recovery of arbitrary files

`recover` walks over whatever bytes a segment file holds. It checks a declared
size against the end of the file but never against the header, so a size below
61 either makes it allocate a negative length or, with a matching checksum, is
kept as a batch. These short headers are all that can go wrong: a file opens to
whole batches exactly if no short header follows whole batches in it.
-/
namespace MessageBroker.Storage

open Lib.Bytes

variable {crc : Checksum} {file : ByteString}

/-! ## One round on any bytes -/

/-- A round of `recover` sees only the bytes from its position on. -/
theorem intactBatchAt_append (before tail : ByteString) :
    intactBatchAt crc (before ++ tail) before.length =
      if tail.length < 61 ∨ tail.length < declaredSize tail ∨ magic tail ≠ 2 then .ok none
      else if declaredSize tail < 21 then .error .negativeAllocation
      else if (crc ((tail.take (declaredSize tail)).drop 21)).toNat ≠ storedCRC tail then .ok none
      else .ok (some (declaredSize tail, lastOffsetDelta tail)) := by
  have hlen : (before ++ tail).length = before.length + tail.length := List.length_append
  unfold intactBatchAt
  by_cases h61 : tail.length < 61
  · rw [readAt_of_short (by rw [hlen, recordBatchOverhead]; omega), if_pos (.inl h61)]
  have hhead : readAt (before ++ tail) before.length recordBatchOverhead = some (tail.take 61) := by
    rw [readAt_of_le (by rw [hlen, recordBatchOverhead]; omega), List.drop_left]
    rfl
  have hsize : declaredSize (tail.take 61) = declaredSize tail := by
    rw [declaredSize, declaredSize, batchLength, batchLength, field_take (by omega)]
  have hmagic : magic (tail.take 61) = magic tail := field_take (by omega)
  have hcrc : storedCRC (tail.take 61) = storedCRC tail := field_take (by omega)
  have hlod : lastOffsetDelta (tail.take 61) = lastOffsetDelta tail := field_take (by omega)
  simp only [hhead, hsize, hmagic, hcrc, hlod]
  by_cases hfit : tail.length < declaredSize tail
  · rw [if_pos (by rw [hlen]; omega), if_pos (.inr (.inl hfit))]
  by_cases hm : magic tail ≠ 2
  · rw [if_neg (by rw [hlen]; omega), if_pos hm, if_pos (.inr (.inr hm))]
  have hnone : ¬ (tail.length < 61 ∨ tail.length < declaredSize tail ∨ magic tail ≠ 2) := by
    simp only [not_or]
    exact ⟨h61, hfit, hm⟩
  rw [if_neg (by rw [hlen]; omega), if_neg hm, if_neg hnone]
  by_cases h21 : declaredSize tail < 21
  · rw [if_pos h21, if_pos h21]
  have hbody : readAt (before ++ tail) (before.length + 21) (declaredSize tail - 21) =
      some ((tail.take (declaredSize tail)).drop 21) := by
    rw [readAt_of_le (by rw [hlen]; omega), ← List.drop_drop, List.drop_left, List.drop_take]
  rw [if_neg h21, if_neg h21, hbody]

/-- Bytes that a round takes for a batch, or chokes on, although they declare less
than a header. -/
structure Short (crc : Checksum) (tail : ByteString) : Prop where
  whole : 61 ≤ tail.length
  magic_eq : magic tail = 2
  size_lt : declaredSize tail < 61
  checked : 21 ≤ declaredSize tail →
    (crc ((tail.take (declaredSize tail)).drop 21)).toNat = storedCRC tail

/-- What a round makes of short bytes: below 21 bytes it panics. -/
theorem Short.intactBatchAt {tail : ByteString} (h : Short crc tail) (before : ByteString) :
    intactBatchAt crc (before ++ tail) before.length =
      if declaredSize tail < 21 then .error .negativeAllocation
      else .ok (some (declaredSize tail, lastOffsetDelta tail)) := by
  have hwhole := h.whole
  have hlt := h.size_lt
  have hno : ¬ (tail.length < 61 ∨ tail.length < declaredSize tail ∨ magic tail ≠ 2) := by
    have := h.magic_eq
    omega
  rw [intactBatchAt_append, if_neg hno]
  split
  · rfl
  · rename_i h21
    rw [if_neg (by rw [h.checked (by omega)]; exact fun hne => hne rfl)]

/-- Bytes that are not short and do not start with a whole batch end recovery. -/
theorem intactBatchAt_none {tail : ByteString} (hshort : ¬ Short crc tail)
    (hno : ∀ c rest, tail = c ++ rest → ¬ Stored crc c) (before : ByteString) :
    intactBatchAt crc (before ++ tail) before.length = .ok none := by
  rw [intactBatchAt_append]
  split
  · rfl
  rename_i hwhole
  simp only [not_or, Nat.not_lt, not_not] at hwhole
  obtain ⟨h61, hfit, hmagic⟩ := hwhole
  have hlong : declaredSize tail < 61 → 21 ≤ declaredSize tail ∧
      (crc ((tail.take (declaredSize tail)).drop 21)).toNat ≠ storedCRC tail := by
    intro hlt
    by_contra hcon
    refine hshort ⟨h61, hmagic, hlt, fun h21 => ?_⟩
    by_contra hne
    exact hcon ⟨h21, hne⟩
  rw [if_neg (by omega)]
  split
  · rfl
  rename_i hcrc
  rw [ne_eq, not_not] at hcrc
  -- the bytes pass every test, so they are a whole batch
  have hd : 61 ≤ declaredSize tail := by
    by_contra hlt
    exact (hlong (by omega)).2 hcrc
  have hlen : (tail.take (declaredSize tail)).length = declaredSize tail := by
    rw [List.length_take]
    omega
  refine absurd ?_ (hno _ _ (List.take_append_drop (declaredSize tail) tail).symm)
  refine ⟨?_, by rw [hlen]; exact hd, ?_, ?_⟩
  · rw [hlen, declaredSize, declaredSize, batchLength, batchLength,
      field_take (by unfold declaredSize batchLength at hd; omega)]
  · rw [← hmagic]
    exact field_take (by omega)
  · rw [hcrc]
    exact (field_take (by omega)).symm

/-! ## The positions that recovery reaches -/

/-- Positions that the loop of `recover` comes to. -/
inductive Reached (crc : Checksum) (file : ByteString) : Nat → Prop
  | start : Reached crc file 0
  | next {pos size lod : Nat} : Reached crc file pos →
      intactBatchAt crc file pos = .ok (some (size, lod)) → Reached crc file (pos + size)

theorem reached_stored {cs : List ByteString} :
    ∀ {tail : ByteString}, (∀ c ∈ cs, Stored crc c) →
      Reached crc (cs.flatten ++ tail) cs.flatten.length := by
  induction cs using List.reverseRecOn with
  | nil => exact fun _ => .start
  | append_singleton cs c ih =>
    intro tail hst
    have hc : Stored crc c := hst c (by simp)
    have hbefore : Reached crc (cs.flatten ++ (c ++ tail)) cs.flatten.length :=
      ih fun x hx => hst x (List.mem_append_left _ hx)
    have hfile : (cs ++ [c]).flatten ++ tail = cs.flatten ++ (c ++ tail) := by simp
    rw [hfile, ← Segment.Rep.next_pos]
    exact hbefore.next (intactBatchAt_stored hc)

/-- The loop runs through every position it reaches, with a round left for every
byte to come. -/
theorem Reached.recoverLoop {pos : Nat} (h : Reached crc file pos) (base : Nat) :
    ∃ k next, k ≤ pos ∧ recoverLoop crc file file.length 0 base =
      recoverLoop crc file (file.length - k) pos next := by
  induction h with
  | start => exact ⟨0, base, Nat.le_refl _, rfl⟩
  | @next pos size lod _ hround ih =>
    obtain ⟨k, next, hk, hloop⟩ := ih
    have hb := intactBatchAt_bounds hround
    have hfuel : file.length - k = file.length - (k + 1) + 1 := by omega
    refine ⟨k + 1, (next + (lod + 1)) % 2 ^ 64, by omega, ?_⟩
    rw [hloop, hfuel, Storage.recoverLoop, if_pos (by omega), hround]

theorem recoverLoop_fuel {k : Nat} : ∀ {n pos next : Nat}, file.length ≤ pos + n →
    recoverLoop crc file (n + k) pos next = recoverLoop crc file n pos next := by
  intro n
  induction n with
  | zero =>
    intro pos next hle
    cases k with
    | zero => rfl
    | succ k =>
      have hdone : ¬ pos < file.length := by omega
      rw [Nat.zero_add, recoverLoop.eq_2, if_neg hdone]
      rfl
  | succ n ih =>
    intro pos next hle
    rw [Nat.add_right_comm, recoverLoop, recoverLoop]
    split
    · split
      · rfl
      · rfl
      · rename_i size lod hround
        have hb := intactBatchAt_bounds hround
        exact ih (by omega)
    · rfl

theorem recoverLoop_error {e : SegmentError} : ∀ {fuel pos next : Nat}, Reached crc file pos →
    recoverLoop crc file fuel pos next = .error e →
    ∃ at', Reached crc file at' ∧ intactBatchAt crc file at' = .error e := by
  intro fuel
  induction fuel with
  | zero =>
    intro pos next _ h
    cases h
  | succ fuel ih =>
    intro pos next hreach h
    rw [recoverLoop] at h
    split at h
    · split at h
      · rename_i e' hround
        cases h
        exact ⟨pos, hreach, hround⟩
      · cases h
      · rename_i size lod hround
        exact ih (hreach.next hround) h
    · cases h

theorem intactBatchAt_error {pos : Nat} {e : SegmentError}
    (h : intactBatchAt crc file pos = .error e) :
    e = .negativeAllocation ∧ pos < file.length := by
  unfold intactBatchAt at h
  split at h
  · cases h
  rename_i header hread
  have hlt : pos < file.length := by
    by_contra hle
    rw [readAt_of_short (by rw [recordBatchOverhead]; omega)] at hread
    cases hread
  simp only at h
  split at h
  · cases h
  split at h
  · cases h
  split at h
  · cases h
    exact ⟨rfl, hlt⟩
  split at h
  · cases h
  split at h
  · cases h
  · cases h

/-- The loop panics exactly if some round that it reaches does. -/
theorem recoverLoop_panics_iff (base : Nat) :
    recoverLoop crc file file.length 0 base = .error .negativeAllocation ↔
      ∃ pos, Reached crc file pos ∧ intactBatchAt crc file pos = .error .negativeAllocation := by
  constructor
  · exact recoverLoop_error .start
  · rintro ⟨pos, hreach, hround⟩
    obtain ⟨k, next, hk, hloop⟩ := hreach.recoverLoop base
    have hlt := (intactBatchAt_error hround).2
    have hfuel : file.length - k = file.length - (k + 1) + 1 := by omega
    rw [hloop, hfuel, recoverLoop, if_pos hlt, hround]

/-- The next offset counts the intact batches, in a `uint64`. -/
theorem recoverLoop_offsets {pos' next' : Nat} : ∀ {fuel pos next : Nat}, next < 2 ^ 64 →
    recoverLoop crc file fuel pos next = .ok (pos', next') →
    next' = (next + intactLoop crc file fuel pos) % 2 ^ 64 := by
  intro fuel
  induction fuel with
  | zero =>
    intro pos next hlt h
    cases h
    exact (Nat.mod_eq_of_lt hlt).symm
  | succ fuel ih =>
    intro pos next hlt h
    rw [recoverLoop] at h
    rw [intactLoop]
    split at h
    · rename_i hpos
      rw [if_pos hpos]
      split at h
      · cases h
      · rename_i hround
        cases h
        rw [hround]
        exact (Nat.mod_eq_of_lt hlt).symm
      · rename_i size lod hround
        rw [hround]
        have hrest := ih (Nat.mod_lt _ (by decide)) h
        rw [hrest, Nat.mod_add_mod]
        simp only [Nat.add_assoc]
    · rename_i hpos
      rw [if_neg hpos]
      cases h
      exact (Nat.mod_eq_of_lt hlt).symm

/-- Opening a file is its loop: an empty file has no rounds. -/
theorem newSegment_eq (crc : Checksum) (file : ByteString) (base : Nat) (maxSize : Int64) :
    newSegment crc file base maxSize = (recoverLoop crc file file.length 0 base).bind fun r =>
      if r.2 = base ∧ 0 < r.1 then .error .noValidBatches
      else .ok ⟨file.take r.1, base, r.2, r.1, maxSize⟩ := by
  unfold newSegment
  split
  · rename_i hzero
    obtain rfl := List.length_eq_zero_iff.mp hzero
    simp [recoverLoop, Except.bind]
  · cases recoverLoop crc file file.length 0 base with
    | error e => rfl
    | ok r => rfl

/-! ## Whole batches -/

/-- Every file is whole batches followed by bytes that do not start with one. -/
theorem exists_stored_prefix (crc : Checksum) : ∀ (n : Nat) (file : ByteString),
    file.length ≤ n → ∃ (cs : List ByteString) (tail : ByteString), file = cs.flatten ++ tail ∧
      (∀ c ∈ cs, Stored crc c) ∧ ∀ c rest, tail = c ++ rest → ¬ Stored crc c := by
  intro n
  induction n with
  | zero =>
    intro file hlen
    refine ⟨[], file, rfl, fun c hc => absurd hc List.not_mem_nil, ?_⟩
    intro c rest hfile hc
    have h61 := hc.length_ge
    rw [hfile, List.length_append] at hlen
    omega
  | succ n ih =>
    intro file hlen
    by_cases hfirst : ∃ c rest, file = c ++ rest ∧ Stored crc c
    · obtain ⟨c, rest, rfl, hc⟩ := hfirst
      have h61 := hc.length_ge
      rw [List.length_append] at hlen
      obtain ⟨cs, tail, hrest, hst, hno⟩ := ih rest (by omega)
      refine ⟨c :: cs, tail, by rw [hrest, List.flatten_cons, List.append_assoc], ?_, hno⟩
      exact List.forall_mem_cons.mpr ⟨hc, hst⟩
    · refine ⟨[], file, rfl, fun c hc => absurd hc List.not_mem_nil, ?_⟩
      exact fun c rest hfile hc => hfirst ⟨c, rest, hfile, hc⟩

/-- A file starts with whole batches in one way only. -/
theorem stored_prefix_unique {cs : List ByteString} : ∀ {cs' : List ByteString}
    {tail tail' : ByteString}, (∀ c ∈ cs, Stored crc c) → (∀ c ∈ cs', Stored crc c) →
      cs.flatten ++ tail = cs'.flatten ++ tail' → cs.flatten.length ≤ cs'.flatten.length →
      ∃ more, cs' = cs ++ more := by
  induction cs with
  | nil => exact fun {cs'} _ _ _ _ _ _ => ⟨cs', rfl⟩
  | cons c cs ih =>
    intro cs' tail tail' hst hst' hfile hle
    have hc := hst c List.mem_cons_self
    have h61 := hc.length_ge
    cases cs' with
    | nil =>
      rw [List.flatten_cons, List.length_append, List.flatten_nil, List.length_nil] at hle
      omega
    | cons c' cs' =>
      have hc' := hst' c' List.mem_cons_self
      have h61' := hc'.length_ge
      rw [List.flatten_cons, List.flatten_cons, List.append_assoc, List.append_assoc] at hfile
      have hlen : c.length = c'.length := by
        have hd := congrArg declaredSize hfile
        rw [declaredSize_append (by omega), declaredSize_append (by omega), hc.size_eq,
          hc'.size_eq] at hd
        exact hd
      obtain ⟨rfl, hrest⟩ := List.append_inj hfile hlen
      rw [List.flatten_cons, List.flatten_cons, List.length_append, List.length_append] at hle
      obtain ⟨more, rfl⟩ := ih (fun x hx => hst x (List.mem_cons_of_mem _ hx))
        (fun x hx => hst' x (List.mem_cons_of_mem _ hx)) hrest (by omega)
      exact ⟨more, rfl⟩

theorem Short.not_stored {tail c rest : ByteString} (h : Short crc tail)
    (htail : tail = c ++ rest) : ¬ Stored crc c := by
  intro hc
  have h61 := hc.length_ge
  have hlt := h.size_lt
  rw [htail, declaredSize_append (by omega), hc.size_eq] at hlt
  omega

/-! ## What opening an arbitrary file gives -/

/-- A segment of whole batches, with its header readable at each of them. -/
def Segment.Whole (crc : Checksum) (s : Segment) : Prop :=
  ∃ cs : List ByteString, s.file = cs.flatten ∧ (∀ c ∈ cs, Stored crc c) ∧
    ∀ (pre : List ByteString) (c : ByteString) (post : List ByteString), cs = pre ++ c :: post →
      s.readBatchMetaAt pre.flatten.length = .ok (Storage.baseOffset c, lastOffsetDelta c, c.length)

theorem Segment.whole_of_flatten {s : Segment} {cs : List ByteString} (hfile : s.file = cs.flatten)
    (hst : ∀ c ∈ cs, Stored crc c) : s.Whole crc := by
  refine ⟨cs, hfile, hst, ?_⟩
  rintro pre c post rfl
  rw [List.flatten_append, List.flatten_cons] at hfile
  exact s.readBatchMetaAt_stored hfile (hst c (by simp))

/-- `NewSegment` copes with a file: more rounds than bytes change nothing, no
allocation has a negative length, and a segment that is opened keeps a prefix of
the file that is a sequence of whole batches. -/
structure Survives (crc : Checksum) (file : ByteString) (base : Nat) (maxSize : Int64) : Prop where
  terminates : ∀ fuel, file.length ≤ fuel →
    recoverLoop crc file fuel 0 base = recoverLoop crc file file.length 0 base
  no_panic : newSegment crc file base maxSize ≠ .error .negativeAllocation
  kept : ∀ s, newSegment crc file base maxSize = .ok s → s.file <+: file ∧ s.Whole crc

/-- No short header follows whole batches. -/
def NoShort (crc : Checksum) (file : ByteString) : Prop :=
  ∀ (cs : List ByteString) (tail : ByteString), file = cs.flatten ++ tail →
    (∀ c ∈ cs, Stored crc c) → ¬ Short crc tail

/-- The batches count a multiple of `2^64` offsets, and no length is negative:
`NewSegment` then refuses the file as one without batches. -/
def Cyclic (crc : Checksum) (file : ByteString) : Prop :=
  2 ^ 64 ∣ intactOffsets crc file ∧
    ∀ pos, Reached crc file pos → intactBatchAt crc file pos ≠ .error .negativeAllocation

/-- Where recovery stops in a file without short headers. -/
theorem NoShort.recoverLoop (h : NoShort crc file) (base : Nat) :
    ∃ (cs : List ByteString) (tail : ByteString) (next : Nat), file = cs.flatten ++ tail ∧
      (∀ c ∈ cs, Stored crc c) ∧
      recoverLoop crc file file.length 0 base = .ok (cs.flatten.length, next) := by
  obtain ⟨cs, tail, rfl, hst, hno⟩ := exists_stored_prefix crc file.length file (Nat.le_refl _)
  have hreach : Reached crc (cs.flatten ++ tail) cs.flatten.length := reached_stored hst
  obtain ⟨k, next, hk, hloop⟩ := hreach.recoverLoop base
  have hround := intactBatchAt_none (h cs tail rfl hst) hno cs.flatten
  refine ⟨cs, tail, next, rfl, hst, ?_⟩
  rw [hloop]
  cases (cs.flatten ++ tail).length - k with
  | zero => rfl
  | succ fuel =>
    rw [Storage.recoverLoop, hround]
    split <;> rfl

/-- A short header is kept, or nothing is. -/
theorem not_noShort_recoverLoop (h : ¬ NoShort crc file) {base pos next : Nat}
    (hloop : recoverLoop crc file file.length 0 base = .ok (pos, next)) :
    ∃ (cs : List ByteString) (tail : ByteString), file = cs.flatten ++ tail ∧
      (∀ c ∈ cs, Stored crc c) ∧ Short crc tail ∧ cs.flatten.length < pos ∧ pos ≤ file.length := by
  simp only [NoShort, not_forall, not_not] at h
  obtain ⟨cs, tail, rfl, hst, hshort⟩ := h
  have hreach : Reached crc (cs.flatten ++ tail) cs.flatten.length := reached_stored hst
  have hround := hshort.intactBatchAt cs.flatten
  split at hround
  · rw [(recoverLoop_panics_iff base).mpr ⟨_, hreach, hround⟩] at hloop
    cases hloop
  · rename_i h21
    obtain ⟨k, next', hk, hrest⟩ := (hreach.next hround).recoverLoop base
    have hb := intactBatchAt_bounds hround
    have hpos := recoverLoop_bounds hb.2 (hrest.symm.trans hloop)
    exact ⟨cs, tail, rfl, hst, hshort, by omega, hpos.2⟩

theorem NoShort.survives (h : NoShort crc file) (base : Nat) (maxSize : Int64) :
    Survives crc file base maxSize := by
  obtain ⟨cs, tail, next, hfile, hst, hloop⟩ := h.recoverLoop base
  have hopen := newSegment_eq crc file base maxSize
  rw [hloop] at hopen
  refine ⟨?_, ?_, ?_⟩
  · intro fuel hfuel
    obtain ⟨k, rfl⟩ := Nat.exists_eq_add_of_le hfuel
    exact recoverLoop_fuel (by omega)
  · rw [hopen]
    simp only [Except.bind]
    split
    · exact fun he => by cases he
    · exact fun he => by cases he
  · intro s hs
    rw [hopen] at hs
    simp only [Except.bind] at hs
    split at hs
    · cases hs
    · cases hs
      refine ⟨List.take_prefix _ _, Segment.whole_of_flatten ?_ hst⟩
      rw [hfile, List.take_left]

theorem Cyclic.survives (h : Cyclic crc file) (base : UInt64) (maxSize : Int64) :
    Survives crc file base.toNat maxSize := by
  have hopen := newSegment_eq crc file base.toNat maxSize
  have hterm : ∀ fuel, file.length ≤ fuel → recoverLoop crc file fuel 0 base.toNat =
      recoverLoop crc file file.length 0 base.toNat := by
    intro fuel hfuel
    obtain ⟨k, rfl⟩ := Nat.exists_eq_add_of_le hfuel
    exact recoverLoop_fuel (by omega)
  cases hloop : recoverLoop crc file file.length 0 base.toNat with
  | error e =>
    -- the only error of the loop is the panic
    exfalso
    obtain ⟨pos, hreach, hround⟩ := recoverLoop_error .start hloop
    obtain ⟨rfl, -⟩ := intactBatchAt_error hround
    exact h.2 pos hreach hround
  | ok r =>
    obtain ⟨pos, next⟩ := r
    have hnext : next = base.toNat := by
      obtain ⟨m, hm⟩ := h.1
      have hm' : intactLoop crc file file.length 0 = 2 ^ 64 * m := hm
      rw [recoverLoop_offsets base.toNat_lt hloop, hm', Nat.add_mul_mod_self_left,
        Nat.mod_eq_of_lt base.toNat_lt]
    rw [hloop] at hopen
    simp only [Except.bind, hnext, true_and] at hopen
    refine ⟨hterm, ?_, ?_⟩
    · rw [hopen]
      split
      · exact fun he => by cases he
      · exact fun he => by cases he
    · intro s hs
      rw [hopen] at hs
      split at hs
      · cases hs
      · rename_i hpos
        obtain rfl : pos = 0 := by omega
        cases hs
        have hnil : (file.take 0 : ByteString) = ([] : List ByteString).flatten := rfl
        exact ⟨List.take_prefix _ _,
          Segment.whole_of_flatten hnil fun c hc => absurd hc List.not_mem_nil⟩

theorem Survives.condition {base : UInt64} {maxSize : Int64}
    (h : Survives crc file base.toNat maxSize) : NoShort crc file ∨ Cyclic crc file := by
  by_contra hcon
  obtain ⟨hshort, hcyc⟩ := not_or.mp hcon
  have hopen := newSegment_eq crc file base.toNat maxSize
  cases hloop : recoverLoop crc file file.length 0 base.toNat with
  | error e =>
    rw [hloop] at hopen
    obtain ⟨pos, -, hround⟩ := recoverLoop_error .start hloop
    obtain ⟨rfl, -⟩ := intactBatchAt_error hround
    exact h.no_panic hopen
  | ok r =>
    obtain ⟨pos, next⟩ := r
    have hcalm : ∀ pos, Reached crc file pos →
        intactBatchAt crc file pos ≠ .error .negativeAllocation := by
      intro at' hreach hround
      rw [(recoverLoop_panics_iff base.toNat).mpr ⟨at', hreach, hround⟩] at hloop
      cases hloop
    have hnext : next ≠ base.toNat := by
      intro he
      have hoff := recoverLoop_offsets base.toNat_lt hloop
      have hlt := base.toNat_lt
      refine hcyc ⟨?_, hcalm⟩
      rw [he] at hoff
      change base.toNat = (base.toNat + intactOffsets crc file) % 2 ^ 64 at hoff
      omega
    rw [hloop] at hopen
    simp only [Except.bind, hnext, false_and, if_false] at hopen
    obtain ⟨cs, tail, hfile, hst, hbad, hlt, hle⟩ := not_noShort_recoverLoop hshort hloop
    obtain ⟨-, cs', hfile', hst', -⟩ := h.kept _ hopen
    -- the kept batches begin with the whole ones, and go on with the short one
    have hlen : cs'.flatten.length = pos := by
      rw [← hfile', List.length_take]
      omega
    have hsplit : cs.flatten ++ tail = cs'.flatten ++ file.drop pos := by
      rw [← hfile', List.take_append_drop, hfile]
    obtain ⟨more, rfl⟩ := stored_prefix_unique hst hst' hsplit (by omega)
    cases more with
    | nil =>
      rw [List.append_nil] at hlen
      omega
    | cons c more =>
      rw [List.flatten_append, List.append_assoc, List.flatten_cons, List.append_assoc] at hsplit
      exact hbad.not_stored (List.append_cancel_left hsplit) (hst' c (by simp))

/-- Opening a segment copes with a file exactly if no short header follows whole
batches in it, or its batches count a multiple of `2^64` offsets. -/
theorem recovery_survives_iff (crc : Checksum) (file : ByteString) (base : UInt64)
    (maxSize : Int64) :
    Survives crc file base.toNat maxSize ↔ NoShort crc file ∨ Cyclic crc file := by
  constructor
  · exact Survives.condition
  · rintro (hno | hcyc)
    · exact hno.survives base.toNat maxSize
    · exact hcyc.survives base maxSize

/-- A header with magic 2 that declares `batchLength` bytes after the first 12, and
zeros otherwise. -/
def shortHeader (batchLength : Nat) : ByteString :=
  List.replicate 8 0 ++ beBytes 4 batchLength ++ List.replicate 4 0 ++ [2] ++ List.replicate 44 0

/-- A length of zero makes `recover` allocate `12 - 21` bytes; a length of 9 leaves an
empty checksum body, so 21 bytes are kept whose header cannot be read. -/
theorem short_header_breaks_recovery :
    newSegment crc32c (shortHeader 0) 0 1000 = .error .negativeAllocation ∧
      ∃ s, newSegment crc32c (shortHeader 9) 0 1000 = .ok s ∧ s.file.length = 21 ∧
        s.readBatchMetaAt 0 = .error (.readMeta 0) := by
  refine ⟨by decide +kernel, ⟨(shortHeader 9).take 21, 0, 1, 21, 1000⟩, by decide +kernel,
    by decide +kernel, by decide +kernel⟩

end MessageBroker.Storage
