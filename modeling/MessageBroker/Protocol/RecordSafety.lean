import MessageBroker.Protocol.LeaderEpochSafety
import MessageBroker.Protocol.RecordBatch
import MessageBroker.Storage.DecodeSafety

/-!
# Record batches from anyone

`DecodeRecordBatch` runs on what a client calls record batches. Its decoder keeps an
error and goes on, so a loop over record headers runs for as many rounds as the
record has headers by its own account, long after the data has ended. The walk reads
the records as their lengths say and is stuck at a size without a header, a negative
number of records, a field that ends beyond every position, and at more headers than
a limit.
-/
namespace MessageBroker.Protocol

open Lib.Bytes Lib.Varint Lib.Layouts
open Lib.Cursors (bind_ok bind_error of_bind_ok)
open Storage (Batch Message Checksum crc32c)

/-! ## The rounds of the loops -/

namespace Decoder

/-- The rounds of the header loop that are begun. -/
def headerRounds : Nat → Decoder → Nat
  | 0, _ => 0
  | n + 1, d =>
      match (do
        let _key ← nullableField
        let _value ← nullableField
        pure () : Decode Unit) d with
      | .error _ => 1
      | .ok (_, d) => headerRounds n d + 1

/-- The rounds of the header loop of the record at the decoder. -/
def headersAt (d : Decoder) : Nat :=
  match recordFields d with
  | .error _ => 0
  | .ok (r, d) => headerRounds r.2.2.2.toInt.toNat d

/-- The rounds of the record loop that are begun, each with the rounds of its header
loop. -/
def recordRounds (baseTimestamp : Int64) : Nat → Decoder → List Nat
  | 0, _ => []
  | n + 1, d =>
      headersAt d ::
      match decodeRecord baseTimestamp d with
      | .error _ => []
      | .ok (_, d) => if d.err ≠ none then [] else recordRounds baseTimestamp n d

def bodyRounds (bodyBytes : ByteString) : List Nat :=
  match bodyFields (newDecoder bodyBytes) with
  | .error _ => []
  | .ok (r, d) =>
      if d.err ≠ none ∨ r.2.2.2.2 < 0 then []
      else recordRounds r.2.2.1 r.2.2.2.2.toInt.toNat d

end Decoder

/-- The size a batch declares; `batchLength` is signed here. -/
def signedSize (data : ByteString) : Int := 12 + (Int32.ofNat (field data 8 4)).toInt

/-- The bytes of a batch behind its checksum. -/
def bodyOf (data : ByteString) : ByteString := (data.take (signedSize data).toNat).drop 21

/-- The batch gets to the slice that its checksum covers. -/
def ToChecksum (data : ByteString) : Prop :=
  17 ≤ data.length ∧ signedSize data ≤ data.length ∧ field data 16 1 = 2

/-- The batch gets to its records. -/
def ToBody (crc : Checksum) (data : ByteString) : Prop :=
  ToChecksum data ∧ 21 ≤ signedSize data ∧ crc (bodyOf data) = UInt32.ofNat (field data 17 4)

instance (data : ByteString) : Decidable (ToChecksum data) :=
  inferInstanceAs (Decidable (_ ∧ _ ∧ _))

instance (crc : Checksum) (data : ByteString) : Decidable (ToBody crc data) :=
  inferInstanceAs (Decidable (_ ∧ _ ∧ _))

/-- The rounds of the loops of `decodeOneRecordBatch`. -/
def batchRounds (crc : Checksum) (data : ByteString) : List Nat :=
  if ToBody crc data then Decoder.bodyRounds (bodyOf data) else []

/-- The rounds of the batch loop that are begun, each with those of its loops. -/
def loopRounds (crc : Checksum) : Nat → ByteString → List (List Nat)
  | 0, _ => []
  | fuel + 1, rest =>
      if rest = [] then []
      else batchRounds crc rest ::
        match decodeOneRecordBatch crc rest with
        | .ok (.ok (_, consumed)) => loopRounds crc fuel (rest.drop consumed.toNat)
        | _ => []

/-- `DecodeRecordBatch` returns, and no loop begins more rounds than there are bytes. -/
def RecordBatchSafe (crc : Checksum) (data : ByteString) : Prop :=
  (∃ r, decodeRecordBatch crc data = .ok r) ∧
    (loopRounds crc data.length data).length ≤ data.length ∧
    ∀ rs ∈ loopRounds crc data.length data,
      rs.length ≤ data.length ∧ ∀ n ∈ rs, n ≤ data.length

/-! ## The walk -/

namespace Walk

variable (body : ByteString) (limit : Nat)

def int8 : Walk Int8 := do return Int8.ofNat (← number body 1)

def int64 : Walk Int64 := do return Int64.ofNat (← number body 8)

def varint : Walk Int64 := fun p =>
  if p < 0 then .error (.stuck (.position p))
  else
    match readVarint (body.drop p.toNat) with
    | none => .error .refused
    | some (v, n) => .ok (v, p + n)

def nullableField : Walk (Option ByteString) := do
  let n ← varint body
  if n < 0 then return none
  else do
    let bs ← bytes body n.toInt.toNat
    return some bs

def skipHeaders : Nat → Walk Unit
  | 0 => pure ()
  | n + 1 => do
      let _key ← nullableField body
      let _value ← nullableField body
      skipHeaders n

def recordFields : Walk (Int64 × Option ByteString × Option ByteString × Int64) := do
  let _length ← varint body
  let _attributes ← int8 body
  let tsDelta ← varint body
  let _offsetDelta ← varint body
  let key ← nullableField body
  let val ← nullableField body
  let headerCount ← varint body
  return (tsDelta, key, val, headerCount)

/-- A record whose header loop has a number of rounds within the limit. -/
def record : Walk Unit := do
  let r ← recordFields body
  if limit < r.2.2.2.toInt.toNat then throw (.stuck (.arrayLength r.2.2.2.toInt.toNat))
  else skipHeaders body r.2.2.2.toInt.toNat

def records : Nat → Walk Unit
  | 0 => pure ()
  | n + 1 => do
      record body limit
      records n

def bodyFields : Walk (Int16 × Int32 × Int64 × Int64 × Int32) := do
  let attributes ← int16 body
  let lastOffsetDelta ← int32 body
  let baseTimestamp ← int64 body
  let maxTimestamp ← int64 body
  let _producerId ← int64 body
  let _producerEpoch ← int16 body
  let _baseSequence ← int32 body
  let recordCount ← int32 body
  return (attributes, lastOffsetDelta, baseTimestamp, maxTimestamp, recordCount)

def recordBody : Walk Unit := do
  let r ← bodyFields body
  if r.2.2.2.2 < 0 then throw (.stuck (.arrayLength r.2.2.2.2.toUInt32.toNat))
  else records body limit r.2.2.2.2.toInt.toNat

variable {body}

theorem goes_varint : Goes (body.length : Int) (varint body) := by
  intro p v p' h
  unfold varint at h
  split at h
  · cases h
  split at h
  · cases h
  · rename_i n hread
    cases h
    obtain ⟨hpos, hn⟩ := Storage.readVarint_some hread
    rw [List.length_drop] at hn
    omega

theorem keeps_number (w : Nat) : Keeps (number body w) := by
  intro p v p' h
  unfold number at h
  split at h
  · cases h
  split at h
  · cases h
  · cases h
    omega

theorem keeps_bytes (n : Nat) : Keeps (bytes body n) := by
  intro p v p' h
  unfold bytes at h
  split at h
  · cases h
  split at h
  · cases h
  · cases h
    omega

theorem keeps_nullableField : Keeps (nullableField body) := by
  refine goes_varint.keeps.bind fun n => ?_
  split
  · exact keeps_pure none
  · exact (keeps_bytes _).bind fun bs => keeps_pure (some bs)

theorem keeps_skipHeaders (n : Nat) : Keeps (skipHeaders body n) := by
  induction n with
  | zero => exact keeps_pure ()
  | succ n ih => exact keeps_nullableField.bind fun _ => keeps_nullableField.bind fun _ => ih

theorem keeps_bodyFields : Keeps (bodyFields body) := by
  have h16 : Keeps (int16 body) := (keeps_number 2).bind fun v => keeps_pure (Int16.ofNat v)
  have h32 : Keeps (int32 body) := (keeps_number 4).bind fun v => keeps_pure (Int32.ofNat v)
  have h64 : Keeps (int64 body) := (keeps_number 8).bind fun v => keeps_pure (Int64.ofNat v)
  exact h16.bind fun _ => h32.bind fun _ => h64.bind fun _ => h64.bind fun _ => h64.bind fun _ =>
    h16.bind fun _ => h32.bind fun _ => h32.bind fun _ => keeps_pure _

theorem goes_record : Goes (body.length : Int) (record body limit) := by
  have hfields : Goes (body.length : Int) (recordFields body) :=
    goes_varint.bind fun _ => ((keeps_number 1).bind fun v => keeps_pure (Int8.ofNat v)).bind
      fun _ => goes_varint.keeps.bind fun _ => goes_varint.keeps.bind fun _ =>
      keeps_nullableField.bind fun _ => keeps_nullableField.bind fun _ =>
      goes_varint.keeps.bind fun _ => keeps_pure _
  refine hfields.bind fun r => ?_
  split
  · rintro p v p' ⟨⟩
  · exact keeps_skipHeaders _

end Walk

/-- What the walk makes of the batch at the start of the data: its size, or why it
stops. -/
def walkBatch (crc : Checksum) (limit : Nat) (data : ByteString) : Except (Stop Misfit) Nat :=
  if ToChecksum data ∧ signedSize data < 21 then .error (.stuck (.position (signedSize data)))
  else if ToBody crc data then
    match Walk.recordBody (bodyOf data) limit 0 with
    | .ok _ => .ok (signedSize data).toNat
    | .error stop => .error stop
  else .error .refused

/-- No batch leaves the walk without a way on, up to the first that is refused. -/
def batchesHold (crc : Checksum) (limit : Nat) : Nat → ByteString → Bool
  | 0, _ => true
  | fuel + 1, rest =>
      if rest = [] then true
      else
        match walkBatch crc limit rest with
        | .ok size => batchesHold crc limit fuel (rest.drop size)
        | .error .refused => true
        | .error (.stuck _) => false

/-! ## The decoder takes the walk -/

namespace Decoder

section Steps

variable {body : ByteString}

theorem walks_int8 (hbody : HasRoom body) : Follows (drifting body) int8 (Walk.int8 body) :=
  (walks_number hbody (by decide)).return

theorem walks_int64 (hbody : HasRoom body) : Follows (drifting body) int64 (Walk.int64 body) :=
  (walks_number hbody (by decide)).return

theorem varint_failed {d : Decoder} (he : d.err ≠ none) : varint d = .ok (0, d) := by
  have hget : (get : Decode Decoder) d = .ok (d, d) := rfl
  unfold varint
  rw [bind_ok hget, if_pos he]
  rfl

/-- What `Varint` answers at a position of the body. -/
theorem varint_stands (hbody : HasRoom body) {d : Decoder} {p : Int}
    (hs : (drifting body).stands d p) (hp : 0 ≤ p) :
    varint d = match readVarint (body.drop p.toNat) with
      | none => .ok (0, d.fail (.varintFailed p))
      | some (v, n) => .ok (v, d.moveTo (p.toNat + n)) := by
  have hget : (get : Decode Decoder) d = .ok (d, d) := rfl
  have hat := at_of_stands hbody hs hp
  have hlen := hat.len_lt
  unfold varint
  rw [bind_ok hget, if_neg (not_not.mpr hs.2.1), bind_ok hat.sliceFrom, hs.1]
  rcases hread : readVarint (body.drop p.toNat) with _ | ⟨v, n⟩
  · rw [← hs.2.2.1]
    rfl
  · have hn := (Storage.readVarint_some hread).2
    rw [List.length_drop, ← hs.1] at hn
    have hle := hat.le
    simp only
    rw [bind_ok (hat.advance (by omega))]
    rfl

theorem walks_varint (hbody : HasRoom body) :
    Follows (drifting body) varint (Walk.varint body) where
  sticky d hs := ⟨0, d, varint_failed hs.2, hs⟩
  agree d p hs := by
    by_cases hneg : p < 0
    · have hget : (get : Decode Decoder) d = .ok (d, d) := rfl
      have hrun : varint d = .error .sliceOutOfRange := by
        unfold varint
        rw [bind_ok hget, if_neg (not_not.mpr hs.2.1)]
        exact bind_error (sliceFrom_negative hs hneg)
      rw [hrun, Walk.varint, if_pos hneg]
      trivial
    · have hhi := hs.2.2.2.2
      rw [varint_stands hbody hs (not_lt.mp hneg), Walk.varint, if_neg hneg]
      rcases hread : readVarint (body.drop p.toNat) with _ | ⟨v, n⟩
      · exact failed_fail hs _
      · have hn := (Storage.readVarint_some hread).2
        rw [List.length_drop] at hn
        refine ⟨rfl, ?_⟩
        have hmoved := stands_moveTo_int hs (show p.toNat + n ≤ body.length by omega)
        rwa [show ((p.toNat + n : Nat) : Int) = p + n by omega] at hmoved

/-- A varint that is read leaves a position in the body; a failed read is zero. -/
theorem returns_varint (hbody : HasRoom body) :
    Returns (drifting body) varint (Walk.varint body) (· = 0) fun _ p => 0 ≤ p where
  refused d p v d' hs hread hrun := by
    unfold Walk.varint at hread
    split at hread
    next => cases hread
    next hneg =>
      split at hread
      next hnone =>
        rw [varint_stands hbody hs (not_lt.mp hneg), hnone] at hrun
        cases hrun
        rfl
      next => cases hread
  failed d v d' hs hrun := by
    rw [varint_failed hs.2] at hrun
    cases hrun
    rfl
  read d p v q hs hread := by
    unfold Walk.varint at hread
    split at hread
    next => cases hread
    next hneg =>
      split at hread
      next => cases hread
      next => cases hread; omega

theorem walks_nullableField (hbody : HasRoom body) :
    Follows (drifting body) nullableField (Walk.nullableField body) := by
  refine (walks_varint hbody).bind_of (returns_varint hbody) ?_ ?_
  · intro n d p hp hs
    have hlt := n.toInt_lt
    by_cases hneg : n < 0
    · rw [if_pos hneg, if_pos hneg]
      exact ⟨rfl, hs⟩
    · have hint : ¬ n.toInt < 0 := fun h => hneg (Int64.lt_iff_toInt_lt.mpr h)
      have hlength : n.toInt = wrap64 (n.toInt.toNat : Int) := by
        unfold wrap64
        omega
      rw [if_neg hneg, if_neg hneg]
      exact agree_bytes_map hbody hs hp (by omega) hlength none some
  · rintro _ rfl d hs
    refine ⟨none, d, ?_, hs⟩
    rw [if_neg (by decide), rawBytes, bind_ok (require_failed hs.2 _)]
    rfl

theorem walks_skipHeaders (hbody : HasRoom body) (n : Nat) :
    Follows (drifting body) (skipHeaders n) (Walk.skipHeaders body n) := by
  induction n with
  | zero => exact follows_pure ()
  | succ n ih =>
    exact (walks_nullableField hbody).bind fun _ => (walks_nullableField hbody).bind fun _ => ih

theorem walks_recordFields (hbody : HasRoom body) :
    Follows (drifting body) recordFields (Walk.recordFields body) :=
  (walks_varint hbody).bind fun _ => (walks_int8 hbody).bind fun _ =>
    (walks_varint hbody).bind fun _ => (walks_varint hbody).bind fun _ =>
    (walks_nullableField hbody).bind fun _ => (walks_nullableField hbody).bind fun _ =>
    (walks_varint hbody).return

theorem walks_bodyFields (hbody : HasRoom body) :
    Follows (drifting body) bodyFields (Walk.bodyFields body) :=
  (walks_int16 hbody).bind fun _ => (walks_int32 hbody).bind fun _ =>
    (walks_int64 hbody).bind fun _ => (walks_int64 hbody).bind fun _ =>
    (walks_int64 hbody).bind fun _ => (walks_int16 hbody).bind fun _ =>
    (walks_int32 hbody).bind fun _ => (walks_int32 hbody).return

/-! ## The rounds -/

theorem headerRounds_le (n : Nat) (d : Decoder) : headerRounds n d ≤ n := by
  induction n generalizing d with
  | zero => exact Nat.le_refl 0
  | succ n ih =>
    rw [headerRounds]
    split
    · omega
    · rename_i d' _
      have := ih d'
      omega

/-- A header loop that does not panic runs for all its rounds. -/
theorem headerRounds_eq {n : Nat} {d : Decoder} {r : Unit × Decoder}
    (h : skipHeaders n d = .ok r) : headerRounds n d = n := by
  induction n generalizing d with
  | zero => rfl
  | succ n ih =>
    have hstep : skipHeaders (n + 1) = (do
        let _key ← nullableField
        let _value ← nullableField
        pure () : Decode Unit) >>= fun _ => skipHeaders n := by
      rw [skipHeaders]
      simp only [bind_assoc, pure_bind]
    rw [hstep] at h
    obtain ⟨u, d', hfirst, hrest⟩ := of_bind_ok h
    rw [headerRounds, hfirst]
    simp only
    rw [ih hrest]

theorem varint_of_failed {d d' : Decoder} {v : Int64} (h : varint d = .ok (v, d'))
    (he : d'.err ≠ none) : v = 0 := by
  have hget : (get : Decode Decoder) d = .ok (d, d) := rfl
  unfold varint at h
  by_cases hd : d.err ≠ none
  · rw [bind_ok hget, if_pos hd] at h
    cases h
    rfl
  · rw [bind_ok hget, if_neg hd] at h
    obtain ⟨bs, d₁, hslice, hnext⟩ := of_bind_ok h
    have hsame : d₁ = d := by
      unfold sliceFrom at hslice
      split at hslice
      · cases hslice
        rfl
      · cases hslice
    subst hsame
    rcases hread : readVarint bs with _ | ⟨w, n⟩
    · rw [hread] at hnext
      cases hnext
      rfl
    · rw [hread] at hnext
      cases hnext
      exact absurd (not_not.mp hd) he

/-- A record that fails before its headers has none. -/
theorem recordFields_of_failed {d d' : Decoder}
    {r : Int64 × Option ByteString × Option ByteString × Int64}
    (h : recordFields d = .ok (r, d')) (he : d'.err ≠ none) : r.2.2.2 = 0 := by
  obtain ⟨_, _, -, h⟩ := of_bind_ok h
  obtain ⟨_, _, -, h⟩ := of_bind_ok h
  obtain ⟨_, _, -, h⟩ := of_bind_ok h
  obtain ⟨_, _, -, h⟩ := of_bind_ok h
  obtain ⟨_, _, -, h⟩ := of_bind_ok h
  obtain ⟨_, _, -, h⟩ := of_bind_ok h
  obtain ⟨n, d₁, hcount, h⟩ := of_bind_ok h
  cases h
  exact varint_of_failed hcount he

/-! ## Records -/

section Outcomes

variable {d : Decoder} {p : Int} (limit : Nat)

/-- What a decoder does where the walk of a record ends as it does: it goes on, it fails,
or it panics or runs for too many rounds. -/
def RecordOutcome (body : ByteString) (limit : Nat) (baseTimestamp : Int64) (d : Decoder) :
    Except (Stop Misfit) (Unit × Int) → Prop
  | .ok (_, q) => headersAt d ≤ limit ∧
      ∃ msg d', decodeRecord baseTimestamp d = .ok (msg, d') ∧ (drifting body).stands d' q
  | .error .refused => headersAt d ≤ limit ∧
      ∃ msg d', decodeRecord baseTimestamp d = .ok (msg, d') ∧ (drifting body).failed d'
  | .error (.stuck _) =>
      (∃ panic, decodeRecord baseTimestamp d = .error panic) ∨ limit < headersAt d

theorem record_outcome (hbody : HasRoom body) (baseTimestamp : Int64)
    (hs : (drifting body).stands d p) :
    RecordOutcome body limit baseTimestamp d (Walk.record body limit p) := by
  have hfields := (walks_recordFields hbody).agree d p hs
  rcases hrun : recordFields d with panic | ⟨r, d'⟩
  · have hpanic : decodeRecord baseTimestamp d = .error panic := by
      rw [decodeRecord, bind_error hrun]
    rcases hwalk : Walk.recordFields body p with stop | ⟨r', q⟩
    · rw [hrun, hwalk] at hfields
      cases stop with
      | refused => exact hfields.elim
      | stuck why =>
        rw [Walk.record, bind_error hwalk]
        exact .inl ⟨panic, hpanic⟩
    · rw [hrun, hwalk] at hfields
      exact hfields.elim
  have hheaders : headersAt d = headerRounds r.2.2.2.toInt.toNat d' := by rw [headersAt, hrun]
  have hdecode : decodeRecord baseTimestamp d = (do
      skipHeaders r.2.2.2.toInt.toNat
      return ⟨r.2.1, r.2.2.1, baseTimestamp + r.1⟩ : Decode Message) d' := by
    rw [decodeRecord, bind_ok hrun]
  rcases hwalk : Walk.recordFields body p with stop | ⟨r', q⟩
  · rw [hrun, hwalk] at hfields
    cases stop with
    | stuck why => exact hfields.elim
    | refused =>
      -- the number of headers that could not be read is zero
      have hzero : r.2.2.2.toInt.toNat = 0 := by
        rw [recordFields_of_failed hrun hfields.2]
        rfl
      rw [Walk.record, bind_error hwalk]
      refine ⟨?_, ⟨r.2.1, r.2.2.1, baseTimestamp + r.1⟩, d', ?_, hfields⟩
      · rw [hheaders, hzero]
        exact Nat.zero_le limit
      · rw [hdecode, hzero]
        rfl
  · rw [hrun, hwalk] at hfields
    obtain ⟨rfl, hs'⟩ := hfields
    rw [Walk.record, bind_ok hwalk]
    by_cases hmany : limit < r.2.2.2.toInt.toNat
    · rw [if_pos hmany]
      rcases hskip : skipHeaders r.2.2.2.toInt.toNat d' with panic | res
      · exact .inl ⟨panic, by rw [hdecode, bind_error hskip]⟩
      · exact .inr (by rwa [hheaders, headerRounds_eq hskip])
    · rw [if_neg hmany]
      have hle : headersAt d ≤ limit := by
        rw [hheaders]
        exact (headerRounds_le _ d').trans (not_lt.mp hmany)
      have hloop := (walks_skipHeaders hbody r.2.2.2.toInt.toNat).agree d' q hs'
      rcases hskip : skipHeaders r.2.2.2.toInt.toNat d' with panic | ⟨_, d''⟩
      · rcases hwalk' : Walk.skipHeaders body r.2.2.2.toInt.toNat q with stop | ⟨_, q'⟩
        · rw [hskip, hwalk'] at hloop
          cases stop with
          | refused => exact hloop.elim
          | stuck why => exact .inl ⟨panic, by rw [hdecode, bind_error hskip]⟩
        · rw [hskip, hwalk'] at hloop
          exact hloop.elim
      · have hdone : ∃ msg, decodeRecord baseTimestamp d = .ok (msg, d'') :=
          ⟨_, by rw [hdecode, bind_ok hskip]; rfl⟩
        obtain ⟨msg, hdone⟩ := hdone
        rcases hwalk' : Walk.skipHeaders body r.2.2.2.toInt.toNat q with stop | ⟨_, q'⟩
        · rw [hskip, hwalk'] at hloop
          cases stop with
          | refused => exact ⟨hle, msg, d'', hdone, hloop⟩
          | stuck why => exact hloop.elim
        · rw [hskip, hwalk'] at hloop
          exact ⟨hle, msg, d'', hdone, hloop.2⟩

/-- The record loop after a record that was read. -/
theorem decodeRecords_read {baseTimestamp : Int64} {d d' : Decoder} {msg : Message}
    (hrun : decodeRecord baseTimestamp d = .ok (msg, d')) (herr : d'.err = none) (i n : Nat) :
    decodeRecords baseTimestamp i (n + 1) d = (do
      match ← decodeRecords baseTimestamp (i + 1) n with
      | .error e => return .error e
      | .ok msgs => return .ok (msg :: msgs) : Decode (Except RecordBatchError (List Message)))
      d' := by
  have herror : Decoder.error d' = .ok (d'.err, d') := rfl
  rw [decodeRecords, bind_ok hrun, bind_ok herror]
  cases hd : d'.err with
  | some e => cases hd.symm.trans herr
  | none => rfl

/-- The same of the record loop, which also stays within the data. -/
def RecordsOutcome (body : ByteString) (limit : Nat) (baseTimestamp : Int64) (i n : Nat)
    (d : Decoder) (p : Int) : Except (Stop Misfit) (Unit × Int) → Prop
  | .ok _ => (∀ k ∈ recordRounds baseTimestamp n d, k ≤ limit) ∧
      (recordRounds baseTimestamp n d).length ≤ (body.length - p).toNat + 1 ∧
      ∃ msgs d', decodeRecords baseTimestamp i n d = .ok (.ok msgs, d')
  | .error .refused => (∀ k ∈ recordRounds baseTimestamp n d, k ≤ limit) ∧
      (recordRounds baseTimestamp n d).length ≤ (body.length - p).toNat + 1 ∧
      ∃ e d', decodeRecords baseTimestamp i n d = .ok (.error e, d')
  | .error (.stuck _) => (∃ panic, decodeRecords baseTimestamp i n d = .error panic) ∨
      ∃ k ∈ recordRounds baseTimestamp n d, limit < k

theorem records_outcome (hbody : HasRoom body) (baseTimestamp : Int64) (i n : Nat)
    (hs : (drifting body).stands d p) :
    RecordsOutcome body limit baseTimestamp i n d p (Walk.records body limit n p) := by
  induction n generalizing i d p with
  | zero =>
    exact ⟨fun k hk => absurd hk List.not_mem_nil, Nat.zero_le _, [], d, rfl⟩
  | succ n ih =>
    have hrecord := record_outcome limit hbody baseTimestamp hs
    have herror : ∀ d : Decoder, Decoder.error d = .ok (d.err, d) := fun _ => rfl
    rcases hwalk : Walk.record body limit p with stop | ⟨_, q⟩
    · rw [hwalk] at hrecord
      rw [Walk.records, bind_error hwalk]
      cases stop with
      | refused =>
        obtain ⟨hle, msg, d', hrun, hfailed⟩ := hrecord
        have hrounds : recordRounds baseTimestamp (n + 1) d = [headersAt d] := by
          rw [recordRounds, hrun]
          simp only [if_pos hfailed.2]
        obtain ⟨e, he⟩ := Option.ne_none_iff_exists'.mp hfailed.2
        refine ⟨fun k hk => ?_, ?_, .record i e, d', ?_⟩
        · rw [hrounds, List.mem_singleton] at hk
          rw [hk]
          exact hle
        · rw [hrounds]
          exact Nat.le_add_left 1 _
        · rw [decodeRecords, bind_ok hrun, bind_ok (herror d'), he]
          rfl
      | stuck why =>
        rcases hrecord with ⟨panic, hpanic⟩ | hmany
        · exact .inl ⟨panic, by rw [decodeRecords, bind_error hpanic]⟩
        · exact .inr ⟨_, List.mem_cons_self, hmany⟩
    · rw [hwalk] at hrecord
      obtain ⟨hle, msg, d', hrun, hs'⟩ := hrecord
      obtain ⟨hlt, hlen⟩ := Walk.goes_record limit p _ q hwalk
      have hrounds : recordRounds baseTimestamp (n + 1) d =
          headersAt d :: recordRounds baseTimestamp n d' := by
        rw [recordRounds, hrun]
        simp only [hs'.2.1, ne_eq, not_true, if_false]
      have hdecode := decodeRecords_read hrun hs'.2.1 i n
      have hbounds : (∀ k ∈ recordRounds baseTimestamp n d', k ≤ limit) →
          (recordRounds baseTimestamp n d').length ≤ (body.length - q).toNat + 1 →
          (∀ k ∈ recordRounds baseTimestamp (n + 1) d, k ≤ limit) ∧
            (recordRounds baseTimestamp (n + 1) d).length ≤ (body.length - p).toNat + 1 := by
        intro hall hcount
        rw [hrounds, List.length_cons]
        exact ⟨List.forall_mem_cons.mpr ⟨hle, hall⟩, by omega⟩
      have hrest := ih (i + 1) hs'
      rw [Walk.records, bind_ok hwalk]
      rcases hmore : Walk.records body limit n q with stop | ⟨_, q'⟩
      · rw [hmore] at hrest
        cases stop with
        | refused =>
          obtain ⟨hall, hcount, e, d'', hrun'⟩ := hrest
          obtain ⟨hall', hcount'⟩ := hbounds hall hcount
          exact ⟨hall', hcount', e, d'', by rw [hdecode, bind_ok hrun']; rfl⟩
        | stuck why =>
          rcases hrest with ⟨panic, hpanic⟩ | ⟨k, hk, hmany⟩
          · exact .inl ⟨panic, by rw [hdecode, bind_error hpanic]⟩
          · exact .inr ⟨k, by rw [hrounds]; exact List.mem_cons_of_mem _ hk, hmany⟩
      · rw [hmore] at hrest
        obtain ⟨hall, hcount, msgs, d'', hrun'⟩ := hrest
        obtain ⟨hall', hcount'⟩ := hbounds hall hcount
        exact ⟨hall', hcount', msg :: msgs, d'', by rw [hdecode, bind_ok hrun']; rfl⟩

end Outcomes

/-! ## The body of a batch -/

/-- The batch of the fields of a body. -/
def batchOfBody (baseOffset : Int64) (r : Int16 × Int32 × Int64 × Int64 × Int32)
    (messages : List Message) : Batch where
  firstOffset := baseOffset.toUInt64.toNat
  attributes := r.1.toUInt16
  firstTimestamp := r.2.2.1
  maxTimestamp := r.2.2.2.1
  lastOffsetDelta := r.2.1.toUInt32.toNat
  messages := messages

theorem decodeBody_eq (baseOffset : Int64) :
    decodeBody baseOffset = bodyFields >>= fun r => do
      match ← error with
      | some e => return .error (.decode e)
      | none =>
        if r.2.2.2.2 < 0 then throw .makeNegativeLength
        match ← decodeRecords r.2.2.1 0 r.2.2.2.2.toInt.toNat with
        | .error e => return .error e
        | .ok messages => return .ok (batchOfBody baseOffset r messages) := by
  rfl

/-- What `decodeOneRecordBatch` makes of a body where the walk ends as it does. -/
def BodyOutcome (body : ByteString) (limit : Nat) (baseOffset : Int64) :
    Except (Stop Misfit) (Unit × Int) → Prop
  | .ok _ => (∀ k ∈ bodyRounds body, k ≤ limit) ∧ (bodyRounds body).length ≤ body.length + 1 ∧
      ∃ batch d, decodeBody baseOffset (newDecoder body) = .ok (.ok batch, d)
  | .error .refused => (∀ k ∈ bodyRounds body, k ≤ limit) ∧
      (bodyRounds body).length ≤ body.length + 1 ∧
      ∃ e d, decodeBody baseOffset (newDecoder body) = .ok (.error e, d)
  | .error (.stuck _) => (∃ panic, decodeBody baseOffset (newDecoder body) = .error panic) ∨
      ∃ k ∈ bodyRounds body, limit < k

theorem body_outcome (hbody : HasRoom body) (limit : Nat) (baseOffset : Int64) :
    BodyOutcome body limit baseOffset (Walk.recordBody body limit 0) := by
  have hstart : (drifting body).stands (newDecoder body) 0 :=
    ⟨rfl, rfl, rfl, by decide, Int.natCast_nonneg _⟩
  have herror : ∀ d : Decoder, Decoder.error d = .ok (d.err, d) := fun _ => rfl
  have hfields := (walks_bodyFields hbody).agree _ _ hstart
  rcases hrun : bodyFields (newDecoder body) with panic | ⟨r, d⟩
  · rcases hwalk : Walk.bodyFields body 0 with stop | ⟨r', q⟩
    · rw [hrun, hwalk] at hfields
      cases stop with
      | refused => exact hfields.elim
      | stuck why =>
        rw [Walk.recordBody, bind_error hwalk]
        exact .inl ⟨panic, by rw [decodeBody_eq, bind_error hrun]⟩
    · rw [hrun, hwalk] at hfields
      exact hfields.elim
  rcases hwalk : Walk.bodyFields body 0 with stop | ⟨r', q⟩
  · rw [hrun, hwalk] at hfields
    cases stop with
    | stuck why => exact hfields.elim
    | refused =>
      have hrounds : bodyRounds body = [] := by
        rw [bodyRounds, hrun]
        simp only [if_pos (Or.inl hfields.2)]
      obtain ⟨e, he⟩ := Option.ne_none_iff_exists'.mp hfields.2
      rw [Walk.recordBody, bind_error hwalk]
      refine ⟨fun k hk => ?_, ?_, .decode e, d, ?_⟩
      · rw [hrounds] at hk
        exact absurd hk List.not_mem_nil
      · rw [hrounds]
        exact Nat.zero_le _
      · rw [decodeBody_eq, bind_ok hrun, bind_ok (herror d), he]
        rfl
  rw [hrun, hwalk] at hfields
  obtain ⟨rfl, hs⟩ := hfields
  rw [Walk.recordBody, bind_ok hwalk]
  by_cases hneg : r.2.2.2.2 < 0
  · rw [if_pos hneg]
    refine .inl ⟨.makeNegativeLength, ?_⟩
    rw [decodeBody_eq, bind_ok hrun, bind_ok (herror d), hs.2.1]
    simp only [if_pos hneg]
    rfl
  rw [if_neg hneg]
  have hrounds : bodyRounds body = recordRounds r.2.2.1 r.2.2.2.2.toInt.toNat d := by
    rw [bodyRounds, hrun]
    simp only [if_neg (not_or.mpr ⟨not_not.mpr hs.2.1, hneg⟩)]
  have hdecode : decodeBody baseOffset (newDecoder body) = (do
      match ← decodeRecords r.2.2.1 0 r.2.2.2.2.toInt.toNat with
      | .error e => return .error e
      | .ok messages => return .ok (batchOfBody baseOffset r messages) :
        Decode (Except RecordBatchError Batch)) d := by
    rw [decodeBody_eq, bind_ok hrun, bind_ok (herror d), hs.2.1]
    simp only [if_neg hneg]
  have hloop := records_outcome limit hbody r.2.2.1 0 r.2.2.2.2.toInt.toNat hs
  have hq : 0 ≤ q := Walk.keeps_bodyFields 0 r q hwalk
  have hcap : (body.length - q).toNat + 1 ≤ body.length + 1 := by omega
  rcases hmore : Walk.records body limit r.2.2.2.2.toInt.toNat q with stop | ⟨_, q'⟩
  · rw [hmore] at hloop
    cases stop with
    | refused =>
      obtain ⟨hall, hcount, e, d', hdone⟩ := hloop
      rw [← hrounds] at hall hcount
      exact ⟨hall, hcount.trans hcap, e, d', by rw [hdecode, bind_ok hdone]; rfl⟩
    | stuck why =>
      rcases hloop with ⟨panic, hpanic⟩ | ⟨k, hk, hmany⟩
      · exact .inl ⟨panic, by rw [hdecode, bind_error hpanic]⟩
      · exact .inr ⟨k, by rw [hrounds]; exact hk, hmany⟩
  · rw [hmore] at hloop
    obtain ⟨hall, hcount, msgs, d', hdone⟩ := hloop
    rw [← hrounds] at hall hcount
    exact ⟨hall, hcount.trans hcap, batchOfBody baseOffset r msgs, d',
      by rw [hdecode, bind_ok hdone]; rfl⟩

end Steps

/-! ## One batch -/

section Batch

variable {crc : Checksum} {data : ByteString}

/-- The epoch, which is not used, and the magic. -/
def magicField : Decode Int8 := do
  let _partitionLeaderEpoch ← int32
  int8

/-- `decodeOneRecordBatch` from the check of the size on. -/
def afterSize (crc : Checksum) (data : ByteString) (baseOffset : Int64) (totalSize : Int) :
    Decode (Except RecordBatchError (Batch × Int)) := do
  let magic ← magicField
  if magic ≠ 2 then return .error (.unsupportedMagic magic)
  else do
    let storedCRC ← uint32
    if totalSize < 21 then throw .sliceOutOfRange
    else if crc ((data.take totalSize.toNat).drop 21) ≠ storedCRC then return .error .crcMismatch
    else do
      let (result, _) ← decodeBody baseOffset (newDecoder ((data.take totalSize.toNat).drop 21))
      return result.map fun batch => (batch, totalSize)

theorem decodeBatchAt_eq : decodeBatchAt crc data = (do
    let baseOffset ← int64
    let batchLength ← int32
    if data.length < 12 + batchLength.toInt then
      return .error (.truncated (12 + batchLength.toInt) data.length)
    else afterSize crc data baseOffset (12 + batchLength.toInt)) := by
  unfold decodeBatchAt afterSize magicField
  simp only [bind_assoc]
  rfl

/-- Up to the size. -/
theorem decodeOneRecordBatch_eq (crc : Checksum) (hroom : HasRoom data) (h12 : 12 ≤ data.length) :
    ∃ d : Decoder, d.At 12 ∧ d.buf = data ∧ decodeOneRecordBatch crc data =
      Except.map Prod.fst (if data.length < signedSize data then
          .ok (.error (.truncated (signedSize data) data.length), d)
        else afterSize crc data (Int64.ofNat (field data 0 8)) (signedSize data) d) := by
  have hlen : data.length < 2 ^ 63 := by
    have : data.length + 2 ^ 31 ≤ 2 ^ 63 := hroom
    omega
  have h0 : (newDecoder data).At 0 := ⟨rfl, rfl, Nat.zero_le _, hlen⟩
  have h8 : ((newDecoder data).moveTo 8).At 8 := h0.moveTo (show 8 ≤ data.length by omega)
  have hoffset : int64 (newDecoder data) =
      .ok (Int64.ofNat (field data 0 8), (newDecoder data).moveTo 8) := by
    rw [int64, bind_ok (h0.uint_ok (w := 8) (show 0 + 8 ≤ data.length by omega))]
    rfl
  have hsize : int32 ((newDecoder data).moveTo 8) =
      .ok (Int32.ofNat (field data 8 4), ((newDecoder data).moveTo 8).moveTo 12) := by
    rw [int32, bind_ok (h8.uint_ok (w := 4) (show 8 + 4 ≤ data.length by omega))]
    rfl
  refine ⟨((newDecoder data).moveTo 8).moveTo 12, h8.moveTo h12, rfl, ?_⟩
  rw [decodeOneRecordBatch, if_neg (not_lt.mpr h12), decodeBatchAt_eq]
  show Except.map Prod.fst _ = _
  rw [bind_ok hoffset, bind_ok hsize]
  unfold signedSize
  split <;> rfl

/-- The magic is zero if there is none. -/
theorem magic_read {d : Decoder} (hroom : HasRoom data) (hat : d.At 12) (hbuf : d.buf = data) :
    ∃ m d', magicField d = .ok (m, d') ∧
      (17 ≤ data.length → m = Int8.ofNat (field data 16 1) ∧ d'.At 17 ∧ d'.buf = data) ∧
      (data.length < 17 → m = 0) := by
  have hlen : data.length + 2 ^ 31 ≤ 2 ^ 63 := hroom
  subst hbuf
  by_cases h16 : 16 ≤ d.buf.length
  · have hepoch : int32 d = .ok (Int32.ofNat (field d.buf 12 4), d.moveTo 16) := by
      rw [int32, bind_ok (hat.uint_ok (w := 4) h16)]
      rfl
    have hat' : (d.moveTo 16).At 16 := hat.moveTo h16
    rw [magicField, bind_ok hepoch, int8]
    by_cases h17 : 17 ≤ d.buf.length
    · rw [bind_ok (hat'.uint_ok (w := 1) h17)]
      exact ⟨_, _, rfl, fun _ => ⟨rfl, hat'.moveTo h17, rfl⟩, fun h => absurd h17 (by omega)⟩
    · rw [bind_ok (hat'.uint_short (w := 1) (by omega)
        (show d.buf.length < 16 + 1 by omega))]
      exact ⟨_, _, rfl, fun h => absurd h h17, fun _ => rfl⟩
  · have hepoch : ∃ v d', int32 d = .ok (v, d') ∧ d'.err ≠ none := by
      rw [int32, bind_ok (hat.uint_short (w := 4) (by omega) (by omega))]
      exact ⟨_, _, rfl, Option.some_ne_none _⟩
    obtain ⟨v, d', hepoch, herr⟩ := hepoch
    rw [magicField, bind_ok hepoch, int8, bind_ok (uint_failed herr 1)]
    exact ⟨_, _, rfl, fun h => absurd h (by omega), fun _ => rfl⟩

theorem magic_eq_two {n : Nat} (hn : n < 256) : Int8.ofNat n = 2 ↔ n = 2 := by
  constructor
  · intro h
    have hbits : BitVec.ofNat 8 n = 2#8 := congrArg Int8.toBitVec h
    have hnat := congrArg BitVec.toNat hbits
    rw [BitVec.toNat_ofNat] at hnat
    simp only [BitVec.toNat_ofNat] at hnat
    omega
  · rintro rfl
    rfl

/-- A batch that does not get to its checksum is refused. -/
theorem decodeOneRecordBatch_refused (crc : Checksum) (hroom : HasRoom data)
    (h : ¬ ToChecksum data) : ∃ e, decodeOneRecordBatch crc data = .ok (.error e) := by
  by_cases h12 : data.length < 12
  · exact ⟨_, if_pos h12⟩
  obtain ⟨d, hat, hbuf, hrun⟩ := decodeOneRecordBatch_eq crc hroom (not_lt.mp h12)
  by_cases hsize : data.length < signedSize data
  · rw [if_pos hsize] at hrun
    exact ⟨_, hrun⟩
  obtain ⟨m, d', hread, hlong, hshort⟩ := magic_read hroom hat hbuf
  have hmagic : m ≠ 2 := by
    by_cases h17 : 17 ≤ data.length
    · rw [(hlong h17).1, Ne, magic_eq_two (field_lt _ _ _)]
      exact fun htwo => h ⟨h17, not_lt.mp hsize, htwo⟩
    · rw [hshort (not_le.mp h17)]
      decide
  rw [if_neg hsize, afterSize, bind_ok hread, if_pos hmagic] at hrun
  exact ⟨_, hrun⟩

/-- A batch that gets to its checksum: the slice, the comparison and the body. -/
theorem decodeOneRecordBatch_checked (crc : Checksum) (hroom : HasRoom data) (h : ToChecksum data) :
    decodeOneRecordBatch crc data =
      if signedSize data < 21 then .error .sliceOutOfRange
      else if crc (bodyOf data) ≠ UInt32.ofNat (field data 17 4) then .ok (.error .crcMismatch)
      else (decodeBody (Int64.ofNat (field data 0 8)) (newDecoder (bodyOf data))).map fun r =>
        r.1.map fun batch => (batch, signedSize data) := by
  obtain ⟨h17, hsize, htwo⟩ := h
  obtain ⟨d, hat, hbuf, hrun⟩ := decodeOneRecordBatch_eq crc hroom (by omega)
  obtain ⟨m, d', hread, hlong, -⟩ := magic_read hroom hat hbuf
  obtain ⟨hmagic, hat', hbuf'⟩ := hlong h17
  have hm2 : ¬ m ≠ 2 := by
    rw [hmagic, not_not, magic_eq_two (field_lt _ _ _)]
    exact htwo
  rw [if_neg (not_lt.mpr hsize), afterSize, bind_ok hread, if_neg hm2] at hrun
  have hcrc : ∃ v d'', uint32 d' = .ok (v, d'') ∧
      (21 ≤ data.length → v = UInt32.ofNat (field data 17 4)) := by
    subst hbuf'
    have hlen : d'.buf.length + 2 ^ 31 ≤ 2 ^ 63 := hroom
    by_cases h21 : 21 ≤ d'.buf.length
    · rw [uint32, bind_ok (hat'.uint_ok (w := 4) h21)]
      exact ⟨_, _, rfl, fun _ => rfl⟩
    · rw [uint32, bind_ok (hat'.uint_short (w := 4) (by omega) (by omega))]
      exact ⟨_, _, rfl, fun h => absurd h h21⟩
  obtain ⟨v, d'', hv, hvalue⟩ := hcrc
  rw [hrun, bind_ok hv]
  by_cases h21 : signedSize data < 21
  · rw [if_pos h21, if_pos h21]
    rfl
  rw [if_neg h21, if_neg h21, hvalue (by omega)]
  show Except.map Prod.fst ((if crc (bodyOf data) ≠ _ then _ else _ : Decode _) d'') = _
  by_cases hsum : crc (bodyOf data) ≠ UInt32.ofNat (field data 17 4)
  · rw [if_pos hsum, if_pos hsum]
    rfl
  · rw [if_neg hsum, if_neg hsum]
    show Except.map Prod.fst ((do
      let (result, _) ← decodeBody (Int64.ofNat (field data 0 8)) (newDecoder (bodyOf data))
      return result.map fun batch => (batch, signedSize data) : Decode _) d'') = _
    rcases decodeBody (Int64.ofNat (field data 0 8)) (newDecoder (bodyOf data)) with e | ⟨r, d₁⟩
    · rfl
    · rfl

end Batch

end Decoder

/-! ## Safety -/

open Decoder in
/-- What `decodeOneRecordBatch` does where the walk of a batch ends as it does. -/
def BatchOutcome (crc : Checksum) (limit : Nat) (data : ByteString) :
    Except (Stop Misfit) Nat → Prop
  | .ok size => (∀ k ∈ batchRounds crc data, k ≤ limit) ∧
      (batchRounds crc data).length ≤ data.length ∧ 0 < size ∧
      ∃ batch, decodeOneRecordBatch crc data = .ok (.ok (batch, (size : Int)))
  | .error .refused => (∀ k ∈ batchRounds crc data, k ≤ limit) ∧
      (batchRounds crc data).length ≤ data.length ∧
      ∃ e, decodeOneRecordBatch crc data = .ok (.error e)
  | .error (.stuck _) => (∃ panic, decodeOneRecordBatch crc data = .error panic) ∨
      ∃ k ∈ batchRounds crc data, limit < k

section Safety

variable {crc : Checksum} {data : ByteString} (limit : Nat)

theorem batch_outcome (crc : Checksum) (hroom : Decoder.HasRoom data) :
    BatchOutcome crc limit data (walkBatch crc limit data) := by
  have hnone : ¬ ToBody crc data → batchRounds crc data = [] := fun h => if_neg h
  unfold walkBatch
  by_cases hcheck : ToChecksum data
  · have hchecked := Decoder.decodeOneRecordBatch_checked crc hroom hcheck
    by_cases h21 : signedSize data < 21
    · rw [if_pos ⟨hcheck, h21⟩]
      exact .inl ⟨_, by rw [hchecked, if_pos h21]⟩
    · rw [if_neg fun h => h21 h.2]
      rw [if_neg h21] at hchecked
      by_cases hsum : crc (bodyOf data) ≠ UInt32.ofNat (field data 17 4)
      · have hno : ¬ ToBody crc data := fun h => hsum h.2.2
        rw [if_neg hno]
        rw [if_pos hsum] at hchecked
        refine ⟨fun k hk => ?_, ?_, _, hchecked⟩
        · rw [hnone hno] at hk
          exact absurd hk List.not_mem_nil
        · rw [hnone hno]
          exact Nat.zero_le _
      · have hto : ToBody crc data := ⟨hcheck, not_lt.mp h21, not_not.mp hsum⟩
        have hsize := hcheck.2.1
        have hlen : (bodyOf data).length + 1 ≤ data.length := by
          rw [bodyOf, List.length_drop, List.length_take]
          omega
        have hbody : Decoder.HasRoom (bodyOf data) := by
          have hroom' : data.length + 2 ^ 31 ≤ 2 ^ 63 := hroom
          show (bodyOf data).length + 2 ^ 31 ≤ 2 ^ 63
          omega
        have hrounds : batchRounds crc data = Decoder.bodyRounds (bodyOf data) := if_pos hto
        have houtcome := Decoder.body_outcome hbody limit (Int64.ofNat (field data 0 8))
        rw [if_neg hsum] at hchecked
        rw [if_pos hto]
        rcases hwalk : Walk.recordBody (bodyOf data) limit 0 with stop | r
        · rw [hwalk] at houtcome
          cases stop with
          | refused =>
            obtain ⟨hall, hcount, e, d, hrun⟩ := houtcome
            rw [← hrounds] at hall hcount
            rw [hrun] at hchecked
            exact ⟨hall, hcount.trans hlen, e, hchecked⟩
          | stuck why =>
            rcases houtcome with ⟨panic, hpanic⟩ | hmany
            · rw [hpanic] at hchecked
              exact .inl ⟨panic, hchecked⟩
            · rw [← hrounds] at hmany
              exact .inr hmany
        · rw [hwalk] at houtcome
          obtain ⟨hall, hcount, batch, d, hrun⟩ := houtcome
          rw [← hrounds] at hall hcount
          rw [hrun] at hchecked
          refine ⟨hall, hcount.trans hlen, by omega, batch, ?_⟩
          rw [hchecked, Int.toNat_of_nonneg (by omega)]
          rfl
  · have hno : ¬ ToBody crc data := fun h => hcheck h.1
    rw [if_neg fun h => hcheck h.1, if_neg hno]
    refine ⟨fun k hk => ?_, ?_, Decoder.decodeOneRecordBatch_refused crc hroom hcheck⟩
    · rw [hnone hno] at hk
      exact absurd hk List.not_mem_nil
    · rw [hnone hno]
      exact Nat.zero_le _

theorem decodeOneRecordBatch_size (hroom : Decoder.HasRoom data) {batch : Batch} {consumed : Int}
    (h : decodeOneRecordBatch crc data = .ok (.ok (batch, consumed))) : 21 ≤ consumed := by
  by_cases hcheck : ToChecksum data
  · rw [Decoder.decodeOneRecordBatch_checked crc hroom hcheck] at h
    by_cases h21 : signedSize data < 21
    · rw [if_pos h21] at h
      cases h
    rw [if_neg h21] at h
    split at h
    · cases h
    rcases hrun : Decoder.decodeBody (Int64.ofNat (field data 0 8))
        (Decoder.newDecoder (bodyOf data)) with panic | ⟨_ | b, d⟩
    · rw [hrun] at h
      cases h
    · rw [hrun] at h
      cases h
    · rw [hrun] at h
      cases h
      exact not_lt.mp h21
  · obtain ⟨e, he⟩ := Decoder.decodeOneRecordBatch_refused crc hroom hcheck
    rw [he] at h
    cases h

theorem hasRoom_drop (hroom : Decoder.HasRoom data) (n : Nat) : Decoder.HasRoom (data.drop n) := by
  have hlen : data.length + 2 ^ 31 ≤ 2 ^ 63 := hroom
  show (data.drop n).length + 2 ^ 31 ≤ 2 ^ 63
  rw [List.length_drop]
  omega

/-- Every round of the batch loop takes bytes off the data or is the last. -/
theorem loopRounds_length (fuel : Nat) {rest : ByteString} (hroom : Decoder.HasRoom rest) :
    (loopRounds crc fuel rest).length ≤ rest.length := by
  induction fuel generalizing rest with
  | zero => exact Nat.zero_le _
  | succ fuel ih =>
    rw [loopRounds]
    by_cases hnil : rest = []
    · rw [if_pos hnil]
      exact Nat.zero_le _
    have hpos : 0 < rest.length := List.length_pos_iff.mpr hnil
    rw [if_neg hnil, List.length_cons]
    split
    · rename_i consumed hrun
      have hsize := decodeOneRecordBatch_size hroom hrun
      have hrest := ih (hasRoom_drop hroom consumed.toNat)
      rw [List.length_drop] at hrest
      omega
    · exact hpos

/-- A batch in front of others changes nothing about whether they are decoded. -/
theorem consBatch_ok_iff (batch : Batch)
    (x : Except Panic (List Batch × Option (Nat × RecordBatchError))) :
    (∃ r, (do
        let (batches, err) ← x
        return (batch :: batches, err) :
          Except Panic (List Batch × Option (Nat × RecordBatchError))) = .ok r) ↔
      ∃ r, x = .ok r := by
  cases x with
  | error panic =>
    constructor
    · intro h
      obtain ⟨r, hr⟩ := h
      cases hr
    · intro h
      obtain ⟨r, hr⟩ := h
      cases hr
  | ok r => exact iff_of_true ⟨_, rfl⟩ ⟨_, rfl⟩

theorem decodeLoop_safe_iff (fuel pos : Nat) {rest : ByteString} (hroom : Decoder.HasRoom rest)
    (hlimit : rest.length ≤ limit) :
    ((∃ r, decodeLoop crc fuel pos rest = .ok r) ∧
        ∀ rs ∈ loopRounds crc fuel rest, rs.length ≤ limit ∧ ∀ n ∈ rs, n ≤ limit) ↔
      batchesHold crc limit fuel rest = true := by
  induction fuel generalizing pos rest with
  | zero =>
    exact iff_of_true ⟨⟨_, rfl⟩, fun rs hrs => absurd hrs List.not_mem_nil⟩ rfl
  | succ fuel ih =>
    rw [decodeLoop, loopRounds, batchesHold]
    by_cases hnil : rest = []
    · rw [if_pos hnil, if_pos hnil, if_pos hnil]
      exact iff_of_true ⟨⟨_, rfl⟩, fun rs hrs => absurd hrs List.not_mem_nil⟩ rfl
    rw [if_neg hnil, if_neg hnil, if_neg hnil]
    have houtcome := batch_outcome limit crc hroom
    rcases hwalk : walkBatch crc limit rest with stop | size
    · rw [hwalk] at houtcome
      cases stop with
      | refused =>
        obtain ⟨hall, hcount, e, hrun⟩ := houtcome
        rw [hrun]
        refine iff_of_true ⟨⟨_, rfl⟩, fun rs hrs => ?_⟩ rfl
        rw [List.mem_singleton.mp hrs]
        exact ⟨hcount.trans hlimit, hall⟩
      | stuck why =>
        refine iff_of_false ?_ Bool.false_ne_true
        rintro ⟨⟨r, hr⟩, hrounds⟩
        rcases houtcome with ⟨panic, hpanic⟩ | ⟨k, hk, hmany⟩
        · rw [hpanic] at hr
          cases hr
        · exact absurd ((hrounds _ List.mem_cons_self).2 k hk) (not_le.mpr hmany)
    · rw [hwalk] at houtcome
      obtain ⟨hall, hcount, hsize, batch, hrun⟩ := houtcome
      have hdrop : (rest.drop size).length = rest.length - size := List.length_drop
      rw [hrun]
      simp only [Int.toNat_natCast]
      rw [← ih (pos + size) (hasRoom_drop hroom size) (by omega)]
      refine and_congr (consBatch_ok_iff batch _) ?_
      rw [List.forall_mem_cons]
      exact and_iff_right ⟨hcount.trans hlimit, hall⟩

/-- `DecodeRecordBatch` is safe exactly on the data whose batches hold. -/
theorem recordBatchSafe_iff (hroom : Decoder.HasRoom data) :
    RecordBatchSafe crc data ↔ batchesHold crc data.length data.length data = true := by
  rw [← decodeLoop_safe_iff data.length data.length 0 hroom (Nat.le_refl _)]
  unfold RecordBatchSafe decodeRecordBatch
  refine and_congr_right fun _ => ?_
  exact and_iff_right (loopRounds_length data.length hroom)

end Safety

/-- Each decoder is safe exactly on the data whose lengths hold. No Go slice leaves an
`int` without room for 32 bits. -/
theorem record_decoders_safe_iff (crc : Checksum) (data : ByteString)
    (hdata : data.length + 2 ^ 31 ≤ 2 ^ 63) :
    (Storage.DecodeBatchSafe crc data ↔ Storage.DecodeLengthsHold crc data) ∧
      (RecordBatchSafe crc data ↔ batchesHold crc data.length data.length data = true) :=
  ⟨Storage.decodeBatchSafe_iff hdata, recordBatchSafe_iff hdata⟩

/-- A batch of one record with these bytes, under its checksum. -/
def forgedBatch (record : ByteString) : ByteString :=
  let body := beBytes 2 0 ++ beBytes 4 0 ++ beBytes 8 0 ++ beBytes 8 0 ++ beBytes 8 0 ++
    beBytes 2 0 ++ beBytes 4 0 ++ beBytes 4 1 ++ record
  beBytes 8 0 ++ beBytes 4 (9 + body.length) ++ beBytes 4 0 ++ [2] ++
    beBytes 4 (crc32c body).toNat ++ body

/-- A record without key and value, with a header that has neither. -/
theorem record_decoders_safe_iff_header :
    Storage.DecodeBatchSafe crc32c (forgedBatch [7, 0, 0, 0, 1, 1, 2, 0, 0]) ∧
      RecordBatchSafe crc32c (forgedBatch [7, 0, 0, 0, 1, 1, 2, 0, 0]) := by
  obtain ⟨hlog, hprotocol⟩ := record_decoders_safe_iff crc32c
    (forgedBatch [7, 0, 0, 0, 1, 1, 2, 0, 0]) (by decide +kernel)
  exact ⟨hlog.mpr (by decide +kernel), hprotocol.mpr (by decide +kernel)⟩

/-- A record whose key has `2^63 - 1` bytes. -/
def keyBatch : ByteString :=
  forgedBatch [0, 0, 0, 0, 254, 255, 255, 255, 255, 255, 255, 255, 255, 1]

/-- A record with a header whose key has 64 bytes. -/
def headerKeyBatch : ByteString := forgedBatch [0, 0, 0, 0, 1, 1, 2, 128, 1, 0]

/-- A record with `2^40` headers. -/
def headersBatch : ByteString := forgedBatch [0, 0, 0, 0, 1, 1, 128, 128, 128, 128, 128, 64]

/-- The checks of the produce path accept three batches that are not decoded safely, and
a header that declares no batch crashes both decoders. -/
theorem accepted_batches_unsafe :
    ((Storage.validateRawBatch crc32c keyBatch).isOk = true ∧
        Storage.decodeBatch crc32c keyBatch = .error .sliceOutOfRange ∧
        decodeRecordBatch crc32c keyBatch = .error .sliceOutOfRange) ∧
      ((Storage.validateRawBatch crc32c headerKeyBatch).isOk = true ∧
        Storage.decodeBatch crc32c headerKeyBatch = .error .sliceOutOfRange) ∧
      ((Storage.validateRawBatch crc32c headersBatch).isOk = true ∧
        ¬ RecordBatchSafe crc32c headersBatch) ∧
      ∃ data : ByteString, data.length = 61 ∧
        Storage.decodeBatch crc32c data = .error .sliceOutOfRange ∧
        decodeRecordBatch crc32c data = .error .sliceOutOfRange := by
  refine ⟨by decide +kernel, by decide +kernel, ⟨by decide +kernel, ?_⟩,
    beBytes 16 0 ++ [2] ++ beBytes 44 0, by decide +kernel⟩
  rw [recordBatchSafe_iff (show headersBatch.length + 2 ^ 31 ≤ 2 ^ 63 by decide +kernel)]
  decide +kernel

end MessageBroker.Protocol
