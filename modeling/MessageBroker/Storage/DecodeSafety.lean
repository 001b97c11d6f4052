import MessageBroker.Lib.Layouts
import MessageBroker.Storage.Decoding

/-!
# Decoding what was never encoded

`decodeBatch` also runs on batches that no `encodeBatch` has made: a checksum says
nothing about the records under it. Its loops end with the data, since every round
reads something or returns. But a length is added to a position without a look at
where that leads, and a slice from there panics.

The walk below reads the records as their lengths say, with positions as numbers, and
is stuck where a slice cannot be made.
-/
namespace MessageBroker.Storage

open Lib.Bytes Lib.Varint
open Lib.Cursors (Cursor rounds bind_ok bind_error of_bind_ok)
open Lib
open Lib.Layouts (Layout Stop unstuck Keeps Goes keeps_pure Matches Tracks
  tracks_pure)
open Protocol (wrap64)

theorem readVarint_some {bs : ByteString} {v : Int64} {n : Nat}
    (h : readVarint bs = some (v, n)) : 0 < n ∧ n ≤ bs.length := by
  obtain ⟨⟨u, k⟩, hu, he⟩ := Option.map_eq_some_iff.mp h
  cases he
  exact ⟨(readUvarint_some hu).1, (readUvarint_some hu).2.1⟩

/-! ## The rounds of the loops -/

namespace Scan

variable (data : ByteString) (totalSize : Nat)

/-- A header length moves the position if it is positive. -/
def advanceBy (n : Int64) : Scan Unit := if 0 < n then advance n.toInt else pure ()

/-- The body of the header loop. -/
def skipHeader (i h : Nat) : Scan Unit := do
  let hkLen ← varint data (.record i (.badHeaderKeyLen h))
  advanceBy hkLen
  let hvLen ← varint data (.record i (.badHeaderValueLen h))
  advanceBy hvLen

theorem skipHeaders_succ (i h n : Nat) :
    skipHeaders data i h (n + 1) =
      skipHeader data i h >>= fun _ => skipHeaders data i (h + 1) n := by
  have hby : ∀ (n : Int64) (k : Scan Unit),
      (if 0 < n then advance n.toInt >>= fun _ => k else k) = advanceBy n >>= fun _ => k := by
    intro n k
    unfold advanceBy
    by_cases hn : 0 < n
    · simp only [if_pos hn]
    · simp only [if_neg hn, pure_bind]
  unfold skipHeader
  rw [skipHeaders]
  simp only [bind_assoc, hby]

/-- The rounds of the header loop that are begun. -/
def headerRounds (i : Nat) : Nat → Nat → Int → Nat
  | _, 0, _ => 0
  | h, n + 1, pos =>
      match skipHeader data i h pos with
      | .error _ => 1
      | .ok (_, pos) => headerRounds i (h + 1) n pos + 1

/-- The rounds of the record loop that are begun, each with the rounds of its header
loop. -/
def recordRounds (firstTimestamp : Int64) : Nat → Nat → Int → List Nat
  | _, 0, _ => []
  | i, n + 1, pos =>
      (match recordFields data totalSize i pos with
        | .error _ => 0
        | .ok (r, pos) => headerRounds data i 0 r.2.2.2.toInt.toNat pos) ::
      match decodeRecord data totalSize firstTimestamp i pos with
      | .error _ => []
      | .ok (_, pos) => recordRounds firstTimestamp (i + 1) n pos

end Scan

/-- The batch gets to the record loop. -/
def ToRecords (crc : Checksum) (data : ByteString) : Prop :=
  recordBatchOverhead ≤ data.length ∧ declaredSize data ≤ data.length ∧ magic data = 2 ∧
    21 ≤ declaredSize data ∧
    (crc ((data.take (declaredSize data)).drop 21)).toNat = storedCRC data

instance (crc : Checksum) (data : ByteString) : Decidable (ToRecords crc data) :=
  inferInstanceAs (Decidable (_ ∧ _ ∧ _ ∧ _ ∧ _))

/-- The rounds of the loops of `decodeBatch`. -/
def decodeRounds (crc : Checksum) (data : ByteString) : List Nat :=
  if ToRecords crc data then
    Scan.recordRounds data (declaredSize data) (Int64.ofNat (field data 27 8)) 0
      (recordCount data) 61
  else []

/-- `decodeBatch` returns, and no loop begins more rounds than there are bytes. -/
def DecodeBatchSafe (crc : Checksum) (data : ByteString) : Prop :=
  decodeBatch crc data ≠ .error .sliceOutOfRange ∧
    (decodeRounds crc data).length ≤ data.length ∧ ∀ n ∈ decodeRounds crc data, n ≤ data.length

/-! ## The walk -/

/-- Where a slice cannot be made: from a position beyond the data, and of a key or value
whose end is not an `int`. -/
inductive ScanMisfit
  | position (p : Nat)
  | fieldEnd (p length : Nat)
  deriving DecidableEq

abbrev ScanWalk := Layout Nat ScanMisfit

namespace ScanWalk

variable (data : ByteString) (totalSize : Nat)

def varint : ScanWalk Int64 := fun p =>
  if data.length < p then .error (.stuck (.position p))
  else
    match readVarint (data.drop p) with
    | none => .error .refused
    | some (v, n) => .ok (v, p + n)

/-- A length moves the position if it is positive. -/
def move (n : Int64) : ScanWalk Unit := fun p => .ok ((), p + n.toInt.toNat)

/-- The bytes of a key or value lie within the batch. -/
def bytes (n : Nat) : ScanWalk Unit := fun p =>
  if 2 ^ 63 ≤ p + n then .error (.stuck (.fieldEnd p n))
  else if totalSize < p + n then .error .refused
  else .ok ((), p + n)

def nullable : ScanWalk Unit := do
  let n ← varint data
  if n < 0 then return () else bytes totalSize n.toInt.toNat

def header : ScanWalk Unit := do
  let hkLen ← varint data
  move hkLen
  let hvLen ← varint data
  move hvLen

def headers : Nat → ScanWalk Unit
  | 0 => pure ()
  | n + 1 => do
      header data
      headers n

/-- A record starts before the end of the batch; headers may have led anywhere. -/
def start : ScanWalk Unit := fun p =>
  if 2 ^ 63 ≤ p then .error (.stuck (.position p))
  else if totalSize ≤ p then .error .refused
  else .ok ((), p)

/-- The length of a record is only compared with the end of the batch, as an `int`. -/
def attributes (recLen : Int64) : ScanWalk Unit := fun p =>
  if totalSize < wrap64 (p + recLen.toInt) ∨ totalSize ≤ p then .error .refused
  else .ok ((), p + 1)

def recordFields : ScanWalk Int64 := do
  start totalSize
  let recLen ← varint data
  attributes totalSize recLen
  let _tsDelta ← varint data
  let _offsetDelta ← varint data
  nullable data totalSize
  nullable data totalSize
  varint data

def record : ScanWalk Unit := do
  let hdrCount ← recordFields data totalSize
  headers data hdrCount.toInt.toNat

def records : Nat → ScanWalk Unit
  | 0 => pure ()
  | n + 1 => do
      record data totalSize
      records n

end ScanWalk

/-! ## The walk goes forward -/

namespace ScanWalk

variable {data : ByteString} {totalSize : Nat}

theorem goes_varint : Goes data.length (varint data) := by
  intro p v p' h
  unfold varint at h
  split at h
  · cases h
  split at h
  · cases h
  · rename_i n hread
    cases h
    obtain ⟨hpos, hn⟩ := readVarint_some hread
    rw [List.length_drop] at hn
    omega

theorem keeps_move (n : Int64) : Keeps (move n) := by
  rintro p v p' ⟨⟩
  omega

theorem keeps_nullable : Keeps (nullable data totalSize) := by
  refine goes_varint.keeps.bind fun n => ?_
  split
  · exact keeps_pure ()
  · intro p v p' h
    unfold bytes at h
    split at h
    · cases h
    split at h
    · cases h
    · cases h
      omega

theorem goes_header : Goes data.length (header data) :=
  goes_varint.bind fun hkLen => (keeps_move hkLen).bind fun _ =>
    goes_varint.keeps.bind fun hvLen => keeps_move hvLen

theorem keeps_headers (n : Nat) : Keeps (headers data n) := by
  induction n with
  | zero => exact keeps_pure ()
  | succ n ih => exact goes_header.keeps.bind fun _ => ih

theorem goes_recordFields : Goes data.length (recordFields data totalSize) := by
  intro p v p'' h
  obtain ⟨_, p', hstart, hrest⟩ := of_bind_ok h
  obtain rfl : p = p' := by
    unfold start at hstart
    split at hstart
    · cases hstart
    split at hstart
    · cases hstart
    · cases hstart
      rfl
  refine (goes_varint.bind fun recLen => ?_) p v p'' hrest
  refine Keeps.bind ?_ fun _ => goes_varint.keeps.bind fun _ => goes_varint.keeps.bind fun _ =>
    keeps_nullable.bind fun _ => keeps_nullable.bind fun _ => goes_varint.keeps
  intro q u q' hq
  unfold attributes at hq
  split at hq
  · cases hq
  · cases hq
    omega

theorem goes_record : Goes data.length (record data totalSize) :=
  goes_recordFields.bind fun n => keeps_headers n.toInt.toNat

end ScanWalk

/-- The lengths of a batch: it declares its header, and in the records that are read no
length leads to where a slice cannot be made. -/
def DecodeLengthsHold (crc : Checksum) (data : ByteString) : Prop :=
  (recordBatchOverhead ≤ data.length → declaredSize data ≤ data.length → magic data = 2 →
      21 ≤ declaredSize data) ∧
    (ToRecords crc data →
      unstuck (ScanWalk.records data (declaredSize data) (recordCount data) 61) = true)

instance (crc : Checksum) (data : ByteString) : Decidable (DecodeLengthsHold crc data) :=
  inferInstanceAs (Decidable ((_ → _ → _ → _) ∧ (_ → _)))

/-! ## The decoder takes the walk -/

namespace Scan

/-- A slice out of range. -/
def Panics (e : DecodeBatchError) : Prop := e = .sliceOutOfRange

theorem panics_slice : Panics .sliceOutOfRange := rfl

/-- A position that a length has led to, maybe beyond the data and beyond every `int`. -/
def Near (data : ByteString) (pos : Int) (p : Nat) : Prop :=
  pos = wrap64 p ∧ p ≤ data.length + 2 ^ 63

/-- A position in the data. -/
def Inside (data : ByteString) (pos : Int) (p : Nat) : Prop := pos = p ∧ p ≤ data.length

section Steps

variable {data : ByteString} {totalSize : Nat} (hdata : data.length + 2 ^ 31 ≤ 2 ^ 63)

include hdata

theorem Inside.near {pos : Int} {p : Nat} (h : Inside data pos p) : Near data pos p := by
  obtain ⟨rfl, hle⟩ := h
  refine ⟨?_, by omega⟩
  unfold wrap64
  omega

theorem varint_beyond {e : DecodeBatchError} {p : Nat} (hle : p ≤ data.length + 2 ^ 63)
    (hbeyond : data.length < p) : varint data e (wrap64 p) = .error .sliceOutOfRange := by
  refine bind_error ?_
  rw [sliceFrom, if_neg]
  unfold wrap64
  omega

theorem varint_inside {e : DecodeBatchError} {p : Nat} (hle : p ≤ data.length) :
    varint data e p = match readVarint (data.drop p) with
      | none => .error e
      | some (v, n) => .ok (v, ((p + n : Nat) : Int)) := by
  have hslice : sliceFrom data p = .ok (data.drop p, (p : Int)) := by
    rw [sliceFrom, if_pos (by omega), Int.toNat_natCast]
  rw [varint, bind_ok hslice]
  rcases hread : readVarint (data.drop p) with _ | ⟨v, n⟩
  · rfl
  · obtain ⟨-, hn⟩ := readVarint_some hread
    rw [List.length_drop] at hn
    have hwrap : wrap64 ((p : Int) + n) = ((p + n : Nat) : Int) := by
      unfold wrap64
      omega
    have hadvance : advance n (p : Int) = .ok ((), ((p + n : Nat) : Int)) := by rw [advance, hwrap]
    simp only
    rw [bind_ok hadvance]
    rfl

theorem tracks_varint {e : DecodeBatchError} (he : ¬ Panics e) :
    Tracks (Near data) (Inside data) Panics Eq (varint data e) (ScanWalk.varint data) := by
  intro pos p hnear
  have hle := hnear.2
  by_cases hbeyond : data.length < p
  · rw [hnear.1, varint_beyond hdata hle hbeyond, ScanWalk.varint, if_pos hbeyond]
    exact panics_slice
  · have hwrap : wrap64 p = p := by
      unfold wrap64
      omega
    rw [hnear.1, hwrap, varint_inside hdata (not_lt.mp hbeyond), ScanWalk.varint, if_neg hbeyond]
    rcases hread : readVarint (data.drop p) with _ | ⟨v, n⟩
    · exact he
    · have hn := (readVarint_some hread).2
      rw [List.length_drop] at hn
      exact ⟨rfl, rfl, by omega⟩

theorem tracks_advanceBy (n : Int64) :
    Tracks (Inside data) (Near data) Panics (fun _ _ => True)
      (advanceBy n) (ScanWalk.move n) := by
  intro pos p hin
  have hn := n.toInt_lt
  have hle := hin.2
  rw [hin.1, ScanWalk.move, advanceBy]
  by_cases hpos : 0 < n
  · have hint := Int64.lt_iff_toInt_lt.mp hpos
    rw [Int64.toInt_zero] at hint
    rw [if_pos hpos, advance]
    refine ⟨trivial, ?_, by omega⟩
    congr 1
    omega
  · have hint : ¬ 0 < n.toInt := fun h => hpos (Int64.lt_iff_toInt_lt.mpr (by simpa using h))
    have hzero : p + n.toInt.toNat = p := by omega
    rw [if_neg hpos, hzero]
    exact ⟨trivial, Inside.near hdata ⟨rfl, hle⟩⟩

theorem tracks_skipHeader (i h : Nat) :
    Tracks (Near data) (Near data) Panics (fun _ _ => True) (skipHeader data i h)
      (ScanWalk.header data) := by
  have hk : ¬ Panics (.record i (.badHeaderKeyLen h)) := fun he => by cases he
  have hv : ¬ Panics (.record i (.badHeaderValueLen h)) := fun he => by cases he
  refine (tracks_varint hdata hk).bind ?_
  rintro hkLen _ rfl
  refine (tracks_advanceBy hdata hkLen).bind fun _ _ _ => (tracks_varint hdata hv).bind ?_
  rintro hvLen _ rfl
  exact tracks_advanceBy hdata hvLen

theorem tracks_skipHeaders (i h n : Nat) :
    Tracks (Near data) (Near data) Panics (fun _ _ => True) (skipHeaders data i h n)
      (ScanWalk.headers data n) := by
  induction n generalizing h with
  | zero => exact tracks_pure trivial
  | succ n ih =>
    rw [skipHeaders_succ]
    exact (tracks_skipHeader hdata i h).bind fun _ _ _ => ih (h + 1)

theorem tracks_bytes (hsize : totalSize ≤ data.length) {e : DecodeBatchError} (he : ¬ Panics e)
    {n : Int64} (hneg : ¬ n < 0) :
    Tracks (Inside data) (Inside data) Panics (fun _ _ => True) (do
      fits totalSize e n.toInt
      let bs ← slice data n.toInt
      advance n.toInt
      return some bs) (ScanWalk.bytes totalSize n.toInt.toNat) := by
  intro pos p hin
  have hn := n.toInt_lt
  have hle := hin.2
  have hnonneg : 0 ≤ n.toInt := by
    have := Int64.le_iff_toInt_le.mp (Int64.not_lt.mp hneg)
    rwa [Int64.toInt_zero] at this
  obtain ⟨k, hk⟩ := Int.eq_ofNat_of_zero_le hnonneg
  have hat := hin.1
  subst hat
  by_cases hbeyond : 2 ^ 63 ≤ p + k
  · -- the end wraps to a position before the start
    have hwrap : wrap64 ((p : Int) + k) < 0 := by
      unfold wrap64
      omega
    have hfits : fits totalSize e k (p : Int) = .ok ((), (p : Int)) := by
      rw [fits, if_neg (by omega)]
    have hslice : slice data k (p : Int) = .error .sliceOutOfRange := by
      rw [slice, if_neg (by omega)]
    rw [hk, Int.toNat_natCast, ScanWalk.bytes, if_pos hbeyond, bind_ok hfits,
      bind_error hslice]
    exact panics_slice
  · have hwrap : wrap64 ((p : Int) + k) = ((p + k : Nat) : Int) := by
      unfold wrap64
      omega
    by_cases hshort : totalSize < p + k
    · have hfits : fits totalSize e k (p : Int) = .error e := by
        rw [fits, hwrap, if_pos (by omega)]
      rw [hk, Int.toNat_natCast, ScanWalk.bytes, if_neg hbeyond, if_pos hshort, bind_error hfits]
      exact he
    · have hfits : fits totalSize e k (p : Int) = .ok ((), (p : Int)) := by
        rw [fits, hwrap, if_neg (by omega)]
      have hslice : slice data k (p : Int) = .ok ((data.drop p).take k, (p : Int)) := by
        rw [slice, hwrap, if_pos (by omega), Int.toNat_natCast, Int.toNat_natCast]
      have hadvance : advance k (p : Int) = .ok ((), ((p + k : Nat) : Int)) := by
        rw [advance, hwrap]
      rw [hk, Int.toNat_natCast, ScanWalk.bytes, if_neg hbeyond, if_neg hshort,
        bind_ok hfits, bind_ok hslice, bind_ok hadvance]
      exact ⟨trivial, rfl, by omega⟩

theorem tracks_nullable (hsize : totalSize ≤ data.length) (badLen truncated : RecordError)
    (i : Nat) :
    Tracks (Inside data) (Inside data) Panics (fun _ _ => True)
      (nullable data totalSize badLen truncated i) (ScanWalk.nullable data totalSize) := by
  have hbad : ¬ Panics (.record i badLen) := fun he => by cases he
  have htruncated : ¬ Panics (.record i truncated) := fun he => by cases he
  intro pos p hin
  refine (Tracks.bind (tracks_varint hdata hbad) ?_) pos p (hin.near hdata)
  rintro n _ rfl
  by_cases hneg : n < 0
  · rw [if_pos hneg, if_pos hneg]
    exact tracks_pure trivial
  · rw [if_neg hneg, if_neg hneg]
    exact tracks_bytes hdata hsize htruncated hneg

theorem tracks_start {e e' : DecodeBatchError}
    (he : ¬ Panics e) (he' : ¬ Panics e') {α β : Type} {f : Int64 → Scan α}
    {g : Int64 → ScanWalk β} {S : Int → Nat → Prop} {V : α → β → Prop}
    (hf : ∀ n, Tracks (Inside data) S Panics V (f n) (g n)) :
    Tracks (Near data) S Panics V
      (notAtEnd totalSize e >>= fun _ => varint data e' >>= f)
      (ScanWalk.start totalSize >>= fun _ => ScanWalk.varint data >>= g) := by
  intro pos p hnear
  have hle := hnear.2
  by_cases hbeyond : 2 ^ 63 ≤ p
  · have hstart : ScanWalk.start totalSize p = .error (.stuck (.position p)) := if_pos hbeyond
    have hend : notAtEnd totalSize e pos = .ok ((), pos) := by
      rw [hnear.1, notAtEnd, if_neg]
      unfold wrap64
      omega
    have hslice : varint data e' pos = .error .sliceOutOfRange := by
      rw [hnear.1]
      exact varint_beyond hdata hle (by omega)
    rw [bind_error hstart, bind_ok hend, bind_error hslice]
    exact panics_slice
  · have hpos : pos = p := by
      rw [hnear.1]
      unfold wrap64
      omega
    by_cases hend : totalSize ≤ p
    · have hstart : ScanWalk.start totalSize p = .error .refused := by
        rw [ScanWalk.start, if_neg hbeyond, if_pos hend]
      have hstop : notAtEnd totalSize e pos = .error e := by
        rw [notAtEnd, hpos, if_pos (by omega)]
      rw [bind_error hstart, bind_error hstop]
      exact he
    · have hstart : ScanWalk.start totalSize p = .ok ((), p) := by
        rw [ScanWalk.start, if_neg hbeyond, if_neg hend]
      have hgo : notAtEnd totalSize e pos = .ok ((), pos) := by
        rw [notAtEnd, hpos, if_neg (by omega)]
      have hnext : Tracks (Near data) S Panics V (varint data e' >>= f)
          (ScanWalk.varint data >>= g) := by
        refine (tracks_varint hdata he').bind ?_
        rintro n _ rfl
        exact hf n
      rw [bind_ok hstart, bind_ok hgo]
      exact hnext pos p hnear

theorem tracks_attributes (hsize : totalSize ≤ data.length) {e e' : DecodeBatchError}
    (he : ¬ Panics e) (he' : ¬ Panics e') (recLen : Int64) :
    Tracks (Inside data) (Inside data) Panics (fun _ _ => True) (do
      fits totalSize e recLen.toInt
      notAtEnd totalSize e'
      advance 1) (ScanWalk.attributes totalSize recLen) := by
  intro pos p hin
  have hat := hin.1
  have hle := hin.2
  subst hat
  by_cases hlong : (totalSize : Int) < wrap64 (p + recLen.toInt)
  · have hstop : fits totalSize e recLen.toInt (p : Int) = .error e := if_pos hlong
    rw [bind_error hstop, ScanWalk.attributes, if_pos (.inl hlong)]
    exact he
  · have hfits : fits totalSize e recLen.toInt (p : Int) = .ok ((), (p : Int)) := if_neg hlong
    rw [bind_ok hfits]
    by_cases hend : totalSize ≤ p
    · have hstop : notAtEnd totalSize e' (p : Int) = .error e' := if_pos (by omega)
      rw [bind_error hstop, ScanWalk.attributes, if_pos (.inr hend)]
      exact he'
    · have hgo : notAtEnd totalSize e' (p : Int) = .ok ((), (p : Int)) := if_neg (by omega)
      have hwrap : wrap64 ((p : Int) + 1) = ((p + 1 : Nat) : Int) := by
        unfold wrap64
        omega
      rw [bind_ok hgo, ScanWalk.attributes, if_neg (not_or.mpr ⟨hlong, hend⟩), advance,
        hwrap]
      exact ⟨trivial, rfl, by omega⟩

theorem tracks_recordFields (hsize : totalSize ≤ data.length) (i : Nat) :
    Tracks (Near data) (Inside data) Panics (fun r n => r.2.2.2 = n)
      (recordFields data totalSize i) (ScanWalk.recordFields data totalSize) := by
  have hrecord : ∀ x, ¬ Panics (.record i x) := fun x he => by cases he
  have hvarint : ∀ x, Tracks (Inside data) (Inside data) Panics Eq (varint data (.record i x))
      (ScanWalk.varint data) :=
    fun x pos p hin => tracks_varint hdata (hrecord x) pos p (hin.near hdata)
  refine tracks_start hdata (hrecord _) (hrecord _) fun recLen => ?_
  have hattributes := tracks_attributes hdata hsize
    (hrecord (.lengthExceedsBatch recLen)) (hrecord .truncatedAttributes) recLen
  have hall := hattributes.bind fun _ _ _ => (hvarint .badTimestampDelta).bind fun tsDelta _ _ =>
    (hvarint .badOffsetDelta).bind fun _ _ _ =>
    (tracks_nullable hdata hsize .badKeyLen .keyTruncated i).bind fun key _ _ =>
    (tracks_nullable hdata hsize .badValLen .valueTruncated i).bind fun val _ _ =>
    (hvarint .badHeaderCount).bind (f := fun n => pure (tsDelta, key, val, n))
      (g := fun n => pure n)
      (W := fun r n => r.2.2.2 = n) fun _ _ hn => tracks_pure hn
  simp only [bind_assoc, bind_pure] at hall
  exact hall

theorem tracks_decodeRecord (hsize : totalSize ≤ data.length) (firstTimestamp : Int64) (i : Nat) :
    Tracks (Near data) (Near data) Panics (fun _ _ => True)
      (decodeRecord data totalSize firstTimestamp i) (ScanWalk.record data totalSize) := by
  rw [decodeRecord]
  refine (tracks_recordFields hdata hsize i).bind ?_
  rintro r _ rfl
  intro pos p hin
  have hskip := (tracks_skipHeaders hdata i 0 r.2.2.2.toInt.toNat).bind
    (f := fun _ => (pure ⟨r.2.1, r.2.2.1, firstTimestamp + r.1⟩ : Scan Message))
    (g := fun _ => (pure () : ScanWalk Unit)) (W := fun _ _ => True)
    fun _ _ _ => tracks_pure trivial
  rw [bind_pure_unit] at hskip
  exact hskip pos p (hin.near hdata)

theorem tracks_records (hsize : totalSize ≤ data.length) (firstTimestamp : Int64) (i n : Nat) :
    Tracks (Near data) (Near data) Panics (fun _ _ => True)
      (rounds (decodeRecord data totalSize firstTimestamp) i n)
      (ScanWalk.records data totalSize n) := by
  induction n generalizing i with
  | zero => exact tracks_pure trivial
  | succ n ih =>
    refine (tracks_decodeRecord hdata hsize firstTimestamp i).bind fun msg _ _ => ?_
    have hrest := (ih (i + 1)).bind (f := fun msgs => (pure (msg :: msgs) : Scan (List Message)))
      (g := fun _ => (pure () : ScanWalk Unit)) (W := fun _ _ => True)
      fun _ _ _ => tracks_pure trivial
    rwa [bind_pure_unit] at hrest

/-! ## The rounds end with the data -/

theorem headerRounds_le (i h n : Nat) {pos : Int} {p : Nat} (hnear : Near data pos p) :
    headerRounds data i h n pos ≤ data.length - p + 1 := by
  induction n generalizing h pos p with
  | zero => exact Nat.zero_le _
  | succ n ih =>
    have hstep := tracks_skipHeader hdata i h pos p hnear
    rw [headerRounds]
    rcases hrun : skipHeader data i h pos with e | ⟨_, pos'⟩
    · exact Nat.le_add_left 1 _
    · rcases hwalk : ScanWalk.header data p with stop | ⟨_, p'⟩
      · rw [hrun, hwalk] at hstep
        exact hstep.elim
      · rw [hrun, hwalk] at hstep
        obtain ⟨hlt, hlen⟩ := ScanWalk.goes_header p _ p' hwalk
        have hrest := ih (h + 1) hstep.2
        simp only
        omega

theorem recordRounds_le (hsize : totalSize ≤ data.length) (firstTimestamp : Int64) (i n : Nat)
    {pos : Int} {p : Nat} (hnear : Near data pos p) :
    (recordRounds data totalSize firstTimestamp i n pos).length ≤ data.length - p + 1 ∧
      ∀ r ∈ recordRounds data totalSize firstTimestamp i n pos, r ≤ data.length := by
  induction n generalizing i pos p with
  | zero => exact ⟨Nat.zero_le _, fun r hr => absurd hr List.not_mem_nil⟩
  | succ n ih =>
    have hhead : (match recordFields data totalSize i pos with
        | .error _ => 0
        | .ok (r, pos) => headerRounds data i 0 r.2.2.2.toInt.toNat pos) ≤ data.length := by
      have hstep := tracks_recordFields hdata hsize i pos p hnear
      rcases hrun : recordFields data totalSize i pos with e | ⟨r, pos'⟩
      · exact Nat.zero_le _
      · rcases hwalk : ScanWalk.recordFields data totalSize p with stop | ⟨k, p'⟩
        · rw [hrun, hwalk] at hstep
          exact hstep.elim
        · rw [hrun, hwalk] at hstep
          obtain ⟨hlt, hlen⟩ := ScanWalk.goes_recordFields p _ p' hwalk
          have hrounds := headerRounds_le hdata i 0 r.2.2.2.toInt.toNat (hstep.2.near hdata)
          simp only
          omega
    have hstep := tracks_decodeRecord hdata hsize firstTimestamp i pos p hnear
    rw [recordRounds]
    rcases hrun : decodeRecord data totalSize firstTimestamp i pos with e | ⟨_, pos'⟩
    · refine ⟨Nat.le_add_left 1 _, fun r hr => ?_⟩
      rw [List.mem_singleton.mp hr]
      exact hhead
    · rcases hwalk : ScanWalk.record data totalSize p with stop | ⟨_, p'⟩
      · rw [hrun, hwalk] at hstep
        exact hstep.elim
      · rw [hrun, hwalk] at hstep
        obtain ⟨hlt, hlen⟩ := ScanWalk.goes_record p _ p' hwalk
        obtain ⟨hcount, hall⟩ := ih (i + 1) hstep.2
        simp only
        refine ⟨?_, List.forall_mem_cons.mpr ⟨hhead, hall⟩⟩
        rw [List.length_cons]
        omega

end Steps

end Scan

/-! ## Safety -/

section Safety

variable {crc : Checksum} {data : ByteString} (hdata : data.length + 2 ^ 31 ≤ 2 ^ 63)

include hdata

theorem near_start (h : recordBatchOverhead ≤ data.length) : Scan.Near data 61 61 := by
  refine Scan.Inside.near hdata ⟨rfl, ?_⟩
  exact h

theorem decodeRounds_le : (decodeRounds crc data).length ≤ data.length ∧
    ∀ n ∈ decodeRounds crc data, n ≤ data.length := by
  unfold decodeRounds
  split
  · rename_i hto
    have h61 : 61 ≤ data.length := hto.1
    obtain ⟨hcount, hall⟩ := Scan.recordRounds_le hdata hto.2.1 (Int64.ofNat (field data 27 8)) 0
      (recordCount data) (near_start hdata hto.1)
    exact ⟨by omega, hall⟩
  · exact ⟨Nat.zero_le _, fun n hn => absurd hn List.not_mem_nil⟩

theorem decodeBatch_panics_iff :
    decodeBatch crc data = .error .sliceOutOfRange ↔ ¬ DecodeLengthsHold crc data := by
  -- before the records an error is returned, except for the slice of the checksum
  have hreturn : ∀ {e}, decodeBatch crc data = .error e → e ≠ .sliceOutOfRange →
      DecodeLengthsHold crc data →
      (decodeBatch crc data = .error .sliceOutOfRange ↔ ¬ DecodeLengthsHold crc data) :=
    fun he hne hold => iff_of_false (fun hp => hne (Except.error.inj (he.symm.trans hp)))
      (not_not.mpr hold)
  by_cases h61 : data.length < recordBatchOverhead
  · refine hreturn (by rw [decodeBatch, if_pos h61]) (by simp) ⟨fun h => ?_, fun h => ?_⟩
    · exact absurd h (not_le.mpr h61)
    · exact absurd h.1 (not_le.mpr h61)
  by_cases hshort : data.length < declaredSize data
  · refine hreturn (by rw [decodeBatch, if_neg h61, if_pos hshort]) (by simp)
      ⟨fun _ h => ?_, fun h => ?_⟩
    · exact absurd h (not_le.mpr hshort)
    · exact absurd h.2.1 (not_le.mpr hshort)
  by_cases hmagic : magic data ≠ 2
  · refine hreturn (by rw [decodeBatch, if_neg h61, if_neg hshort, if_pos hmagic]) (by simp)
      ⟨fun _ _ h => ?_, fun h => ?_⟩
    · exact absurd h hmagic
    · exact absurd h.2.2.1 hmagic
  by_cases h21 : declaredSize data < 21
  · refine iff_of_true (by rw [decodeBatch, if_neg h61, if_neg hshort, if_neg hmagic, if_pos h21])
      fun hold => ?_
    exact absurd (hold.1 (not_lt.mp h61) (not_lt.mp hshort) (not_not.mp hmagic)) (not_le.mpr h21)
  by_cases hcrc : (crc ((data.take (declaredSize data)).drop 21)).toNat ≠ storedCRC data
  · refine hreturn (by rw [decodeBatch, if_neg h61, if_neg hshort, if_neg hmagic, if_neg h21,
      if_pos hcrc]) (by simp) ⟨fun _ _ _ => not_lt.mp h21, fun h => ?_⟩
    exact absurd h.2.2.2.2 hcrc
  have hto : ToRecords crc data :=
    ⟨not_lt.mp h61, not_lt.mp hshort, not_not.mp hmagic, not_lt.mp h21, not_not.mp hcrc⟩
  have htracks := Scan.tracks_records hdata hto.2.1 (Int64.ofNat (field data 27 8)) 0
    (recordCount data) 61 61 (near_start hdata hto.1)
  have hdecode : decodeBatch crc data = .error .sliceOutOfRange ↔
      rounds (Scan.decodeRecord data (declaredSize data) (Int64.ofNat (field data 27 8))) 0
        (recordCount data) 61 = .error .sliceOutOfRange := by
    rw [decodeBatch, if_neg h61, if_neg hshort, if_neg hmagic, if_neg h21, if_neg hcrc]
    simp only
    rcases rounds (Scan.decodeRecord data (declaredSize data) (Int64.ofNat (field data 27 8))) 0
      (recordCount data) 61 with e | r
    · exact ⟨fun h => congrArg Except.error (Except.error.inj h),
        fun h => congrArg Except.error (Except.error.inj h)⟩
    · exact iff_of_false (fun h => by cases h) fun h => by cases h
  have hold : DecodeLengthsHold crc data ↔
      unstuck (ScanWalk.records data (declaredSize data) (recordCount data) 61) = true :=
    ⟨fun h => h.2 hto, fun h => ⟨fun _ _ _ => hto.2.2.2.1, fun _ => h⟩⟩
  rw [hdecode, hold]
  rcases hrun : rounds (Scan.decodeRecord data (declaredSize data)
      (Int64.ofNat (field data 27 8))) 0 (recordCount data) 61 with e | ⟨_, pos⟩
  · rcases hwalk : ScanWalk.records data (declaredSize data) (recordCount data) 61 with
      stop | ⟨_, p⟩
    · rw [hrun, hwalk] at htracks
      cases stop with
      | refused => exact iff_of_false (fun h => htracks (Except.error.inj h)) (not_not.mpr rfl)
      | stuck why => exact iff_of_true (congrArg Except.error htracks) Bool.false_ne_true
    · rw [hrun, hwalk] at htracks
      exact htracks.elim
  · rcases hwalk : ScanWalk.records data (declaredSize data) (recordCount data) 61 with
      stop | ⟨_, p⟩
    · rw [hrun, hwalk] at htracks
      exact htracks.elim
    · exact iff_of_false (fun h => by cases h) (not_not.mpr rfl)

/-- `decodeBatch` is safe exactly on the data whose lengths hold. -/
theorem decodeBatchSafe_iff : DecodeBatchSafe crc data ↔ DecodeLengthsHold crc data := by
  unfold DecodeBatchSafe
  rw [Ne, decodeBatch_panics_iff hdata, not_not]
  exact ⟨fun h => h.1, fun h => ⟨h, decodeRounds_le hdata⟩⟩

end Safety

end MessageBroker.Storage
