import MessageBroker.Protocol.Decoder
import MessageBroker.Storage.Decoding

/-!
# Primitive types on the wire

What an encoder puts and a decoder reads for each primitive type, and that the
read takes exactly the bytes of the put. An encoder only appends, so a sequence of
puts is a concatenation.
-/
namespace MessageBroker.Protocol

open Lib.Bytes Lib.Varint Lib.Cursors

/-! ## The encoder -/

def putInt8 (v : Int8) : ByteString := beBytes 1 v.toUInt8.toNat
def putInt16 (v : Int16) : ByteString := beBytes 2 v.toUInt16.toNat
def putInt32 (v : Int32) : ByteString := beBytes 4 v.toUInt32.toNat
def putInt64 (v : Int64) : ByteString := beBytes 8 v.toUInt64.toNat
def putUint32 (v : UInt32) : ByteString := beBytes 4 v.toNat

/-- `binary.PutVarint` and `binary.AppendVarint` write the same bytes. -/
def putVarint (v : Int64) : ByteString := Storage.varint v

def putString (s : ByteString) : ByteString := putInt16 (Int16.ofNat s.length) ++ s

def putNullableString : Option ByteString → ByteString
  | none => putInt16 (-1)
  | some s => putString s

def putBytes (b : ByteString) : ByteString := putInt32 (Int32.ofNat b.length) ++ b

def putNullableBytes : Option ByteString → ByteString
  | none => putInt32 (-1)
  | some b => putBytes b

def putArrayLen (n : Int32) : ByteString := putInt32 n

namespace Decoder

/-! ## The decoder's other reads -/

def int8 : Decode Int8 := do return Int8.ofNat (← uint 1)

def int64 : Decode Int64 := do return Int64.ofNat (← uint 8)

def uint32 : Decode UInt32 := do return UInt32.ofNat (← uint 4)

def varint : Decode Int64 := do
  if (← get).err ≠ none then return 0
  match readVarint (← sliceFrom) with
  | none =>
    modify fun d => { d with err := some (.varintFailed d.pos) }
    return 0
  | some (v, n) =>
    advance n
    return v

def string : Decode ByteString := do
  let n := (← int16).toInt
  if (← get).err ≠ none ∨ n < 0 then return []
  if !(← require n) then return []
  let s ← slice n
  advance n
  return s

def nullableBytes : Decode (Option ByteString) := do
  let n ← int32
  if (← get).err ≠ none then return none
  if n < 0 then return none
  let length := n.toInt
  if !(← require length) then return none
  let b ← slice length
  advance length
  return some b

/-- `RawBytes`; `none` is the nil slice of a failed read. -/
def rawBytes (n : Int) : Decode (Option ByteString) := do
  if !(← require n) then return none
  let b ← slice n
  advance n
  return some b

def arrayLen : Decode Int32 := int32

/-- `d.Error()`. -/
def error : Decode (Option DecodeError) := do return (← get).err

/-! ## Reads of what was put -/

/-- How a decoder that has not failed stands in its buffer. -/
def cursor : Cursor Decoder where
  stands d p rest := d.err = none ∧ d.pos = p ∧ p + rest.length = d.buf.length ∧
    d.buf.drop p = rest
  limit := 2 ^ 63

theorem stands_newDecoder (buf : ByteString) : cursor.stands (newDecoder buf) 0 buf :=
  ⟨rfl, rfl, Nat.zero_add _, rfl⟩

section Steps

variable {d : Decoder} {p : Nat} {w rest : ByteString}

theorem stands_moveTo (hs : cursor.stands d p (w ++ rest)) :
    cursor.stands (d.moveTo (p + w.length)) (p + w.length) rest := by
  obtain ⟨herr, -, hlen, hdrop⟩ := hs
  rw [List.length_append] at hlen
  refine ⟨herr, rfl, ?_, ?_⟩
  · show p + w.length + rest.length = d.buf.length
    omega
  · show d.buf.drop (p + w.length) = rest
    rw [← List.drop_drop, hdrop, List.drop_left]

theorem wrap_pos_add (hs : cursor.stands d p (w ++ rest)) (hlt : p + w.length < 2 ^ 63) :
    wrap64 (d.pos + w.length) = (p + w.length : Nat) := by
  rw [hs.2.1, ← wrap64_of_nat hlt, Int.natCast_add]

theorem require_length (hs : cursor.stands d p (w ++ rest)) (hlt : p + w.length < 2 ^ 63) :
    require w.length d = .ok (true, d) := by
  have hlen := hs.2.2.1
  rw [List.length_append] at hlen
  rw [require, if_neg (not_not.mpr hs.1), wrap_pos_add hs hlt, if_neg (by omega)]

theorem advance_length (hs : cursor.stands d p (w ++ rest)) (hlt : p + w.length < 2 ^ 63) :
    advance w.length d = .ok ((), d.moveTo (p + w.length)) := by
  rw [advance, moveTo, wrap_pos_add hs hlt]

theorem sliceFrom_stands (hs : cursor.stands d p rest) : sliceFrom d = .ok (rest, d) := by
  obtain ⟨-, hpos, hlen, hdrop⟩ := hs
  rw [sliceFrom, hpos, if_pos (by omega), Int.toNat_natCast, hdrop]

theorem slice_length (hs : cursor.stands d p (w ++ rest)) (hlt : p + w.length < 2 ^ 63) :
    slice w.length d = .ok (w, d) := by
  have hlen := hs.2.2.1
  rw [List.length_append] at hlen
  rw [slice, wrap_pos_add hs hlt, hs.2.1, if_pos (by omega), Int.toNat_natCast, Int.toNat_natCast,
    hs.2.2.2, List.take_left]

end Steps

theorem reads_advance (w : ByteString) : cursor.Reads (advance w.length) w () :=
  fun _ _ _ hs hlt => ⟨_, advance_length hs hlt, stands_moveTo hs⟩

/-- `d.Error()` of a decoder that has not failed. -/
theorem error_ok {d : Decoder} {p : Nat} {rest : ByteString} (hs : cursor.stands d p rest) :
    error d = .ok (none, d) := by
  have hget : (get : Decode Decoder) d = .ok (d, d) := rfl
  unfold error
  rw [bind_ok hget, hs.1]
  rfl

theorem reads_uint (w n : Nat) : cursor.Reads (uint w) (beBytes w n) (n % 256 ^ w) := by
  intro d p rest hs hlt
  have hw := length_beBytes w n
  refine ⟨_, ?_, stands_moveTo hs⟩
  have hreq := require_length hs hlt
  have hadv := advance_length hs hlt
  rw [hw] at hreq hadv
  unfold uint
  rw [bind_ok hreq, if_neg (by decide), bind_ok (sliceFrom_stands hs)]
  have hlong : ¬ (beBytes w n ++ rest).length < w := by
    rw [List.length_append, hw]
    omega
  simp only [if_neg hlong]
  rw [bind_ok hadv, List.take_left' hw, beNat_beBytes, hw]
  rfl

/-- A fixed-width type is read as the number its put wrote. -/
theorem reads_ofNat {α : Type} {ofNat : Nat → α} {w n : Nat} {v : α} (hn : n < 256 ^ w)
    (hv : ofNat n = v) : cursor.Reads (do return ofNat (← uint w)) (beBytes w n) v := by
  have h := (reads_uint w n).return (f := ofNat)
  rwa [Nat.mod_eq_of_lt hn, hv] at h

theorem reads_int8 (v : Int8) : cursor.Reads int8 (putInt8 v) v :=
  reads_ofNat v.toUInt8.toNat_lt (by apply Int8.toBitVec_inj.mp; simp)

theorem reads_int16 (v : Int16) : cursor.Reads int16 (putInt16 v) v :=
  reads_ofNat v.toUInt16.toNat_lt (by apply Int16.toBitVec_inj.mp; simp)

theorem reads_int32 (v : Int32) : cursor.Reads int32 (putInt32 v) v :=
  reads_ofNat v.toUInt32.toNat_lt (Storage.ofNat_toUInt32 v)

theorem reads_int64 (v : Int64) : cursor.Reads int64 (putInt64 v) v :=
  reads_ofNat v.toUInt64.toNat_lt (Storage.ofNat_toUInt64 v)

theorem reads_uint32 (v : UInt32) : cursor.Reads uint32 (putUint32 v) v :=
  reads_ofNat v.toNat_lt UInt32.ofNat_toNat

theorem reads_arrayLen (n : Int32) : cursor.Reads arrayLen (putArrayLen n) n := reads_int32 n

theorem reads_varint (v : Int64) : cursor.Reads varint (putVarint v) v := by
  intro d p rest hs hlt
  have hget : (get : Decode Decoder) d = .ok (d, d) := rfl
  refine ⟨_, ?_, stands_moveTo hs⟩
  unfold varint
  rw [bind_ok hget, if_neg (not_not.mpr hs.1), bind_ok (sliceFrom_stands hs),
    putVarint, Storage.readVarint_varint]
  exact bind_ok (advance_length hs hlt)

/-- The end of every read of so many bytes. -/
theorem reads_bytes {α : Type} (failed : α) (f : ByteString → α) (b : ByteString) :
    cursor.Reads (do
      if !(← require b.length) then return failed
      let s ← slice b.length
      advance b.length
      return f s) b (f b) := by
  refine Cursor.Reads.look (fun _ _ _ hs hlt => require_length hs hlt) ?_
  refine Cursor.Reads.look (fun _ _ _ hs hlt => slice_length hs hlt) ?_
  exact (reads_advance b).return

theorem reads_rawBytes (b : ByteString) : cursor.Reads (rawBytes b.length) b (some b) :=
  reads_bytes none some b

/-- A length below `2^15` survives its conversion. -/
theorem reads_string (s : ByteString) (h : s.length < 2 ^ 15) :
    cursor.Reads string (putString s) s := by
  refine (reads_int16 _).bind ?_
  rw [Int16.toInt_ofNat_of_lt h]
  have hnn : ¬ (s.length : Int) < 0 := Int.not_lt.mpr (Int.natCast_nonneg _)
  refine Cursor.Reads.get (fun d p rest hs => if_neg ?_) (reads_bytes [] id s)
  exact not_or.mpr ⟨not_not.mpr hs.1, hnn⟩

theorem reads_nullableString (o : Option ByteString) (h : ∀ s, o = some s → s.length < 2 ^ 15) :
    cursor.Reads nullableString (putNullableString o) o := by
  cases o with
  | none =>
    refine ((reads_int16 (-1)).bind ?_).of_eq (List.append_nil _).symm
    exact Cursor.Reads.get (fun d p rest hs => if_neg (not_not.mpr hs.1)) (Cursor.reads_pure none)
  | some s =>
    have hint := Int16.toInt_ofNat_of_lt (h s rfl)
    have hnn : ¬ Int16.ofNat s.length < 0 := by
      rw [Int16.lt_iff_toInt_lt, hint]
      exact Int.not_lt.mpr (Int.natCast_nonneg _)
    refine (reads_int16 _).bind ?_
    rw [if_neg hnn, hint]
    exact Cursor.Reads.get (fun d p rest hs => if_neg (not_not.mpr hs.1)) (reads_bytes none some s)

theorem reads_nullableBytes (o : Option ByteString) (h : ∀ b, o = some b → b.length < 2 ^ 31) :
    cursor.Reads nullableBytes (putNullableBytes o) o := by
  cases o with
  | none =>
    refine ((reads_int32 (-1)).bind ?_).of_eq (List.append_nil _).symm
    exact Cursor.Reads.get (fun d p rest hs => if_neg (not_not.mpr hs.1)) (Cursor.reads_pure none)
  | some b =>
    have hint := Int32.toInt_ofNat_of_lt (h b rfl)
    have hnn : ¬ Int32.ofNat b.length < 0 := by
      rw [Int32.lt_iff_toInt_lt, hint]
      exact Int.not_lt.mpr (Int.natCast_nonneg _)
    refine (reads_int32 _).bind ?_
    rw [if_neg hnn, hint]
    exact Cursor.Reads.get (fun d p rest hs => if_neg (not_not.mpr hs.1)) (reads_bytes none some b)

end Decoder

/-! ## Fields of a message -/

section Fields

open Decoder

/-- A field that a version from `since` on has; without it the field stays zero. -/
def readSince {α : Type} (since apiVersion : Int16) (zero : α) (f : Decode α) : Decode α :=
  if since ≤ apiVersion then f else pure zero

/-- `max(d.ArrayLen(), 0)` and the loop over so many items. -/
def readArray {α : Type} (f : Decode α) : Decode (List α) := do
  let n ← arrayLen
  Lib.Cursors.rounds (fun _ => f) 0 n.toInt.toNat

/-- The end of a message's decoder: the decoder's error, or the message. -/
def decodeWhole {α : Type} (f : Decode α) (body : ByteString) :
    Except Panic (Except DecodeError α × Decoder) :=
  (do
    let msg ← f
    match ← Decoder.error with
    | some e => return .error e
    | none => return .ok msg :
    Decode (Except DecodeError α)) (newDecoder body)

end Fields

namespace Decoder

theorem reads_readSince {α : Type} {f : Decode α} {w : ByteString} {v : α}
    (since apiVersion : Int16) (zero : α) (h : cursor.Reads f w v) :
    cursor.Reads (readSince since apiVersion zero f) (if since ≤ apiVersion then w else [])
      (if since ≤ apiVersion then v else zero) :=
  h.ite (since ≤ apiVersion) zero

/-- An array of a length that fits is read item by item. -/
theorem reads_readArray {α β : Type} {f : Decode β} {write : α → ByteString} {g : α → β}
    {as : List α} (hlen : as.length < 2 ^ 31) (h : ∀ a ∈ as, cursor.Reads f (write a) (g a)) :
    cursor.Reads (readArray f)
      (putArrayLen (Int32.ofNat as.length) ++ writeAll (fun _ => write) 0 as) (as.map g) := by
  refine (reads_arrayLen _).bind ?_
  rw [Int32.toInt_ofNat_of_lt hlen, Int.toNat_natCast]
  exact Cursor.Reads.rounds_map (fun _ => h) 0

/-- A negative length has no items. -/
theorem reads_readArray_neg {α : Type} (f : Decode α) {n : Int32} (hn : n < 0) :
    cursor.Reads (readArray f) (putArrayLen n) [] := by
  refine ((reads_arrayLen n).bind ?_).of_eq (List.append_nil _).symm
  have hzero : n.toInt.toNat = 0 := by
    have hlt := Int32.lt_iff_toInt_lt.mp hn
    rw [Int32.toInt_zero] at hlt
    omega
  rw [hzero]
  exact Cursor.reads_pure []

/-- A decoder that reads the front of its body returns the message and stops there. -/
theorem decodeWhole_append {α : Type} {f : Decode α} {w : ByteString} {msg : α}
    (h : cursor.Reads f w msg) (hlt : w.length < 2 ^ 63) (rest : ByteString) :
    ∃ d, decodeWhole f (w ++ rest) = .ok (.ok msg, d) ∧ d.pos = w.length := by
  obtain ⟨d, hread, hstands⟩ := h _ 0 rest (stands_newDecoder _) (by
    rw [Nat.zero_add]
    exact hlt)
  refine ⟨d, ?_, ?_⟩
  · unfold decodeWhole
    rw [bind_ok hread, bind_ok (error_ok hstands)]
    rfl
  · rw [hstands.2.1, Nat.zero_add]

/-- A decoder that reads exactly its body stops at the end. -/
theorem decodeWhole_of_reads {α : Type} {f : Decode α} {w : ByteString} {msg : α}
    (h : cursor.Reads f w msg) (hlt : w.length < 2 ^ 63) :
    ∃ d, decodeWhole f w = .ok (.ok msg, d) ∧ d.pos = w.length := by
  have hwhole := decodeWhole_append h hlt []
  rwa [List.append_nil] at hwhole

end Decoder

end MessageBroker.Protocol
