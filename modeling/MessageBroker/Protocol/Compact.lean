import MessageBroker.Protocol.Wire

/-!
# The flexible encoding

Flexible versions write lengths as varints, one more than the length so that zero is
left for null, and end every structure with tagged fields. The decoder takes a length
out of a 64-bit varint through Go's `int`, which wraps. Unknown tagged fields are
skipped.
-/
namespace MessageBroker.Protocol

open Lib.Bytes Lib.Varint Lib.Cursors

/-! ## The encoder -/

def putUvarint (v : Nat) : ByteString := Storage.uvarint 10 v

def putCompactString (s : ByteString) : ByteString := putUvarint ((s.length + 1) % 2 ^ 64) ++ s

def putCompactArrayLen (n : Nat) : ByteString := putUvarint ((n + 1) % 2 ^ 64)

/-- No tagged field follows. -/
def putTaggedFields : ByteString := putUvarint 0

/-- A field that a later version of the protocol may add anywhere. -/
structure TaggedField where
  tag : Nat
  payload : ByteString
  deriving DecidableEq

def putTaggedField (f : TaggedField) : ByteString :=
  putUvarint f.tag ++ (putUvarint f.payload.length ++ f.payload)

/-- Some tagged fields in the place of none. -/
def putTags (tags : List TaggedField) : ByteString :=
  putUvarint tags.length ++ writeAll (fun _ => putTaggedField) 0 tags

theorem putTags_nil : putTags [] = putTaggedFields := List.append_nil _

/-- The tag is a 64-bit number and the payload is shorter than `2^31` bytes. -/
def TaggedField.WellFormed (f : TaggedField) : Prop := f.tag < 2 ^ 64 ∧ f.payload.length < 2 ^ 31

instance (f : TaggedField) : Decidable f.WellFormed := instDecidableAnd

namespace Decoder

/-! ## The decoder -/

def compactString : Decode ByteString := do
  let raw ← uvarint
  if (← get).err ≠ none then return []
  if raw = 0 then return []
  let length := wrap64 (wrap64 raw - 1)
  if !(← require length) then return []
  let s ← slice length
  advance length
  return s

def compactArrayLen : Decode Int := do
  let v ← uvarint
  if v = 0 then return -1
  return wrap64 (wrap64 v - 1)

/-! ## Reads of what was put -/

theorem reads_uvarint {u : Nat} (hu : u < 2 ^ 64) : cursor.Reads uvarint (putUvarint u) u := by
  intro d p rest hs hlt
  have hget : (get : Decode Decoder) d = .ok (d, d) := rfl
  refine ⟨_, ?_, stands_moveTo hs⟩
  unfold uvarint
  rw [bind_ok hget, if_neg (not_not.mpr hs.1), bind_ok (sliceFrom_stands hs),
    putUvarint, Storage.readUvarint_uvarint hu]
  exact bind_ok (advance_length hs hlt)

/-- The `int` of a length that was put plus one. -/
theorem wrap64_succ_sub_one {n : Nat} (h : n < 2 ^ 63) :
    wrap64 (wrap64 ((n + 1 : Nat) : Int) - 1) = n := by
  unfold wrap64
  omega

theorem reads_compactString (s : ByteString) (h : s.length < 2 ^ 63) :
    cursor.Reads compactString (putCompactString s) s := by
  have hraw : (s.length + 1) % 2 ^ 64 = s.length + 1 := Nat.mod_eq_of_lt (by omega)
  rw [putCompactString, hraw]
  refine (reads_uvarint (by omega)).bind ?_
  refine Cursor.Reads.get (fun d p rest hs => if_neg (not_not.mpr hs.1)) ?_
  simp only [if_neg (Nat.succ_ne_zero _), wrap64_succ_sub_one h]
  exact reads_bytes [] id s

theorem reads_compactArrayLen {n : Nat} (h : n < 2 ^ 63) :
    cursor.Reads compactArrayLen (putCompactArrayLen n) n := by
  have hraw : (n + 1) % 2 ^ 64 = n + 1 := Nat.mod_eq_of_lt (by omega)
  rw [putCompactArrayLen, hraw]
  refine ((reads_uvarint (by omega)).bind ?_).of_eq (List.append_nil _).symm
  simp only [if_neg (Nat.succ_ne_zero _), wrap64_succ_sub_one h]
  exact Cursor.reads_pure (n : Int)

/-! ## Tagged fields -/

/-- The count of rounds is not read by anything. -/
theorem reads_beginRound :
    cursor.Reads (modify fun d => { d with rounds := d.rounds + 1 } : Decode Unit) [] () :=
  fun d _ _ hs _ => ⟨{ d with rounds := d.rounds + 1 }, rfl, hs⟩

theorem reads_discardLoop {tags : List TaggedField} (h : ∀ f ∈ tags, f.WellFormed) (i : Nat) :
    cursor.Reads (discardLoop tags.length) (writeAll (fun _ => putTaggedField) i tags) () := by
  induction tags generalizing i with
  | nil => exact Cursor.reads_pure ()
  | cons f tags ih =>
    obtain ⟨htag, hpayload⟩ := h f List.mem_cons_self
    have hrest := ih (fun g hg => h g (List.mem_cons_of_mem f hg)) (i + 1)
    have hint : wrap64 (f.payload.length : Nat) = f.payload.length := wrap64_of_nat (by omega)
    rw [writeAll, putTaggedField, List.append_assoc, List.append_assoc]
    refine reads_beginRound.bind ?_
    refine (reads_uvarint htag).bind ((reads_uvarint (by omega)).bind ?_)
    rw [hint]
    refine Cursor.Reads.look (v := true) (fun d p rest hs hlt => ?_) ((reads_advance _).bind hrest)
    rw [List.append_assoc] at hs
    rw [List.length_append] at hlt
    exact require_length hs (Nat.lt_of_le_of_lt (by omega) hlt)

/-- Each field takes at least one byte, so the number of fields is a 64-bit number. -/
theorem length_le_writeAll_tags (i : Nat) (tags : List TaggedField) :
    tags.length ≤ (writeAll (fun _ => putTaggedField) i tags).length := by
  induction tags generalizing i with
  | nil => exact Nat.le_refl 0
  | cons f tags ih =>
    have hpos : 0 < (putUvarint f.tag).length := by
      rw [putUvarint, Storage.uvarint]
      split
      · exact Nat.succ_pos _
      · exact Nat.succ_pos _
    have hrest := ih (i + 1)
    rw [writeAll, putTaggedField, List.length_append, List.length_append, List.length_cons]
    omega

theorem reads_discardTaggedFields {tags : List TaggedField} (h : ∀ f ∈ tags, f.WellFormed) :
    cursor.Reads discardTaggedFields (putTags tags) () := by
  refine Cursor.Reads.bounded fun hlt => ?_
  have hcount : tags.length < 2 ^ 64 := by
    have hle := length_le_writeAll_tags 0 tags
    have hlimit : (putTags tags).length < 2 ^ 63 := hlt
    rw [putTags, List.length_append] at hlimit
    omega
  unfold discardTaggedFields
  refine Cursor.Reads.get (fun d p rest hs => if_neg (not_not.mpr hs.1)) ?_
  exact (reads_uvarint hcount).bind (reads_discardLoop h 0)

theorem reads_discardNoFields : cursor.Reads discardTaggedFields putTaggedFields () :=
  (reads_discardTaggedFields (fun _ hf => absurd hf List.not_mem_nil)).of_eq putTags_nil.symm

end Decoder

end MessageBroker.Protocol
