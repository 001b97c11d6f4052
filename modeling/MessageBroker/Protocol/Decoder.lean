import MessageBroker.Lib.Cursors
import MessageBroker.Lib.Varint

/-!
# The request decoder

A decoder is a buffer with a position and a sticky error: once a read has failed
every later one returns a zero value. Positions and lengths are Go's 64-bit `int`
and wrap. A slice out of range is a panic, an outcome of its own.

`trail` and `rounds` are not in the source and nothing reads them: they keep the
positions the decoder has had, latest first, and the rounds of the tagged-field
loop it has begun.
-/
namespace MessageBroker.Protocol

open Lib.Bytes Lib.Varint
open Lib.Cursors (bind_ok of_bind_ok)

inductive DecodeError
  | shortBuffer (need offset have_ : Int)
  | uvarintFailed (offset : Int)
  | varintFailed (offset : Int)
  deriving DecidableEq

inductive Panic
  | sliceOutOfRange
  | makeNegativeLength
  deriving DecidableEq

structure Decoder where
  buf : ByteString
  pos : Int
  err : Option DecodeError
  trail : List Int
  rounds : Nat
  deriving DecidableEq

abbrev Decode := StateT Decoder (Except Panic)

/-- A 64-bit `int` holds a number modulo `2^64`. -/
def wrap64 (z : Int) : Int := (z + 2 ^ 63) % 2 ^ 64 - 2 ^ 63

theorem wrap64_of_nat {n : Nat} (h : n < 2 ^ 63) : wrap64 n = n := by
  unfold wrap64
  omega

namespace Decoder

def newDecoder (buf : ByteString) : Decoder := ⟨buf, 0, none, [0], 0⟩

def require (n : Int) : Decode Bool := fun d =>
  if d.err ≠ none then .ok (false, d)
  else if d.buf.length < wrap64 (d.pos + n) then
    .ok (false, { d with err := some (.shortBuffer n d.pos d.buf.length) })
  else .ok (true, d)

/-- `d.pos += n`. -/
def advance (n : Int) : Decode Unit := fun d =>
  .ok ((), { d with
    pos := wrap64 (d.pos + n)
    trail := wrap64 (d.pos + n) :: d.trail })

/-- `d.buf[d.pos:]`. -/
def sliceFrom : Decode ByteString := fun d =>
  if 0 ≤ d.pos ∧ d.pos ≤ d.buf.length then .ok (d.buf.drop d.pos.toNat, d)
  else .error .sliceOutOfRange

/-- `d.buf[d.pos : d.pos+n]`. -/
def slice (n : Int) : Decode ByteString := fun d =>
  if 0 ≤ d.pos ∧ d.pos ≤ wrap64 (d.pos + n) ∧ wrap64 (d.pos + n) ≤ d.buf.length then
    .ok ((d.buf.drop d.pos.toNat).take n.toNat, d)
  else .error .sliceOutOfRange

/-- The reads of a big-endian number of `w` bytes. -/
def uint (w : Nat) : Decode Nat := do
  if !(← require w) then return 0
  let bs ← sliceFrom
  if bs.length < w then throw .sliceOutOfRange
  advance w
  return beNat (bs.take w)

def int16 : Decode Int16 := do return Int16.ofNat (← uint 2)

def int32 : Decode Int32 := do return Int32.ofNat (← uint 4)

def uvarint : Decode Nat := do
  if (← get).err ≠ none then return 0
  match readUvarint (← sliceFrom) with
  | none =>
    modify fun d => { d with err := some (.uvarintFailed d.pos) }
    return 0
  | some (v, n) =>
    advance n
    return v

def nullableString : Decode (Option ByteString) := do
  let n ← int16
  if (← get).err ≠ none then return none
  if n < 0 then return none
  let length := n.toInt
  if !(← require length) then return none
  let s ← slice length
  advance length
  return some s

/-- The loop of `DiscardTaggedFields` over the fields still to come. -/
def discardLoop : Nat → Decode Unit
  | 0 => pure ()
  | numFields + 1 => do
      modify fun d => { d with rounds := d.rounds + 1 }
      let _tag ← uvarint
      let length := wrap64 (← uvarint)
      if !(← require length) then return ()
      advance length
      discardLoop numFields

def discardTaggedFields : Decode Unit := do
  if (← get).err ≠ none then return ()
  discardLoop (← uvarint)

/-! ## Steps of a decoder in range -/

/-- The decoder moved to a later position. -/
def moveTo (d : Decoder) (q : Nat) : Decoder := { d with pos := q, trail := q :: d.trail }

def fail (d : Decoder) (e : DecodeError) : Decoder := { d with err := some e }

/-- A body after which an `int` has room for a 32-bit length. -/
abbrev HasRoom (body : ByteString) : Prop := body.length + 2 ^ 31 ≤ 2 ^ 63

/-- No read has failed and the position is `p`, in range; a buffer is shorter than
`2^63` bytes. -/
structure At (d : Decoder) (p : Nat) : Prop where
  err_eq : d.err = none
  pos_eq : d.pos = p
  le : p ≤ d.buf.length
  len_lt : d.buf.length < 2 ^ 63

theorem At.moveTo {d : Decoder} {p q : Nat} (h : d.At p) (hq : q ≤ d.buf.length) :
    (d.moveTo q).At q := ⟨h.err_eq, rfl, hq, h.len_lt⟩

/-- The positions of the decoder never left the buffer and never went back. -/
structure Straight (d : Decoder) : Prop where
  within : ∀ p ∈ d.trail, 0 ≤ p ∧ p ≤ d.buf.length
  forward : d.trail.Pairwise (· ≥ ·)

/-- The same, with the trail up to date. -/
structure Tidy (d : Decoder) : Prop extends Straight d where
  head_eq : d.trail.head? = some d.pos

theorem tidy_newDecoder (buf : ByteString) : (newDecoder buf).Tidy where
  within p hp := by
    rw [List.mem_singleton.mp hp]
    exact ⟨le_refl 0, Int.natCast_nonneg _⟩
  forward := List.pairwise_singleton _ _
  head_eq := rfl

theorem Tidy.fail {d : Decoder} (h : d.Tidy) (e : DecodeError) : (d.fail e).Tidy :=
  ⟨⟨h.within, h.forward⟩, h.head_eq⟩

theorem Tidy.moveTo {d : Decoder} {p q : Nat} (h : d.Tidy) (ha : d.At p) (hpq : p ≤ q)
    (hq : q ≤ d.buf.length) : (d.moveTo q).Tidy where
  within x hx := by
    rcases List.mem_cons.mp hx with rfl | hx
    · exact ⟨Int.natCast_nonneg _, Int.ofNat_le.mpr hq⟩
    · exact h.within x hx
  forward := by
    refine List.pairwise_cons.mpr ⟨fun x hx => ?_, h.forward⟩
    have hle : x ≤ d.pos := by
      have hf := h.forward
      have hh := h.head_eq
      cases ht : d.trail with
      | nil => rw [ht] at hx; cases hx
      | cons y ys =>
        rw [ht] at hx hf hh
        cases hh
        rcases List.mem_cons.mp hx with rfl | hx
        · exact le_refl _
        · exact (List.pairwise_cons.mp hf).1 x hx
    have := ha.pos_eq
    omega
  head_eq := rfl

section Steps

variable {d : Decoder} {p : Nat}

theorem At.wrap_add (h : d.At p) {n : Nat} (hn : p + n < 2 ^ 63) :
    wrap64 (d.pos + n) = (p + n : Nat) := by
  rw [h.pos_eq, ← wrap64_of_nat hn]
  simp

theorem At.require_ok (h : d.At p) {n : Nat} (hle : p + n ≤ d.buf.length) :
    require n d = .ok (true, d) := by
  have hlen := h.len_lt
  rw [require, if_neg (by simp [h.err_eq]), h.wrap_add (by omega), if_neg (by omega)]

theorem At.require_short (h : d.At p) {n : Nat} (hn : p + n < 2 ^ 63)
    (hlt : d.buf.length < p + n) :
    require n d = .ok (false, d.fail (.shortBuffer n p d.buf.length)) := by
  rw [require, if_neg (by simp [h.err_eq]), h.wrap_add hn, if_pos (by omega), fail, h.pos_eq]

theorem At.advance (h : d.At p) {n : Nat} (hn : p + n < 2 ^ 63) :
    Decoder.advance n d = .ok ((), d.moveTo (p + n)) := by
  rw [Decoder.advance, Decoder.moveTo, h.wrap_add hn]

theorem At.sliceFrom (h : d.At p) : Decoder.sliceFrom d = .ok (d.buf.drop p, d) := by
  have := h.le
  rw [Decoder.sliceFrom, h.pos_eq, if_pos (by omega)]
  rfl

theorem At.slice (h : d.At p) {n : Nat} (hle : p + n ≤ d.buf.length) :
    Decoder.slice n d = .ok ((d.buf.drop p).take n, d) := by
  have hlen := h.len_lt
  rw [Decoder.slice, h.wrap_add (by omega), h.pos_eq, if_pos (by omega)]
  rfl

theorem At.uint_ok (h : d.At p) {w : Nat} (hle : p + w ≤ d.buf.length) :
    uint w d = .ok (field d.buf p w, d.moveTo (p + w)) := by
  have hlen := h.len_lt
  have hlong : ¬ (d.buf.drop p).length < w := by
    rw [List.length_drop]
    omega
  unfold uint
  rw [bind_ok (h.require_ok hle), if_neg (by decide), bind_ok h.sliceFrom]
  simp only [if_neg hlong]
  rw [bind_ok (h.advance (by omega))]
  rfl

theorem At.uint_short (h : d.At p) {w : Nat} (hw : p + w < 2 ^ 63)
    (hlt : d.buf.length < p + w) :
    uint w d = .ok (0, d.fail (.shortBuffer w p d.buf.length)) := by
  unfold uint
  rw [bind_ok (h.require_short hw hlt)]
  rfl

theorem At.uvarint_none (h : d.At p) (hr : readUvarint (d.buf.drop p) = none) :
    uvarint d = .ok (0, d.fail (.uvarintFailed p)) := by
  have hget : (get : Decode Decoder) d = .ok (d, d) := rfl
  unfold uvarint
  rw [bind_ok hget, if_neg (by simp [h.err_eq]), bind_ok h.sliceFrom, hr, ← h.pos_eq]
  rfl

theorem At.uvarint_some (h : d.At p) {v n : Nat} (hr : readUvarint (d.buf.drop p) = some (v, n)) :
    uvarint d = .ok (v, d.moveTo (p + n)) ∧ 0 < n ∧ p + n ≤ d.buf.length ∧ v < 2 ^ 64 := by
  have hget : (get : Decode Decoder) d = .ok (d, d) := rfl
  obtain ⟨hpos, hn, hv⟩ := readUvarint_some hr
  rw [List.length_drop] at hn
  have hlen := h.len_lt
  have hle : p + n ≤ d.buf.length := by omega
  refine ⟨?_, hpos, hle, hv⟩
  unfold uvarint
  rw [bind_ok hget, if_neg (by simp [h.err_eq]), bind_ok h.sliceFrom, hr]
  simp only
  rw [bind_ok (h.advance (by omega))]
  rfl

end Steps

/-! ## After a failure -/

section Sticky

variable {d : Decoder} (he : d.err ≠ none)

include he

theorem require_failed (n : Int) : require n d = .ok (false, d) := if_pos he

theorem uint_failed (w : Nat) : uint w d = .ok (0, d) := by
  unfold uint
  rw [bind_ok (require_failed he w)]
  rfl

theorem uvarint_failed : uvarint d = .ok (0, d) := by
  have hget : (get : Decode Decoder) d = .ok (d, d) := rfl
  unfold uvarint
  rw [bind_ok hget, if_pos he]
  rfl

theorem discardTaggedFields_failed : discardTaggedFields d = .ok ((), d) := by
  have hget : (get : Decode Decoder) d = .ok (d, d) := rfl
  unfold discardTaggedFields
  rw [bind_ok hget, if_pos he]
  rfl

end Sticky

/-! ## The trail only grows -/

/-- What happened stays on record. -/
def Grows (d d' : Decoder) : Prop := d'.buf = d.buf ∧ d.trail <:+ d'.trail

theorem Grows.trans {d d' d'' : Decoder} (h : d.Grows d') (h' : d'.Grows d'') : d.Grows d'' :=
  ⟨h'.1.trans h.1, h.2.trans h'.2⟩

/-- A decoder that went astray stays astray. -/
theorem Straight.of_grows {d d' : Decoder} (ht : d'.Straight) (h : d.Grows d') : d.Straight where
  within p hp := by
    rw [← h.1]
    exact ht.within p (h.2.subset hp)
  forward := ht.forward.sublist h.2.sublist

/-- A step that only adds to the trail. -/
def Growing {α : Type} (x : Decode α) : Prop :=
  ∀ d a d', x d = .ok (a, d') → d.Grows d'

theorem growing_of_same {α : Type} {x : Decode α}
    (h : ∀ d a d', x d = .ok (a, d') → d'.buf = d.buf ∧ d'.trail = d.trail) : Growing x := by
  intro d a d' hx
  obtain ⟨hb, ht⟩ := h d a d' hx
  exact ⟨hb, ht ▸ List.suffix_rfl⟩

theorem growing_pure {α : Type} (a : α) : Growing (pure a : Decode α) :=
  growing_of_same fun d b d' h => by cases h; exact ⟨rfl, rfl⟩

theorem Growing.bind {α β : Type} {x : Decode α} {f : α → Decode β} (hx : Growing x)
    (hf : ∀ a, Growing (f a)) : Growing (x >>= f) := by
  intro d b d'' h
  obtain ⟨a, d', hxd, hfd⟩ := of_bind_ok h
  exact (hx d a d' hxd).trans (hf a d' b d'' hfd)

theorem growing_require (n : Int) : Growing (require n) := by
  refine growing_of_same fun d b d' h => ?_
  unfold require at h
  split at h
  · cases h
    exact ⟨rfl, rfl⟩
  · split at h <;> cases h <;> exact ⟨rfl, rfl⟩

theorem growing_advance (n : Int) : Growing (advance n) := by
  intro d b d' h
  cases h
  exact ⟨rfl, List.suffix_cons _ _⟩

theorem growing_sliceFrom : Growing sliceFrom := by
  refine growing_of_same fun d b d' h => ?_
  unfold sliceFrom at h
  split at h <;> cases h
  exact ⟨rfl, rfl⟩

theorem growing_modify {f : Decoder → Decoder}
    (h : ∀ d, (f d).buf = d.buf ∧ (f d).trail = d.trail) : Growing (modify f : Decode Unit) :=
  growing_of_same fun d b d' hx => by cases hx; exact h d

theorem growing_uvarint : Growing uvarint := by
  unfold uvarint
  refine Growing.bind (growing_of_same fun d a d' h => by cases h; exact ⟨rfl, rfl⟩) fun d => ?_
  split
  · exact growing_pure 0
  · refine growing_sliceFrom.bind fun bs => ?_
    split
    · exact Growing.bind (growing_modify fun d => ⟨rfl, rfl⟩) fun _ => growing_pure 0
    · exact (growing_advance _).bind fun _ => growing_pure _

theorem growing_discardLoop (numFields : Nat) : Growing (discardLoop numFields) := by
  induction numFields with
  | zero => exact growing_pure ()
  | succ numFields ih =>
    unfold discardLoop
    refine Growing.bind (growing_modify fun d => ⟨rfl, rfl⟩) fun _ => ?_
    refine growing_uvarint.bind fun _ => growing_uvarint.bind fun length => ?_
    refine (growing_require _).bind fun enough => ?_
    split
    · exact growing_pure ()
    · exact (growing_advance _).bind fun _ => ih

/-! ## The tagged fields -/

/-- On the wire, from position `p` on: every length among the next fields leaves
the position after it below `2^63`. The fields end where one does not fit `buf`. -/
def FieldsFit (buf : ByteString) : Nat → Nat → Prop
  | 0, _ => True
  | numFields + 1, p =>
      match readUvarint (buf.drop p) with
      | none => True
      | some (_, k) =>
        match readUvarint (buf.drop (p + k)) with
        | none => True
        | some (length, k') =>
          p + k + k' + length < 2 ^ 63 ∧
            (p + k + k' + length ≤ buf.length →
              FieldsFit buf numFields (p + k + k' + length))

/-- The decoder at the start of a round. -/
def beginRound (d : Decoder) : Decoder := { d with rounds := d.rounds + 1 }

theorem At.beginRound {d : Decoder} {p : Nat} (h : d.At p) : d.beginRound.At p :=
  ⟨h.err_eq, h.pos_eq, h.le, h.len_lt⟩

theorem Tidy.beginRound {d : Decoder} (h : d.Tidy) : d.beginRound.Tidy :=
  ⟨⟨h.within, h.forward⟩, h.head_eq⟩

section Rounds

variable {d : Decoder} {p : Nat}

/-- A round in which the tag cannot be read, or the length cannot. -/
theorem discardLoop_unread (numFields : Nat) {d' : Decoder} (he : d'.err ≠ none)
    (h : uvarint d.beginRound = .ok (0, d') ∨
      ∃ tag d₁, uvarint d.beginRound = .ok (tag, d₁) ∧ uvarint d₁ = .ok (0, d')) :
    discardLoop (numFields + 1) d = .ok ((), d') := by
  have hbegin : (modify fun d => { d with rounds := d.rounds + 1 } : Decode Unit) d =
      .ok ((), d.beginRound) := rfl
  unfold discardLoop
  rw [bind_ok hbegin]
  rcases h with h | ⟨tag, d₁, h, h'⟩
  · rw [bind_ok h, bind_ok (uvarint_failed he), bind_ok (require_failed he _)]
    rfl
  · rw [bind_ok h, bind_ok h', bind_ok (require_failed he _)]
    rfl

/-- A round that has read a tag and a length. -/
theorem discardLoop_read (numFields : Nat) {d' : Decoder} {tag length k k' : Nat}
    (h : d.At p) (htag : readUvarint (d.buf.drop p) = some (tag, k))
    (hlen : readUvarint (d.buf.drop (p + k)) = some (length, k'))
    (hd' : d' = (d.beginRound.moveTo (p + k)).moveTo (p + k + k')) :
    d'.At (p + k + k') ∧ 2 ≤ k + k' ∧ length < 2 ^ 64 ∧ d'.buf = d.buf ∧
      discardLoop (numFields + 1) d =
        (do
          if !(← require (wrap64 length)) then return ()
          advance (wrap64 length)
          discardLoop numFields : Decode Unit) d' := by
  have hbegin : (modify fun d => { d with rounds := d.rounds + 1 } : Decode Unit) d =
      .ok ((), d.beginRound) := rfl
  obtain ⟨hu, hk, hle, -⟩ := h.beginRound.uvarint_some htag
  have h₁ := h.beginRound.moveTo hle
  obtain ⟨hu', hk', hle', hlt⟩ := h₁.uvarint_some hlen
  subst hd'
  refine ⟨h₁.moveTo hle', by omega, hlt, rfl, ?_⟩
  rw [discardLoop, bind_ok hbegin, bind_ok hu, bind_ok hu']

end Rounds

/-- Fields that fit are passed without leaving the buffer, two bytes a round. -/
theorem discardLoop_fit (numFields : Nat) : ∀ {d : Decoder} {p : Nat}, d.At p → d.Tidy →
    FieldsFit d.buf numFields p →
    ∃ d', discardLoop numFields d = .ok ((), d') ∧ d'.buf = d.buf ∧ d'.Tidy ∧
      (d'.err = none → ∃ q, d'.At q) ∧ 2 * d'.rounds + p ≤ 2 * d.rounds + d.buf.length + 2 := by
  induction numFields with
  | zero =>
    intro d p h ht _
    have := h.le
    exact ⟨d, rfl, rfl, ht, fun _ => ⟨p, h⟩, by omega⟩
  | succ numFields ih =>
    intro d p h ht hfit
    have hple := h.le
    cases htag : readUvarint (d.buf.drop p) with
    | none =>
      refine ⟨_, discardLoop_unread numFields (Option.some_ne_none _)
        (.inl (h.beginRound.uvarint_none htag)), rfl, ht.beginRound.fail _,
        fun he => (Option.some_ne_none _ he).elim, ?_⟩
      show 2 * (d.rounds + 1) + p ≤ _
      omega
    | some r =>
      obtain ⟨tag, k⟩ := r
      obtain ⟨hu, hk, hle, -⟩ := h.beginRound.uvarint_some htag
      have h₁ := h.beginRound.moveTo hle
      have ht₁ := ht.beginRound.moveTo h.beginRound (Nat.le_add_right p k) hle
      cases hlen : readUvarint (d.buf.drop (p + k)) with
      | none =>
        refine ⟨_, discardLoop_unread numFields (Option.some_ne_none _)
          (.inr ⟨tag, _, hu, h₁.uvarint_none hlen⟩), rfl, ht₁.fail _,
          fun he => (Option.some_ne_none _ he).elim, ?_⟩
        show 2 * (d.rounds + 1) + p ≤ _
        omega
      | some r =>
        obtain ⟨length, k'⟩ := r
        obtain ⟨h₂, hkk, -, hbuf, hround⟩ := discardLoop_read numFields h htag hlen rfl
        have ht₂ := ht₁.moveTo h₁ (Nat.le_add_right (p + k) k') h₂.le
        simp only [FieldsFit, htag, hlen] at hfit
        obtain ⟨hlt, hrest⟩ := hfit
        have hw : wrap64 length = length := wrap64_of_nat (by omega)
        rw [hround, hw]
        by_cases hin : p + k + k' + length ≤ d.buf.length
        · rw [bind_ok (h₂.require_ok hin), if_neg (by decide), bind_ok (h₂.advance hlt)]
          obtain ⟨d', heq, hb, htidy, herr, hrounds⟩ := ih (h₂.moveTo hin)
            (ht₂.moveTo h₂ (Nat.le_add_right _ _) hin) (hrest hin)
          refine ⟨d', heq, hb, htidy, herr, ?_⟩
          have hr : 2 * d'.rounds + (p + k + k' + length) ≤
              2 * (d.rounds + 1) + d.buf.length + 2 := hrounds
          omega
        · rw [bind_ok (h₂.require_short hlt (by rw [hbuf]; omega))]
          refine ⟨_, rfl, rfl, ht₂.fail _, fun he => (Option.some_ne_none _ he).elim, ?_⟩
          show 2 * (d.rounds + 1) + p ≤ _
          omega

/-- A length that does not fit sends the decoder back. -/
theorem discardLoop_misfit (numFields : Nat) : ∀ {d : Decoder} {p : Nat}, d.At p →
    ¬ FieldsFit d.buf numFields p →
    ∀ {d' : Decoder}, discardLoop numFields d = .ok ((), d') → ¬ d'.Straight := by
  induction numFields with
  | zero => exact fun _ hfit => absurd trivial hfit
  | succ numFields ih =>
    intro d p h hfit d' hrun hstraight
    cases htag : readUvarint (d.buf.drop p) with
    | none => simp [FieldsFit, htag] at hfit
    | some r =>
      obtain ⟨tag, k⟩ := r
      cases hlen : readUvarint (d.buf.drop (p + k)) with
      | none => simp [FieldsFit, htag, hlen] at hfit
      | some r =>
        obtain ⟨length, k'⟩ := r
        obtain ⟨h₂, hkk, hlt64, hbuf, hround⟩ := discardLoop_read numFields h htag hlen rfl
        have hq := h₂.le
        have hqlt := h₂.len_lt
        rw [hbuf] at hq hqlt
        simp only [FieldsFit, htag, hlen, not_and, Classical.not_imp] at hfit
        rw [hround] at hrun
        by_cases hlt : p + k + k' + length < 2 ^ 63
        · obtain ⟨hin, hrest⟩ := hfit hlt
          have hw : wrap64 length = length := wrap64_of_nat (by omega)
          rw [hw, bind_ok (h₂.require_ok hin), if_neg (by decide), bind_ok (h₂.advance hlt)] at hrun
          exact ih (h₂.moveTo hin) hrest hrun hstraight
        · -- as an `int` the length is negative, or the sum with the position wraps
          generalize hd₂ : (d.beginRound.moveTo (p + k)).moveTo (p + k + k') = d₂ at *
          have hback : wrap64 (d₂.pos + wrap64 length) < (p + k + k' : Nat) := by
            rw [h₂.pos_eq]
            unfold wrap64
            omega
          have hreq : require (wrap64 length) d₂ = .ok (true, d₂) := by
            rw [require, if_neg (by simp [h₂.err_eq]), if_neg (by rw [hbuf]; omega)]
          have hadv : advance (wrap64 length) d₂ = .ok ((), { d₂ with
              pos := wrap64 (d₂.pos + wrap64 length)
              trail := wrap64 (d₂.pos + wrap64 length) :: d₂.trail }) := rfl
          rw [bind_ok hreq, if_neg (by decide), bind_ok hadv] at hrun
          have hforward := (hstraight.of_grows (growing_discardLoop numFields _ _ _ hrun)).forward
          have hmem : ((p + k + k' : Nat) : Int) ∈ d₂.trail := by
            rw [← hd₂]
            exact List.mem_cons_self
          have := (List.pairwise_cons.mp hforward).1 _ hmem
          omega

end Decoder

end MessageBroker.Protocol
