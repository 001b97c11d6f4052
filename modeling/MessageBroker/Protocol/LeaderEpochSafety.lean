import MessageBroker.Lib.Layouts
import MessageBroker.Protocol.LeaderEpoch

/-!
# Requests for leader epochs from anyone

`DecodeOffsetsForLeaderEpochRequest` runs on whatever a client sends. In the legacy
versions every length is a signed number of 16 or 32 bits and no body does any harm.
In version 4 lengths are 64-bit varints: an array length is narrowed to 32 bits, a
name's length is added to a position, and the length of a tagged field moves the
position, backwards if it is negative as an `int`.

The walk below reads a body the way the lengths in it say, with positions as numbers
and no decoder. It keeps the length each array has in the body beside the items, and
stops at a length that leaves no way on.
-/
namespace MessageBroker.Protocol

open Lib.Bytes Lib.Varint
open Lib.Cursors (rounds bind_ok bind_error)
open Lib.Layouts

/-! ## The walk -/

/-- What leaves no way on: an array of negative length, a name that ends beyond every
position, a read before the start of the body. -/
inductive Misfit
  | arrayLength (raw : Nat)
  | nameEnd (p : Int) (length : Nat)
  | position (p : Int)
  deriving DecidableEq

abbrev Walk := Layout Int Misfit

/-- An array with the length that the body has for it. -/
structure Counted (α : Type) where
  encoded : Nat
  items : List α
  deriving DecidableEq

/-- `int32(max(int(raw)-1, 0))`, with null for a `raw` of zero. -/
def narrowedLength (raw : Nat) : Int32 :=
  Int32.ofInt (max (if raw = 0 then -1 else wrap64 (wrap64 raw - 1)) 0)

namespace Walk

variable (body : ByteString)

def number (w : Nat) : Walk Nat := fun p =>
  if body.length < p + w then .error .refused
  else if p < 0 then .error (.stuck (.position p))
  else .ok (field body p.toNat w, p + w)

def int16 : Walk Int16 := do return Int16.ofNat (← number body 2)

def int32 : Walk Int32 := do return Int32.ofNat (← number body 4)

def uvarint : Walk Nat := fun p =>
  if p < 0 then .error (.stuck (.position p))
  else
    match readUvarint (body.drop p.toNat) with
    | none => .error .refused
    | some (v, n) => .ok (v, p + n)

def bytes (n : Nat) : Walk ByteString := fun p =>
  if 2 ^ 63 ≤ p + n then .error (.stuck (.nameEnd p n))
  else if body.length < p + n then .error .refused
  else .ok ((body.drop p.toNat).take n, p + n)

def name (flexible : Bool) : Walk ByteString :=
  if flexible then do
    let raw ← uvarint body
    if raw = 0 then return [] else bytes body (raw - 1)
  else do
    let n ← int16 body
    if n < 0 then return [] else bytes body n.toInt.toNat

def array {α : Type} (flexible : Bool) (item : Walk α) : Walk (Counted α) :=
  if flexible then do
    let raw ← uvarint body
    if narrowedLength raw < 0 then throw (.stuck (.arrayLength raw))
    else
      let items ← rounds (fun _ => item) 0 (narrowedLength raw).toInt.toNat
      return ⟨raw - 1, items⟩
  else do
    let n ← int32 body
    let items ← rounds (fun _ => item) 0 n.toInt.toNat
    return ⟨n.toInt.toNat, items⟩

/-- The payload of a tagged field is skipped by an `int`. -/
def skip (length : Nat) : Walk Unit := fun p =>
  if body.length < wrap64 (p + length) then .error .refused
  else .ok ((), wrap64 (p + length))

def skipTags : Nat → Walk Unit
  | 0 => pure ()
  | n + 1 => do
      let _tag ← uvarint body
      let length ← uvarint body
      skip body length
      skipTags n

def tags (flexible : Bool) : Walk Unit :=
  if flexible then do
    let numFields ← uvarint body
    skipTags body numFields
  else pure ()

def partition (flexible : Bool) : Walk OffsetsForLeaderEpochRequestPartition := do
  let index ← int32 body
  let currentLeaderEpoch ← int32 body
  let leaderEpoch ← int32 body
  tags body flexible
  return ⟨index, currentLeaderEpoch, leaderEpoch⟩

/-- A topic with its name and its partitions as they are in the body. -/
abbrev WalkedTopic := ByteString × Counted OffsetsForLeaderEpochRequestPartition

def topic (flexible : Bool) : Walk WalkedTopic := do
  let name ← name body flexible
  let partitions ← array body flexible (partition body flexible)
  tags body flexible
  return (name, partitions)

/-- A request as it is in the body. -/
abbrev WalkedRequest := Int32 × Counted WalkedTopic

def request (apiVersion : Int16) : Walk WalkedRequest := do
  let flexible := decide (4 ≤ apiVersion)
  let replicaID ← (if 3 ≤ apiVersion then int32 body else pure (-2) : Walk Int32)
  let topics ← array body flexible (topic body flexible)
  tags body flexible
  return (replicaID, topics)

end Walk

open Walk (WalkedTopic WalkedRequest)

def plainTopic (t : WalkedTopic) :
    OffsetsForLeaderEpochTopic OffsetsForLeaderEpochRequestPartition := ⟨t.1, t.2.items⟩

def plainRequest (r : WalkedRequest) : OffsetsForLeaderEpochRequest :=
  ⟨r.1, r.2.items.map plainTopic⟩

def Counted.Exact {α : Type} (c : Counted α) : Prop := c.items.length = c.encoded

instance {α : Type} (c : Counted α) : Decidable c.Exact := Nat.decEq _ _

/-- Every array has the length the body has for it. -/
def ArraysExact (r : WalkedRequest) : Prop := r.2.Exact ∧ ∀ t ∈ r.2.items, t.2.Exact

instance (r : WalkedRequest) : Decidable (ArraysExact r) := instDecidableAnd

/-- Decoding returns, an error or a request, and every array of a request has the
length that is encoded in the body. -/
def EpochRequestSafe (body : ByteString) (apiVersion : Int16) : Prop :=
  ∃ result d, decodeOffsetsForLeaderEpochRequest body apiVersion = .ok (result, d) ∧
    ∀ req, result = .ok req →
      ∃ r p, Walk.request body apiVersion 0 = .ok (r, p) ∧ plainRequest r = req ∧ ArraysExact r

/-- The lengths of a body in a flexible version: none leaves the walk without a way on,
and no array length changes when it is narrowed, unless the walk ends before the
request does. -/
def LengthsHold (body : ByteString) (apiVersion : Int16) : Prop :=
  match Walk.request body apiVersion 0 with
  | .ok (r, _) => ArraysExact r
  | .error .refused => True
  | .error (.stuck _) => False

/-! ## The decoder takes the walk -/

namespace Decoder

/-- How a decoder stands at a position of a body, which may be before its start. -/
def drifting (body : ByteString) : Sticky Decoder Int where
  stands d p := d.buf = body ∧ d.err = none ∧ d.pos = p ∧ -2 ^ 63 ≤ p ∧ p ≤ body.length
  failed d := d.buf = body ∧ d.err ≠ none

section Steps

variable {body : ByteString} {α β : Type} {d : Decoder} {p : Int}

theorem wrap64_of_range {z : Int} (hlo : -2 ^ 63 ≤ z) (hhi : z < 2 ^ 63) : wrap64 z = z := by
  unfold wrap64
  omega

theorem wrap64_range (z : Int) : -2 ^ 63 ≤ wrap64 z ∧ wrap64 z < 2 ^ 63 := by
  unfold wrap64
  omega

theorem at_of_stands (hbody : HasRoom body) (hs : (drifting body).stands d p) (hp : 0 ≤ p) :
    d.At p.toNat := by
  obtain ⟨hbuf, herr, hpos, -, hle⟩ := hs
  rw [← hbuf] at hbody hle
  unfold HasRoom at hbody
  exact ⟨herr, by rw [hpos, Int.toNat_of_nonneg hp], by omega, by omega⟩

theorem stands_moveTo_int {q : Nat} (hs : (drifting body).stands d p) (hq : q ≤ body.length) :
    (drifting body).stands (d.moveTo q) q :=
  ⟨hs.1, hs.2.1, rfl, by omega, by omega⟩

/-- Before the start of the body there is nothing to slice. -/
theorem sliceFrom_negative (hs : (drifting body).stands d p) (hp : p < 0) :
    sliceFrom d = .error .sliceOutOfRange := by
  rw [sliceFrom, hs.2.2.1, if_neg (by omega)]

/-- What `require` answers at any position, for any length that is an `int`. -/
theorem require_stands (hs : (drifting body).stands d p) (n : Int) :
    require n d = if body.length < wrap64 (p + n)
      then .ok (false, d.fail (.shortBuffer n p body.length)) else .ok (true, d) := by
  obtain ⟨rfl, herr, rfl, -, -⟩ := hs
  rw [require, if_neg (not_not.mpr herr)]
  rfl

theorem failed_fail (hs : (drifting body).stands d p) (e : DecodeError) :
    (drifting body).failed (d.fail e) := ⟨hs.1, Option.some_ne_none e⟩

theorem walks_number (hbody : HasRoom body) {w : Nat} (hw : w ≤ 8) :
    Follows (drifting body) (uint w) (Walk.number body w) where
  sticky d hs := ⟨0, d, uint_failed hs.2 w, hs⟩
  agree d p hs := by
    have hroom : body.length + 2 ^ 31 ≤ 2 ^ 63 := hbody
    have hlo := hs.2.2.2.1
    have hhi := hs.2.2.2.2
    have hwrap : wrap64 (p + w) = p + w := wrap64_of_range (by omega) (by omega)
    have hreq := require_stands hs w
    rw [hwrap] at hreq
    unfold Walk.number
    by_cases hshort : (body.length : Int) < p + w
    · rw [if_pos hshort] at hreq ⊢
      have hrun : uint w d = .ok (0, d.fail (.shortBuffer w p body.length)) := by
        unfold uint
        rw [bind_ok hreq]
        rfl
      rw [hrun]
      exact failed_fail hs _
    · rw [if_neg hshort] at hreq ⊢
      by_cases hneg : p < 0
      · have hrun : uint w d = .error .sliceOutOfRange := by
          unfold uint
          rw [bind_ok hreq]
          exact bind_error (sliceFrom_negative hs hneg)
        rw [if_pos hneg, hrun]
        trivial
      · have hat := at_of_stands hbody hs (by omega)
        have hle : p.toNat + w ≤ body.length := by omega
        have hrun := hat.uint_ok (w := w) (by rw [hs.1]; exact hle)
        rw [if_neg hneg, hrun, hs.1]
        refine ⟨rfl, ?_⟩
        have hmoved := stands_moveTo_int hs hle
        rwa [show ((p.toNat + w : Nat) : Int) = p + w by omega] at hmoved

theorem walks_int16 (hbody : HasRoom body) : Follows (drifting body) int16 (Walk.int16 body) :=
  (walks_number hbody (by decide)).return

theorem walks_int32 (hbody : HasRoom body) : Follows (drifting body) int32 (Walk.int32 body) :=
  (walks_number hbody (by decide)).return

theorem walks_uvarint (hbody : HasRoom body) :
    Follows (drifting body) uvarint (Walk.uvarint body) where
  sticky d hs := ⟨0, d, uvarint_failed hs.2, hs⟩
  agree d p hs := by
    unfold Walk.uvarint
    by_cases hneg : p < 0
    · have hget : (get : Decode Decoder) d = .ok (d, d) := rfl
      have hrun : uvarint d = .error .sliceOutOfRange := by
        unfold uvarint
        rw [bind_ok hget, if_neg (not_not.mpr hs.2.1)]
        exact bind_error (sliceFrom_negative hs hneg)
      rw [if_pos hneg, hrun]
      trivial
    · have hat := at_of_stands hbody hs (by omega)
      rw [if_neg hneg]
      rcases hread : readUvarint (body.drop p.toNat) with _ | ⟨v, n⟩
      · rw [hat.uvarint_none (by rw [hs.1]; exact hread)]
        exact failed_fail hs _
      · obtain ⟨hrun, -, hle, -⟩ := hat.uvarint_some (by rw [hs.1]; exact hread)
        rw [hs.1] at hle
        rw [hrun]
        refine ⟨rfl, ?_⟩
        have hmoved := stands_moveTo_int hs hle
        rwa [show ((p.toNat + n : Nat) : Int) = p + n by omega] at hmoved

/-- A number that is read is a 64-bit one and leaves a position in the body; a failed
read is zero. -/
theorem returns_uvarint (hbody : HasRoom body) :
    Returns (drifting body) uvarint (Walk.uvarint body) (· = 0) fun v p => v < 2 ^ 64 ∧ 0 ≤ p where
  refused d p v d' hs hread hrun := by
    unfold Walk.uvarint at hread
    split at hread
    next => cases hread
    next hneg =>
      split at hread
      next hnone =>
        have hat := at_of_stands hbody hs (by omega)
        rw [hat.uvarint_none (by rw [hs.1]; exact hnone)] at hrun
        cases hrun
        rfl
      next => cases hread
  failed d v d' hs hrun := by
    rw [uvarint_failed hs.2] at hrun
    cases hrun
    rfl
  read d p v q hs hread := by
    unfold Walk.uvarint at hread
    split at hread
    next => cases hread
    next hneg =>
      split at hread
      next => cases hread
      next v' n hsome =>
        cases hread
        exact ⟨(readUvarint_some hsome).2.2, by omega⟩

/-! ## Names -/

/-- So many bytes from a position in the body, for a length that is an `int` of `n`. A
reader answers `z` if there are not so many. -/
theorem agree_bytes_map (hbody : HasRoom body) (hs : (drifting body).stands d p) (hp : 0 ≤ p)
    {n : Nat} (hn : n < 2 ^ 64) {length : Int} (hlength : length = wrap64 n) (z : α)
    (f : ByteString → α) :
    Agree (drifting body) ((do
      if !(← require length) then return z
      let s ← slice length
      advance length
      return f s : Decode α) d) ((Walk.bytes body n >>= fun s => pure (f s)) p) := by
  have hroom : body.length + 2 ^ 31 ≤ 2 ^ 63 := hbody
  have hhi := hs.2.2.2.2
  have hreq := require_stands hs length
  by_cases hbeyond : 2 ^ 63 ≤ p + n
  · -- the end wraps to a position before the start of the name
    have hend : wrap64 (p + length) < p := by
      rw [hlength]
      unfold wrap64
      omega
    rw [if_neg (by omega)] at hreq
    have hslice : slice length d = .error .sliceOutOfRange := by
      rw [slice, hs.2.2.1, if_neg (by omega)]
    have hwalk : Walk.bytes body n p = .error (.stuck (.nameEnd p n)) := if_pos hbeyond
    rw [bind_error hwalk, bind_ok hreq]
    simp only [Bool.not_true, Bool.false_eq_true, if_false]
    rw [bind_error hslice]
    trivial
  · have hint : length = n := by
      rw [hlength]
      exact wrap64_of_range (by omega) (by omega)
    subst hint
    have hwrap : wrap64 (p + (n : Int)) = p + n := wrap64_of_range (by omega) (by omega)
    rw [hwrap] at hreq
    by_cases hshort : (body.length : Int) < p + n
    · have hwalk : Walk.bytes body n p = .error .refused := by
        rw [Walk.bytes, if_neg hbeyond, if_pos hshort]
      rw [if_pos hshort] at hreq
      rw [bind_error hwalk, bind_ok hreq]
      exact failed_fail hs _
    · have hat := at_of_stands hbody hs hp
      have hle : p.toNat + n ≤ body.length := by omega
      have hle' : p.toNat + n ≤ d.buf.length := by
        rw [hs.1]
        exact hle
      have hwalk : Walk.bytes body n p = .ok ((body.drop p.toNat).take n, p + n) := by
        rw [Walk.bytes, if_neg hbeyond, if_neg hshort]
      rw [if_neg hshort] at hreq
      rw [bind_ok hwalk, bind_ok hreq]
      simp only [Bool.not_true, Bool.false_eq_true, if_false]
      rw [bind_ok (hat.slice hle'), bind_ok (hat.advance (by omega)), hs.1]
      refine ⟨rfl, ?_⟩
      have hmoved := stands_moveTo_int hs hle
      rwa [show ((p.toNat + n : Nat) : Int) = p + n by omega] at hmoved

theorem agree_bytes (hbody : HasRoom body) (hs : (drifting body).stands d p) (hp : 0 ≤ p)
    {n : Nat} (hn : n < 2 ^ 64) {length : Int} (hlength : length = wrap64 n) :
    Agree (drifting body) ((do
      if !(← require length) then return []
      let s ← slice length
      advance length
      return s : Decode ByteString) d) (Walk.bytes body n p) := by
  have hagree := agree_bytes_map hbody hs hp hn hlength [] id
  simp only [id_eq, bind_pure] at hagree ⊢
  exact hagree

theorem wrap64_wrap64_sub_one {raw : Nat} (h : raw ≠ 0) :
    wrap64 (wrap64 raw - 1) = wrap64 ((raw - 1 : Nat) : Int) := by
  unfold wrap64
  omega

theorem walks_compactString (hbody : HasRoom body) :
    Follows (drifting body) compactString (Walk.name body true) := by
  have hget : ∀ d : Decoder, (get : Decode Decoder) d = .ok (d, d) := fun _ => rfl
  refine (walks_uvarint hbody).bind_of (returns_uvarint hbody) ?_ ?_
  · rintro raw d p ⟨hraw, hp⟩ hs
    rw [bind_ok (hget d), if_neg (not_not.mpr hs.2.1)]
    by_cases hzero : raw = 0
    · rw [if_pos hzero, if_pos hzero]
      exact ⟨rfl, hs⟩
    · rw [if_neg hzero, if_neg hzero]
      exact agree_bytes hbody hs hp (by omega) (wrap64_wrap64_sub_one hzero)
  · rintro raw - d hs
    refine ⟨[], d, ?_, hs⟩
    rw [bind_ok (hget d), if_pos hs.2]
    rfl

/-- A number of fixed width leaves a position in the body. -/
theorem returns_int16 :
    Returns (drifting body) int16 (Walk.int16 body) (fun _ => True) fun _ p => 0 ≤ p where
  refused _ _ _ _ _ _ _ := trivial
  failed _ _ _ _ _ := trivial
  read d p v q hs hread := by
    rcases hnumber : Walk.number body 2 p with stop | ⟨n, q'⟩
    · rw [Walk.int16, bind_error hnumber] at hread
      cases hread
    · rw [Walk.int16, bind_ok hnumber] at hread
      cases hread
      unfold Walk.number at hnumber
      split at hnumber
      next => cases hnumber
      next =>
        split at hnumber
        next => cases hnumber
        next =>
          cases hnumber
          omega

theorem walks_string (hbody : HasRoom body) :
    Follows (drifting body) string (Walk.name body false) := by
  have hget : ∀ d : Decoder, (get : Decode Decoder) d = .ok (d, d) := fun _ => rfl
  refine (walks_int16 hbody).bind_of returns_int16 ?_ ?_
  · intro n d p hp hs
    have hlt := n.toInt_lt
    by_cases hneg : n < 0
    · have hint : n.toInt < 0 := Int16.lt_iff_toInt_lt.mp hneg
      rw [bind_ok (hget d), if_pos (Or.inr hint), if_pos hneg]
      exact ⟨rfl, hs⟩
    · have hint : ¬ n.toInt < 0 := fun h => hneg (Int16.lt_iff_toInt_lt.mpr h)
      have hlength : n.toInt = wrap64 (n.toInt.toNat : Int) := by
        unfold wrap64
        omega
      rw [bind_ok (hget d), if_neg (not_or.mpr ⟨not_not.mpr hs.2.1, hint⟩), if_neg hneg]
      exact agree_bytes hbody hs hp (by omega) hlength
  · rintro n - d hs
    refine ⟨[], d, ?_, hs⟩
    rw [bind_ok (hget d), if_pos (Or.inl hs.2)]
    rfl

theorem walks_name (hbody : HasRoom body) (flexible : Bool) :
    Follows (drifting body) (decodeOFLEString flexible) (Walk.name body flexible) := by
  cases flexible with
  | true => exact walks_compactString hbody
  | false => exact walks_string hbody

/-! ## Tagged fields -/

/-- The position is moved by the payload, wherever that leads. -/
theorem walks_skip {k : Decode Unit} {l : Walk Unit} (hk : Follows (drifting body) k l)
    (length : Nat) :
    Follows (drifting body) (do
      if !(← require (wrap64 length)) then return ()
      advance (wrap64 length)
      k) (do
      Walk.skip body length
      l) where
  sticky d hs := by
    refine ⟨(), d, ?_, hs⟩
    rw [bind_ok (require_failed hs.2 _)]
    rfl
  agree d p hs := by
    have hreq := require_stands hs (wrap64 length)
    have hsame : wrap64 (p + wrap64 length) = wrap64 (p + length) := by
      unfold wrap64
      omega
    rw [hsame] at hreq
    by_cases hshort : (body.length : Int) < wrap64 (p + length)
    · have hskip : Walk.skip body length p = .error .refused := if_pos hshort
      rw [if_pos hshort] at hreq
      rw [bind_ok hreq, bind_error hskip]
      exact failed_fail hs _
    · have hskip : Walk.skip body length p = .ok ((), wrap64 (p + length)) := if_neg hshort
      rw [if_neg hshort] at hreq
      rw [bind_ok hreq, bind_ok hskip]
      have hadvance : advance (wrap64 length) d = .ok ((), { d with
          pos := wrap64 (p + length), trail := wrap64 (p + length) :: d.trail }) := by
        rw [advance, hs.2.2.1, hsame]
      simp only [Bool.not_true, Bool.false_eq_true, if_false]
      rw [bind_ok hadvance]
      refine hk.agree _ _ ⟨hs.1, hs.2.1, rfl, (wrap64_range _).1, ?_⟩
      omega

theorem walks_discardLoop (hbody : HasRoom body) (n : Nat) :
    Follows (drifting body) (discardLoop n) (Walk.skipTags body n) := by
  induction n with
  | zero => exact follows_pure ()
  | succ n ih =>
    have hround : Follows (drifting body)
        (modify fun d => { d with rounds := d.rounds + 1 } : Decode Unit)
        (pure () : Walk Unit) :=
      ⟨fun _ _ hs => ⟨rfl, hs⟩, fun d hs => ⟨(), { d with rounds := d.rounds + 1 }, rfl, hs⟩⟩
    have hfields := (walks_uvarint hbody).bind fun _ => (walks_uvarint hbody).bind fun length =>
      walks_skip ih length
    have hall := hround.bind fun _ => hfields
    rwa [pure_bind] at hall

theorem walks_tags (hbody : HasRoom body) (flexible : Bool) :
    Follows (drifting body) (discardOFLETags flexible) (Walk.tags body flexible) := by
  cases flexible with
  | false => exact follows_pure ()
  | true =>
    have hloop := (walks_uvarint hbody).bind fun n => walks_discardLoop hbody n
    exact hloop.unless () (fun _ _ hs => not_not.mpr hs.2.1) fun _ hs => hs.2

/-! ## Arrays -/

theorem decodeOFLEArray_flexible (read : Decode α) :
    decodeOFLEArray read true = uvarint >>= fun raw =>
      if narrowedLength raw < 0 then throw .makeNegativeLength
      else Lib.Cursors.rounds (fun _ => read) 0 (narrowedLength raw).toInt.toNat := by
  unfold decodeOFLEArray decodeOFLEArrayLen compactArrayLen
  simp only [if_true, bind_assoc]
  congr 1
  funext raw
  by_cases hzero : raw = 0
  · simp only [hzero, if_true, pure_bind, narrowedLength]
    rfl
  · simp only [hzero, if_false, pure_bind, narrowedLength]
    rfl

/-- The lengths of legacy arrays are never negative when they get to `make`. -/
theorem decodeOFLEArray_legacy (read : Decode α) :
    decodeOFLEArray read false = int32 >>= fun n =>
      Lib.Cursors.rounds (fun _ => read) 0 n.toInt.toNat := by
  unfold decodeOFLEArray decodeOFLEArrayLen arrayLen
  simp only [Bool.false_eq_true, if_false, bind_assoc, pure_bind]
  congr 1
  funext n
  by_cases hneg : n < 0
  · have hint : n.toInt.toNat = 0 := by
      have hlt := Int32.lt_iff_toInt_lt.mp hneg
      rw [Int32.toInt_zero] at hlt
      omega
    have hzero : ¬ (0 : Int32) < 0 := by decide
    simp only [if_pos hneg, if_neg hzero, hint]
    rfl
  · simp only [if_neg hneg]

variable {f : Decode α} {item : Walk β} {g : β → α}

theorem walks_rounds (h : Follows (drifting body) f (item >>= fun b => pure (g b))) (n : Nat) :
    Follows (drifting body) (Lib.Cursors.rounds (fun _ => f) 0 n)
      (Lib.Cursors.rounds (fun _ => item) 0 n >>= fun items => pure (items.map g)) := by
  have hrounds := Follows.rounds (fun _ => h) 0 n
  rwa [Lib.Cursors.rounds_bind_pure] at hrounds

theorem walks_array (hbody : HasRoom body) (flexible : Bool)
    (h : Follows (drifting body) f (item >>= fun b => pure (g b))) :
    Follows (drifting body) (decodeOFLEArray f flexible)
      (Walk.array body flexible item >>= fun c => pure (c.items.map g)) := by
  cases flexible with
  | true =>
    rw [decodeOFLEArray_flexible, Walk.array, if_pos rfl, bind_assoc]
    refine (walks_uvarint hbody).bind_of (returns_uvarint hbody) ?_ ?_
    · rintro raw d p - hs
      by_cases hneg : narrowedLength raw < 0
      · rw [if_pos hneg, if_pos hneg]
        trivial
      · rw [if_neg hneg, if_neg hneg, bind_assoc]
        simp only [pure_bind]
        exact (walks_rounds h _).agree d p hs
    · rintro raw rfl
      have hzero : ¬ narrowedLength 0 < 0 := by decide
      rw [if_neg hzero]
      exact (walks_rounds h _).sticky
  | false =>
    rw [decodeOFLEArray_legacy, Walk.array, if_neg Bool.false_ne_true, bind_assoc]
    refine (walks_int32 hbody).bind fun n => ?_
    rw [bind_assoc]
    simp only [pure_bind]
    exact walks_rounds h _

/-! ## The request -/

theorem walks_partition (hbody : HasRoom body) (flexible : Bool) :
    Follows (drifting body) (decodeOFLEPartition readRequestPartition flexible)
      (Walk.partition body flexible) := by
  unfold decodeOFLEPartition readRequestPartition Walk.partition
  simp only [bind_assoc, pure_bind]
  refine (walks_int32 hbody).bind fun _ => (walks_int32 hbody).bind fun _ => ?_
  exact (walks_int32 hbody).bind fun _ => (walks_tags hbody flexible).return

theorem walks_topic (hbody : HasRoom body) (flexible : Bool) :
    Follows (drifting body) (decodeOFLETopic readRequestPartition flexible)
      (Walk.topic body flexible >>= fun t => pure (plainTopic t)) := by
  have hpartition : Follows (drifting body) (decodeOFLEPartition readRequestPartition flexible)
      (Walk.partition body flexible >>= fun b => pure (id b)) := by
    simp only [id_eq, bind_pure]
    exact walks_partition hbody flexible
  have harray := walks_array hbody flexible hpartition
  simp only [List.map_id] at harray
  have hall := (walks_name hbody flexible).bind fun name => harray.bind fun ps =>
    (walks_tags hbody flexible).return (f := fun _ =>
      (⟨name, ps⟩ : OffsetsForLeaderEpochTopic OffsetsForLeaderEpochRequestPartition))
  unfold Walk.topic
  simp only [bind_assoc, pure_bind] at hall ⊢
  exact hall

theorem walks_request (hbody : HasRoom body) (apiVersion : Int16) :
    Follows (drifting body) (decodeOFLERequestBody apiVersion)
      (Walk.request body apiVersion >>= fun r => pure (plainRequest r)) := by
  have hreplica : Follows (drifting body) (readSince 3 apiVersion (-2) int32)
      (if 3 ≤ apiVersion then Walk.int32 body else pure (-2) : Walk Int32) :=
    Follows.ite (walks_int32 hbody) (follows_pure (-2))
  have htopics := walks_array hbody (decide (4 ≤ apiVersion))
    (walks_topic hbody (decide (4 ≤ apiVersion)))
  have hall := hreplica.bind fun replicaID => htopics.bind fun topics =>
    (walks_tags hbody (decide (4 ≤ apiVersion))).return (f := fun _ =>
      (⟨replicaID, topics⟩ : OffsetsForLeaderEpochRequest))
  unfold Walk.request
  simp only [bind_assoc, pure_bind] at hall ⊢
  exact hall

end Steps

end Decoder

/-! ## What the decoder returns -/

open Decoder in
/-- The decoder panics where the walk is stuck, fails where it refuses and returns the
request it has read. -/
theorem decode_follows_walk {body : ByteString} (hbody : HasRoom body) (apiVersion : Int16) :
    match Walk.request body apiVersion 0 with
    | .ok (r, _) => ∃ d, decodeOffsetsForLeaderEpochRequest body apiVersion =
        .ok (.ok (plainRequest r), d)
    | .error .refused => ∃ e d, decodeOffsetsForLeaderEpochRequest body apiVersion =
        .ok (.error e, d)
    | .error (.stuck _) => ∃ panic, decodeOffsetsForLeaderEpochRequest body apiVersion =
        .error panic := by
  have hstart : (drifting body).stands (newDecoder body) 0 :=
    ⟨rfl, rfl, rfl, by decide, Int.natCast_nonneg _⟩
  have hagree := (walks_request hbody apiVersion).agree _ _ hstart
  unfold decodeOffsetsForLeaderEpochRequest decodeWhole
  rcases hwalk : Walk.request body apiVersion 0 with stop | ⟨r, p⟩
  · rw [bind_error hwalk] at hagree
    rcases hrun : decodeOFLERequestBody apiVersion (newDecoder body) with panic | ⟨v, d⟩
    · rw [hrun] at hagree
      cases stop with
      | refused => exact hagree.elim
      | stuck why => exact ⟨panic, bind_error hrun⟩
    · rw [hrun] at hagree
      cases stop with
      | stuck why => exact hagree.elim
      | refused =>
        obtain ⟨e, he⟩ := Option.ne_none_iff_exists'.mp hagree.2
        have herror : Decoder.error d = .ok (some e, d) := by
          rw [← he]
          rfl
        refine ⟨e, d, ?_⟩
        rw [bind_ok hrun, bind_ok herror]
        rfl
  · rw [bind_ok hwalk] at hagree
    rcases hrun : decodeOFLERequestBody apiVersion (newDecoder body) with panic | ⟨v, d⟩
    · rw [hrun] at hagree
      exact hagree.elim
    · rw [hrun] at hagree
      obtain ⟨rfl, hs⟩ := hagree
      have herror : Decoder.error d = .ok (none, d) := by
        rw [← hs.2.1]
        rfl
      refine ⟨d, ?_⟩
      rw [bind_ok hrun, bind_ok herror]
      rfl

/-! ## Legacy lengths -/

namespace Walk

variable {body : ByteString}

/-- A position in the body. -/
def Inside (body : ByteString) (p : Int) : Prop := 0 ≤ p ∧ p ≤ body.length

theorem sure_number (w : Nat) : Sure (Inside body) (fun _ => True) (number body w) := by
  intro p hp
  unfold Inside at hp
  unfold number
  by_cases hshort : (body.length : Int) < p + w
  · rw [if_pos hshort]
    trivial
  · rw [if_neg hshort, if_neg (by omega)]
    exact ⟨trivial, by omega, by omega⟩

theorem sure_int16 : Sure (Inside body) (fun _ => True) (int16 body) :=
  (sure_number 2).return fun _ _ => trivial

theorem sure_int32 : Sure (Inside body) (fun _ => True) (int32 body) :=
  (sure_number 4).return fun _ _ => trivial

theorem sure_bytes (hbody : Decoder.HasRoom body) {n : Nat} (hn : n < 2 ^ 31) :
    Sure (Inside body) (fun _ => True) (bytes body n) := by
  have hroom : body.length + 2 ^ 31 ≤ 2 ^ 63 := hbody
  intro p hp
  unfold Inside at hp
  unfold bytes
  rw [if_neg (by omega)]
  by_cases hshort : (body.length : Int) < p + n
  · rw [if_pos hshort]
    trivial
  · rw [if_neg hshort]
    exact ⟨trivial, by omega, by omega⟩

theorem sure_name (hbody : Decoder.HasRoom body) :
    Sure (Inside body) (fun _ => True) (name body false) := by
  refine sure_int16.bind fun n _ => ?_
  by_cases hneg : n < 0
  · rw [if_pos hneg]
    exact sure_pure trivial
  · rw [if_neg hneg]
    have hlt := n.toInt_lt
    exact sure_bytes hbody (by omega)

theorem sure_array {α : Type} {Q : α → Prop} {item : Walk α} (h : Sure (Inside body) Q item) :
    Sure (Inside body) (fun c => c.Exact ∧ ∀ a ∈ c.items, Q a) (array body false item) := by
  refine sure_int32.bind fun n _ => ?_
  exact (Sure.rounds (fun _ => h) 0 n.toInt.toNat).return fun items hitems => hitems

theorem sure_request (hbody : Decoder.HasRoom body) {apiVersion : Int16} (hv : apiVersion < 4) :
    Sure (Inside body) ArraysExact (request body apiVersion) := by
  have hlegacy : decide (4 ≤ apiVersion) = false := decide_eq_false (Int16.not_le.mpr hv)
  have htags : Sure (Inside body) (fun _ => True) (tags body false) := sure_pure trivial
  have hpartition : Sure (Inside body) (fun _ => True) (partition body false) :=
    sure_int32.bind fun _ _ => sure_int32.bind fun _ _ => sure_int32.bind fun _ _ =>
      htags.return fun _ _ => trivial
  have htopic : Sure (Inside body) (fun t : WalkedTopic => t.2.Exact) (topic body false) :=
    (sure_name hbody).bind fun _ _ => (sure_array hpartition).bind fun _ hps =>
      htags.return fun _ _ => hps.1
  have hreplica : Sure (Inside body) (fun _ => True)
      (if 3 ≤ apiVersion then int32 body else pure (-2) : Walk Int32) := by
    split
    · exact sure_int32
    · exact sure_pure trivial
  unfold request
  rw [hlegacy]
  refine hreplica.bind fun _ _ => (sure_array htopic).bind fun _ hts => ?_
  exact htags.return fun _ _ => hts

end Walk

theorem lengthsHold_of_legacy {body : ByteString} (hbody : Decoder.HasRoom body)
    {apiVersion : Int16} (hv : apiVersion < 4) : LengthsHold body apiVersion := by
  have hsure := Walk.sure_request hbody hv 0 ⟨Int.le_refl 0, Int.natCast_nonneg _⟩
  unfold LengthsHold
  rcases hwalk : Walk.request body apiVersion 0 with stop | ⟨r, p⟩
  · rw [hwalk] at hsure
    cases stop with
    | refused => trivial
    | stuck why => exact hsure
  · rw [hwalk] at hsure
    exact hsure.1

/-! ## Safety -/

theorem epochRequestSafe_iff_lengthsHold {body : ByteString} (hbody : Decoder.HasRoom body)
    (apiVersion : Int16) : EpochRequestSafe body apiVersion ↔ LengthsHold body apiVersion := by
  have hdecode := decode_follows_walk hbody apiVersion
  unfold EpochRequestSafe LengthsHold
  rcases hwalk : Walk.request body apiVersion 0 with stop | ⟨r, p⟩
  · rw [hwalk] at hdecode
    cases stop with
    | refused =>
      obtain ⟨e, d, hrun⟩ := hdecode
      refine ⟨fun _ => trivial, fun _ => ⟨_, d, hrun, ?_⟩⟩
      rintro req ⟨⟩
    | stuck why =>
      obtain ⟨panic, hrun⟩ := hdecode
      refine ⟨?_, False.elim⟩
      rintro ⟨result, d, hreturn, -⟩
      rw [hrun] at hreturn
      cases hreturn
  · rw [hwalk] at hdecode
    obtain ⟨d, hrun⟩ := hdecode
    constructor
    · rintro ⟨result, d', hreturn, hlengths⟩
      rw [hrun] at hreturn
      cases hreturn
      obtain ⟨r', p', hsame, -, hexact⟩ := hlengths _ rfl
      cases hsame
      exact hexact
    · intro hexact
      refine ⟨_, d, hrun, ?_⟩
      rintro req ⟨⟩
      exact ⟨r, p, rfl, rfl, hexact⟩

/-- Decoding a request is safe in the legacy versions, and in version 4 exactly when the
lengths of the body hold. No Go slice leaves an `int` without room for 32 bits. -/
theorem epochRequestSafe_iff (body : ByteString) (apiVersion : Int16)
    (hbody : body.length + 2 ^ 31 ≤ 2 ^ 63) :
    EpochRequestSafe body apiVersion ↔ apiVersion < 4 ∨ LengthsHold body apiVersion := by
  rw [epochRequestSafe_iff_lengthsHold hbody]
  constructor
  · exact Or.inr
  · rintro (hv | hlengths)
    · exact lengthsHold_of_legacy hbody hv
    · exact hlengths

/-- A flexible request for one topic without partitions, with a tagged field. -/
theorem epochRequestSafe_iff_flexible :
    EpochRequestSafe [0, 0, 0, 1, 2, 2, 97, 1, 0, 1, 5, 2, 9, 9] 4 :=
  (epochRequestSafe_iff _ 4 (by decide)).mpr (Or.inr (by
    show ArraysExact (1, ⟨1, [([97], ⟨0, []⟩)]⟩)
    decide))

/-- An array of `2^31` topics is one of negative length. -/
theorem negative_array_panics :
    decodeOffsetsForLeaderEpochRequest [0, 0, 0, 1, 129, 128, 128, 128, 8] 4 =
      .error .makeNegativeLength ∧
    ¬ EpochRequestSafe [0, 0, 0, 1, 129, 128, 128, 128, 8] 4 := by
  have hpanic : decodeOffsetsForLeaderEpochRequest [0, 0, 0, 1, 129, 128, 128, 128, 8] 4 =
      .error .makeNegativeLength := rfl
  refine ⟨hpanic, ?_⟩
  rintro ⟨result, d, hreturn, -⟩
  rw [hpanic] at hreturn
  cases hreturn

end MessageBroker.Protocol
