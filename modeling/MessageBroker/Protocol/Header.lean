import MessageBroker.Protocol.Decoder

/-!
# Request headers

`ParseRequestHeader` runs on every message of every client before anything else
looks at it. It reads three fixed fields, the client id and, in the flexible
header version, tagged fields whose lengths the sender chooses.
-/
namespace MessageBroker.Protocol

open Lib.Bytes Lib.Varint
open Lib.Cursors (bind_ok of_bind_ok)

def apiKeyProduce : Int16 := 0
def apiKeyFetch : Int16 := 1
def apiKeyMetadata : Int16 := 3
def apiKeyOffsetsForLeaderEpoch : Int16 := 23
def apiKeyApiVersions : Int16 := 18

/-- Version 2 is the flexible header, with tagged fields. -/
def requestHeaderVersion (apiKey apiVersion : Int16) : Int16 :=
  if apiKey = apiKeyApiVersions then if 3 ≤ apiVersion then 2 else 1
  else if apiKey = apiKeyProduce then if 9 ≤ apiVersion then 2 else 1
  else if apiKey = apiKeyFetch then if 12 ≤ apiVersion then 2 else 1
  else if apiKey = apiKeyMetadata then if 9 ≤ apiVersion then 2 else 1
  else if apiKey = apiKeyOffsetsForLeaderEpoch then if 4 ≤ apiVersion then 2 else 1
  else 1

theorem requestHeaderVersion_cases (apiKey apiVersion : Int16) :
    requestHeaderVersion apiKey apiVersion = 1 ∨ requestHeaderVersion apiKey apiVersion = 2 := by
  unfold requestHeaderVersion
  repeat' split
  all_goals simp

structure RequestHeader where
  apiKey : Int16
  apiVersion : Int16
  correlationID : Int32
  clientID : Option ByteString
  deriving DecidableEq

open Decoder in
/-- The result of `ParseRequestHeader`: the error, or the header and `msg[d.Offset():]`. -/
def headerAndBody (header : RequestHeader) :
    Decode (Except DecodeError (RequestHeader × ByteString)) := do
  match (← get).err with
  | some e => return .error e
  | none => return .ok (header, ← sliceFrom)

open Decoder in
/-- The end of `ParseRequestHeader`, after the client id. -/
def finishHeader (headerVersion : Int16) (header : RequestHeader) :
    Decode (Except DecodeError (RequestHeader × ByteString)) := do
  if 2 ≤ headerVersion then discardTaggedFields
  headerAndBody header

open Decoder in
/-- The fields of the header, before the tagged ones. -/
def readHeader : Decode RequestHeader := do
  let apiKey ← int16
  let apiVersion ← int16
  let correlationID ← int32
  -- every header version is at least 1, so the client id is always read
  let clientID ← if 1 ≤ requestHeaderVersion apiKey apiVersion then nullableString else pure none
  return ⟨apiKey, apiVersion, correlationID, clientID⟩

/-- `ParseRequestHeader`, with the decoder it leaves. -/
def parseRequestHeader (msg : ByteString) :
    Except Panic (Except DecodeError (RequestHeader × ByteString) × Decoder) :=
  (do
    let header ← readHeader
    finishHeader (requestHeaderVersion header.apiKey header.apiVersion) header :
    Decode (Except DecodeError (RequestHeader × ByteString))) (Decoder.newDecoder msg)

/-- Where the client id of a message ends: it starts with its length, negative for
a null string. -/
def clientIDEnd (msg : ByteString) : Nat :=
  if Int16.ofNat (field msg 8 2) < 0 then 10
  else 10 + (Int16.ofNat (field msg 8 2)).toInt.toNat

/-- Where the tagged fields of a message start: after the client id, in a flexible
header that has room for it. -/
def taggedStart (msg : ByteString) : Option Nat :=
  if requestHeaderVersion (Int16.ofNat (field msg 0 2)) (Int16.ofNat (field msg 2 2)) = 2 ∧
      clientIDEnd msg ≤ msg.length then some (clientIDEnd msg)
  else none

/-- Every tagged-field length of the message leaves the position after it in the
range of an `int`. -/
def LengthsFit (msg : ByteString) : Prop :=
  ∀ p numFields k, taggedStart msg = some p → readUvarint (msg.drop p) = some (numFields, k) →
    Decoder.FieldsFit msg numFields (p + k)

/-- What a server needs of `ParseRequestHeader`: it returns, an error or a header
with the rest of the message; the decoder's positions stay in the message and
never go back; and the tagged-field loop is bounded by the message. -/
def ParsesSafely (msg : ByteString) : Prop :=
  ∃ result d, parseRequestHeader msg = .ok (result, d) ∧
    (∀ header body, result = .ok (header, body) → body <:+ msg) ∧
    (∀ p ∈ d.trail, 0 ≤ p ∧ p ≤ msg.length) ∧ d.trail.Pairwise (· ≥ ·) ∧
    d.rounds ≤ msg.length

namespace Decoder

/-! ## The fields of the header -/

/-- The decoder has read a message up to `p`, or failed because it is shorter. -/
structure Upto (msg : ByteString) (d : Decoder) (p : Nat) : Prop where
  buf_eq : d.buf = msg
  tidy : d.Tidy
  rounds_eq : d.rounds = 0
  state : (p ≤ msg.length ∧ d.At p) ∨ (msg.length < p ∧ d.err ≠ none)

theorem upto_newDecoder {msg : ByteString} (h : msg.length < 2 ^ 63) :
    Upto msg (newDecoder msg) 0 :=
  ⟨rfl, tidy_newDecoder msg, rfl, .inl ⟨Nat.zero_le _, rfl, rfl, Nat.zero_le _, h⟩⟩

section Fields

variable {msg : ByteString} {d : Decoder} {p : Nat}

theorem Upto.failed (h : Upto msg d p) (he : d.err ≠ none) {q : Nat} (hpq : p ≤ q) :
    Upto msg d q := by
  refine ⟨h.buf_eq, h.tidy, h.rounds_eq, .inr ⟨?_, he⟩⟩
  rcases h.state with ⟨-, hat⟩ | ⟨hlt, -⟩
  · exact absurd hat.err_eq he
  · omega

theorem Upto.fail (h : Upto msg d p) {q : Nat} (hlt : msg.length < q)
    (e : DecodeError) : Upto msg (d.fail e) q :=
  ⟨h.buf_eq, h.tidy.fail e, h.rounds_eq, .inr ⟨hlt, Option.some_ne_none _⟩⟩

theorem Upto.moveTo (h : Upto msg d p) (hat : d.At p) {q : Nat} (hpq : p ≤ q)
    (hq : q ≤ msg.length) : Upto msg (d.moveTo q) q := by
  have hq' : q ≤ d.buf.length := by rw [h.buf_eq]; exact hq
  exact ⟨h.buf_eq, h.tidy.moveTo hat hpq hq', h.rounds_eq, .inl ⟨hq, hat.moveTo hq'⟩⟩

theorem Upto.uint (h : Upto msg d p) {w : Nat} (hp : p + w < 2 ^ 63) :
    ∃ v d', Decoder.uint w d = .ok (v, d') ∧ Upto msg d' (p + w) ∧
      (p + w ≤ msg.length → v = field msg p w) := by
  rcases h.state with ⟨hle, hat⟩ | ⟨hlt, he⟩
  · by_cases hin : p + w ≤ msg.length
    · refine ⟨_, _, hat.uint_ok (by rw [h.buf_eq]; exact hin),
        h.moveTo hat (Nat.le_add_right p w) hin, fun _ => by rw [h.buf_eq]⟩
    · have hshort : d.buf.length < p + w := by rw [h.buf_eq]; omega
      exact ⟨_, _, hat.uint_short hp hshort, h.fail (by omega) _, fun hle => absurd hle hin⟩
  · exact ⟨0, d, uint_failed he w, h.failed he (Nat.le_add_right p w),
      fun hle => by omega⟩

theorem Upto.int16 (h : Upto msg d p) (hp : p + 2 < 2 ^ 63) :
    ∃ v d', Decoder.int16 d = .ok (v, d') ∧ Upto msg d' (p + 2) ∧
      (p + 2 ≤ msg.length → v = Int16.ofNat (field msg p 2)) := by
  obtain ⟨v, d', heq, hup, hv⟩ := h.uint hp
  refine ⟨Int16.ofNat v, d', ?_, hup, fun hle => by rw [hv hle]⟩
  unfold Decoder.int16
  rw [bind_ok heq]
  rfl

theorem Upto.int32 (h : Upto msg d p) (hp : p + 4 < 2 ^ 63) :
    ∃ v d', Decoder.int32 d = .ok (v, d') ∧ Upto msg d' (p + 4) := by
  obtain ⟨v, d', heq, hup, -⟩ := h.uint hp
  refine ⟨Int32.ofNat v, d', ?_, hup⟩
  unfold Decoder.int32
  rw [bind_ok heq]
  rfl

theorem ten_le_clientIDEnd (msg : ByteString) : 10 ≤ clientIDEnd msg := by
  unfold clientIDEnd
  split <;> omega

/-- A null client id, one inside the message, or a failure. -/
theorem Upto.nullableString (h : Upto msg d 8) :
    ∃ s d', Decoder.nullableString d = .ok (s, d') ∧ Upto msg d' (clientIDEnd msg) := by
  have hget : ∀ d : Decoder, (get : Decode Decoder) d = .ok (d, d) := fun _ => rfl
  have hten := ten_le_clientIDEnd msg
  obtain ⟨n, d₁, heq, hup, hn⟩ := h.int16 (by decide)
  unfold Decoder.nullableString
  rw [bind_ok heq, bind_ok (hget _)]
  rcases hup.state with ⟨hle, hat⟩ | ⟨hlt, he⟩
  · rw [if_neg (by simp [hat.err_eq])]
    have hend : clientIDEnd msg = if n < 0 then 10 else 10 + n.toInt.toNat := by
      rw [clientIDEnd, hn hle]
    by_cases hneg : n < 0
    · rw [if_pos hneg] at hend ⊢
      exact ⟨none, d₁, rfl, hend ▸ hup⟩
    · rw [if_neg hneg] at hend ⊢
      have hlt := Int16.toInt_lt n
      have hnonneg : 0 ≤ n.toInt := by
        rw [Int16.lt_iff_toInt_lt] at hneg
        simpa using hneg
      obtain ⟨length, hlength⟩ := Int.eq_ofNat_of_zero_le hnonneg
      simp only [hlength, Int.toNat_natCast] at hend hlt ⊢
      by_cases hin : 10 + length ≤ msg.length
      · have hin' : 10 + length ≤ d₁.buf.length := by rw [hup.buf_eq]; exact hin
        rw [bind_ok (hat.require_ok hin'), if_neg (by decide), bind_ok (hat.slice hin'),
          bind_ok (hat.advance (by omega)), hend]
        exact ⟨_, _, rfl, hup.moveTo hat (Nat.le_add_right 10 length) hin⟩
      · have hshort : d₁.buf.length < 10 + length := by rw [hup.buf_eq]; omega
        rw [bind_ok (hat.require_short (by omega) hshort), hend]
        exact ⟨none, _, rfl, hup.fail (by omega) _⟩
  · rw [if_pos he]
    exact ⟨none, d₁, rfl, hup.failed he hten⟩

end Fields

/-- The fields are read up to the end of the client id, from the bytes where the
format has them. -/
theorem readHeader_upto {msg : ByteString} (h : msg.length < 2 ^ 63) :
    ∃ header d, readHeader (newDecoder msg) = .ok (header, d) ∧ Upto msg d (clientIDEnd msg) ∧
      (4 ≤ msg.length → header.apiKey = Int16.ofNat (field msg 0 2) ∧
        header.apiVersion = Int16.ofNat (field msg 2 2)) := by
  obtain ⟨apiKey, d₁, heq₁, hup₁, hkey⟩ := (upto_newDecoder h).int16 (by decide)
  obtain ⟨apiVersion, d₂, heq₂, hup₂, hversion⟩ := hup₁.int16 (by decide)
  obtain ⟨correlationID, d₃, heq₃, hup₃⟩ := hup₂.int32 (by decide)
  obtain ⟨clientID, d₄, heq₄, hup₄⟩ := hup₃.nullableString
  have hv : 1 ≤ requestHeaderVersion apiKey apiVersion := by
    rcases requestHeaderVersion_cases apiKey apiVersion with hv | hv <;> rw [hv] <;> decide
  refine ⟨⟨apiKey, apiVersion, correlationID, clientID⟩, d₄, ?_, hup₄, fun hle =>
    ⟨hkey (by omega), hversion (by omega)⟩⟩
  unfold readHeader
  rw [bind_ok heq₁, bind_ok heq₂, bind_ok heq₃]
  simp only [if_pos hv]
  rw [bind_ok heq₄]
  rfl

/-! ## The end of the parse -/

section Finish

variable {d : Decoder} {p : Nat} {headerVersion : Int16} {header : RequestHeader}

theorem headerAndBody_failed (header : RequestHeader) (he : d.err ≠ none) :
    ∃ e, headerAndBody header d = .ok (.error e, d) := by
  have hget : (get : Decode Decoder) d = .ok (d, d) := rfl
  obtain ⟨e, he⟩ := Option.ne_none_iff_exists'.mp he
  refine ⟨e, ?_⟩
  unfold headerAndBody
  rw [bind_ok hget, he]
  rfl

theorem headerAndBody_at (h : d.At p) :
    headerAndBody header d = .ok (.ok (header, d.buf.drop p), d) := by
  have hget : (get : Decode Decoder) d = .ok (d, d) := rfl
  unfold headerAndBody
  rw [bind_ok hget, h.err_eq]
  simp only
  rw [bind_ok h.sliceFrom]
  rfl

/-- Whatever happened before, the result is an error or a suffix of the message. -/
theorem headerAndBody_suffix (header : RequestHeader) (h : d.err = none → ∃ q, d.At q) :
    ∃ result, headerAndBody header d = .ok (result, d) ∧
      ∀ header' body, result = .ok (header', body) → body <:+ d.buf := by
  by_cases he : d.err = none
  · obtain ⟨q, hq⟩ := h he
    refine ⟨_, headerAndBody_at hq, fun header' body hr => ?_⟩
    cases hr
    exact List.drop_suffix q d.buf
  · obtain ⟨e, heq⟩ := headerAndBody_failed header he
    refine ⟨_, heq, fun header' body hr => ?_⟩
    cases hr

theorem growing_headerAndBody : Growing (headerAndBody header) := by
  refine Growing.bind (growing_of_same fun d a d' h => by cases h; exact ⟨rfl, rfl⟩) fun d => ?_
  split
  · exact growing_pure _
  · exact growing_sliceFrom.bind fun _ => growing_pure _

theorem finishHeader_failed (headerVersion : Int16) (header : RequestHeader) (he : d.err ≠ none) :
    ∃ e, finishHeader headerVersion header d = .ok (.error e, d) := by
  unfold finishHeader
  split
  · rw [bind_ok (discardTaggedFields_failed he)]
    exact headerAndBody_failed header he
  · exact headerAndBody_failed header he

theorem growing_finishHeader : Growing (finishHeader headerVersion header) := by
  have hdiscard : Growing discardTaggedFields := by
    refine Growing.bind (growing_of_same fun d a d' h => by cases h; exact ⟨rfl, rfl⟩) fun d => ?_
    split
    · exact growing_pure ()
    · exact growing_uvarint.bind growing_discardLoop
  unfold finishHeader
  split
  · exact hdiscard.bind fun _ => growing_headerAndBody
  · exact growing_headerAndBody

/-- What the tagged fields at `p` need. -/
def TagsFit (buf : ByteString) (p : Nat) : Prop :=
  ∀ numFields k, readUvarint (buf.drop p) = some (numFields, k) → FieldsFit buf numFields (p + k)

theorem discardTaggedFields_fit (h : d.At p) (ht : d.Tidy) (hfit : TagsFit d.buf p) :
    ∃ d', discardTaggedFields d = .ok ((), d') ∧ d'.buf = d.buf ∧ d'.Tidy ∧
      (d'.err = none → ∃ q, d'.At q) ∧ 2 * d'.rounds + p ≤ 2 * d.rounds + d.buf.length + 2 := by
  have hget : (get : Decode Decoder) d = .ok (d, d) := rfl
  have hple := h.le
  unfold discardTaggedFields
  rw [bind_ok hget, if_neg (by simp [h.err_eq])]
  cases hr : readUvarint (d.buf.drop p) with
  | none =>
    rw [bind_ok (h.uvarint_none hr)]
    refine ⟨_, rfl, rfl, ht.fail _, fun he => (Option.some_ne_none _ he).elim, ?_⟩
    show 2 * d.rounds + p ≤ _
    omega
  | some r =>
    obtain ⟨numFields, k⟩ := r
    obtain ⟨hu, hk, hle, -⟩ := h.uvarint_some hr
    rw [bind_ok hu]
    obtain ⟨d', heq, hb, ht', herr, hrounds⟩ := discardLoop_fit numFields (h.moveTo hle)
      (ht.moveTo h (Nat.le_add_right p k) hle) (hfit numFields k hr)
    refine ⟨d', heq, hb, ht', herr, ?_⟩
    have hr' : 2 * d'.rounds + (p + k) ≤ 2 * d.rounds + d.buf.length + 2 := hrounds
    omega

theorem discardTaggedFields_misfit (h : d.At p) (hfit : ¬ TagsFit d.buf p) {d' : Decoder}
    (hrun : discardTaggedFields d = .ok ((), d')) : ¬ d'.Straight := by
  have hget : (get : Decode Decoder) d = .ok (d, d) := rfl
  simp only [TagsFit, not_forall] at hfit
  obtain ⟨numFields, k, hr, hmis⟩ := hfit
  obtain ⟨hu, hk, hle, -⟩ := h.uvarint_some hr
  unfold discardTaggedFields at hrun
  rw [bind_ok hget, if_neg (by simp [h.err_eq]), bind_ok hu] at hrun
  exact discardLoop_misfit numFields (h.moveTo hle) hmis hrun

/-- With lengths that fit, the parse ends within the message. -/
theorem finishHeader_fit (header : RequestHeader) (h : d.At p) (ht : d.Tidy)
    (hfit : 2 ≤ headerVersion → TagsFit d.buf p) :
    ∃ result d', finishHeader headerVersion header d = .ok (result, d') ∧
      (∀ header' body, result = .ok (header', body) → body <:+ d.buf) ∧ d'.Straight ∧
      2 * d'.rounds + p ≤ 2 * d.rounds + d.buf.length + 2 := by
  have hple := h.le
  unfold finishHeader
  by_cases hv : 2 ≤ headerVersion
  · obtain ⟨d', hdisc, hbuf, ht', herr, hrounds⟩ := discardTaggedFields_fit h ht (hfit hv)
    obtain ⟨result, heq, hbody⟩ := headerAndBody_suffix header herr
    rw [if_pos hv, bind_ok hdisc]
    exact ⟨result, d', heq, hbuf ▸ hbody, ht'.toStraight, hrounds⟩
  · obtain ⟨result, heq, hbody⟩ := headerAndBody_suffix header fun _ => ⟨p, h⟩
    rw [if_neg hv]
    exact ⟨result, d, heq, hbody, ht.toStraight, by omega⟩

/-- A parse that ends within the message has met only lengths that fit. -/
theorem tagsFit_of_straight (h : d.At p) {d' : Decoder}
    {result : Except DecodeError (RequestHeader × ByteString)}
    (hrun : finishHeader headerVersion header d = .ok (result, d')) (hstraight : d'.Straight)
    (hv : 2 ≤ headerVersion) : TagsFit d.buf p := by
  by_contra hmis
  unfold finishHeader at hrun
  rw [if_pos hv] at hrun
  obtain ⟨_, d₁, hdisc, hbody⟩ := of_bind_ok hrun
  exact discardTaggedFields_misfit h hmis hdisc
    (hstraight.of_grows (growing_headerAndBody d₁ result d' hbody))

end Finish

end Decoder

open Decoder

theorem two_le_requestHeaderVersion (apiKey apiVersion : Int16) :
    2 ≤ requestHeaderVersion apiKey apiVersion ↔ requestHeaderVersion apiKey apiVersion = 2 := by
  rcases requestHeaderVersion_cases apiKey apiVersion with hv | hv <;> rw [hv] <;> decide

/-- The lengths fit if those of a header that is read whole do. -/
theorem lengthsFit_iff {msg : ByteString} (hle : clientIDEnd msg ≤ msg.length) :
    LengthsFit msg ↔ (2 ≤ requestHeaderVersion (Int16.ofNat (field msg 0 2))
      (Int16.ofNat (field msg 2 2)) → TagsFit msg (clientIDEnd msg)) := by
  unfold LengthsFit taggedStart
  rw [two_le_requestHeaderVersion]
  by_cases hv : requestHeaderVersion (Int16.ofNat (field msg 0 2)) (Int16.ofNat (field msg 2 2)) = 2
  · rw [if_pos ⟨hv, hle⟩]
    constructor
    · exact fun hfit _ numFields k hr => hfit _ numFields k rfl hr
    · intro hfit p numFields k hp hr
      cases hp
      exact hfit hv numFields k hr
  · rw [if_neg fun hand => hv hand.1]
    exact ⟨fun _ h => absurd h hv, fun _ p numFields k hp => by cases hp⟩

/-- Parsing a request header is safe exactly if every tagged-field length fits. -/
theorem parsesSafely_iff (msg : ByteString) (h : msg.length < 2 ^ 63) :
    ParsesSafely msg ↔ LengthsFit msg := by
  obtain ⟨header, d, hread, hup, hfields⟩ := readHeader_upto h
  have hten := ten_le_clientIDEnd msg
  unfold ParsesSafely parseRequestHeader
  rw [bind_ok hread]
  obtain rfl : d.buf = msg := hup.buf_eq
  rcases hup.state with ⟨hle, hat⟩ | ⟨hlt, he⟩
  · obtain ⟨hkey, hversion⟩ := hfields (by omega)
    rw [lengthsFit_iff hle, ← hkey, ← hversion]
    constructor
    · rintro ⟨result, d', hrun, -, hwithin, hforward, -⟩
      have hbuf : d'.buf = d.buf := (growing_finishHeader d result d' hrun).1
      have hwithin' : ∀ p ∈ d'.trail, 0 ≤ p ∧ p ≤ d'.buf.length := by
        rw [hbuf]
        exact hwithin
      exact tagsFit_of_straight hat hrun ⟨hwithin', hforward⟩
    · intro hfit
      obtain ⟨result, d', hrun, hbody, hstraight, hrounds⟩ :=
        finishHeader_fit header hat hup.tidy hfit
      have hbuf : d'.buf = d.buf := (growing_finishHeader d result d' hrun).1
      have hwithin := hstraight.within
      rw [hbuf] at hwithin
      refine ⟨result, d', hrun, hbody, hwithin, hstraight.forward, ?_⟩
      rw [hup.rounds_eq] at hrounds
      omega
  · obtain ⟨e, heq⟩ := finishHeader_failed _ header he
    have hfit : LengthsFit d.buf := by
      intro p numFields k hp
      unfold taggedStart at hp
      rw [if_neg fun hand => absurd hand.2 (Nat.not_le.mpr hlt)] at hp
      cases hp
    refine iff_of_true ⟨.error e, d, heq, ?_, hup.tidy.within, hup.tidy.forward, ?_⟩ hfit
    · intro header' body hr
      cases hr
    · rw [hup.rounds_eq]
      exact Nat.zero_le _

/-- An `ApiVersions` request of version 3 with a null client id and these tagged
fields. -/
def flexibleRequest (tags : ByteString) : ByteString :=
  [0, 18, 0, 3, 0, 0, 0, 7, 255, 255] ++ tags

/-- One field with tag 0 and two bytes, and a body of one byte. -/
theorem parsesSafely_iff_flexibleRequest :
    (flexibleRequest [1, 0, 2, 5, 6, 9]).length < 2 ^ 63 ∧
      (ParsesSafely (flexibleRequest [1, 0, 2, 5, 6, 9]) ↔
        LengthsFit (flexibleRequest [1, 0, 2, 5, 6, 9])) :=
  ⟨by decide, parsesSafely_iff _ (by decide)⟩

/-- One field with tag 0 and length `2^63`: the decoder goes back before the start
of the message and slicing the body panics. -/
theorem negative_length_panics :
    parseRequestHeader (flexibleRequest [1, 0, 128, 128, 128, 128, 128, 128, 128, 128, 128, 1]) =
        .error .sliceOutOfRange ∧
      ¬ ParsesSafely (flexibleRequest [1, 0, 128, 128, 128, 128, 128, 128, 128, 128, 128, 1]) := by
  have hpanic : parseRequestHeader
      (flexibleRequest [1, 0, 128, 128, 128, 128, 128, 128, 128, 128, 128, 1]) =
      .error .sliceOutOfRange := by
    decide +kernel
  refine ⟨hpanic, ?_⟩
  rintro ⟨result, d, hrun, -⟩
  rw [hpanic] at hrun
  cases hrun

end MessageBroker.Protocol
