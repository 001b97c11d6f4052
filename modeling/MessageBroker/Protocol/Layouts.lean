import MessageBroker.Lib.Layouts
import MessageBroker.Protocol.Requests

/-!
# Request layouts

What the bytes of a request mean, field after field: a fixed-width number takes its
bytes, a string or byte slice its length and then so many bytes, an array its length
and then its items, and a negative length is null or empty. A layout stops at the
first field that would reach past the end. The decoders do not stop there, but what
they return is what the layout says.
-/
namespace MessageBroker.Protocol

open Lib.Bytes
open Lib.Cursors (rounds bind_ok bind_error)
open Lib.Layouts

/-! ## Fields -/

/-- A layout of bytes that never gets stuck. -/
abbrev Fields := Layout ByteString Empty

namespace Fields

def fixed (w : Nat) : Fields Nat := do return beNat (← takeBytes w)

def int8 : Fields Int8 := do return Int8.ofNat (← fixed 1)
def int16 : Fields Int16 := do return Int16.ofNat (← fixed 2)
def int32 : Fields Int32 := do return Int32.ofNat (← fixed 4)
def int64 : Fields Int64 := do return Int64.ofNat (← fixed 8)
def bool : Fields Bool := do return (← int8) ≠ 0

def string : Fields ByteString := do
  let n ← int16
  if n < 0 then return [] else takeBytes n.toInt.toNat

def nullableString : Fields (Option ByteString) := do
  let n ← int16
  if n < 0 then return none else return some (← takeBytes n.toInt.toNat)

def nullableBytes : Fields (Option ByteString) := do
  let n ← int32
  if n < 0 then return none else return some (← takeBytes n.toInt.toNat)

def array {α : Type} (item : Fields α) : Fields (List α) := do
  let n ← int32
  rounds (fun _ => item) 0 n.toInt.toNat

/-- A field that versions from `since` on have. -/
def since {α : Type} (since apiVersion : Int16) (zero : α) (f : Fields α) : Fields α :=
  if since ≤ apiVersion then f else pure zero

end Fields

open Fields

/-! ## Requests -/

def produceLayout : Fields ProduceRequest := do
  let transactionalID ← nullableString
  let acks ← int16
  let timeoutMs ← int32
  let topics ← array do
    let name ← string
    let partitions ← array do
      let index ← int32
      let records ← nullableBytes
      return ⟨index, records⟩
    return ⟨name, partitions⟩
  return ⟨transactionalID, acks, timeoutMs, topics⟩

def fetchLayout (apiVersion : Int16) : Fields FetchRequest := do
  let replicaID ← int32
  let maxWaitMs ← int32
  let minBytes ← int32
  let maxBytes ← since 3 apiVersion 0x7fffffff int32
  let isolationLevel ← since 4 apiVersion 0 int8
  let sessionID ← since 7 apiVersion 0 int32
  let sessionEpoch ← since 7 apiVersion (-1) int32
  let topics ← array do
    let name ← string
    let partitions ← array do
      let index ← int32
      let currentLeaderEpoch ← since 9 apiVersion (-1) int32
      let fetchOffset ← int64
      let logStartOffset ← since 5 apiVersion (-1) int64
      let maxBytes ← int32
      return ⟨index, currentLeaderEpoch, fetchOffset, logStartOffset, maxBytes⟩
    return ⟨name, partitions⟩
  let forgottenTopics ← since 7 apiVersion [] (array do
    let name ← string
    let partitions ← array int32
    return ⟨name, partitions⟩)
  let rackID ← since 11 apiVersion [] string
  return ⟨replicaID, maxWaitMs, minBytes, maxBytes, isolationLevel, sessionID, sessionEpoch,
    topics, forgottenTopics, rackID⟩

def listOffsetsLayout (apiVersion : Int16) : Fields ListOffsetsRequest := do
  let replicaID ← int32
  let isolationLevel ← since 2 apiVersion 0 int8
  let topics ← array do
    let name ← string
    let partitions ← array do
      let index ← int32
      let currentLeaderEpoch ← since 4 apiVersion (-1) int32
      let timestamp ← int64
      return ⟨index, currentLeaderEpoch, timestamp⟩
    return ⟨name, partitions⟩
  return ⟨replicaID, isolationLevel, topics⟩

/-- A null array, and in version 0 an empty one, asks for all topics. -/
def metadataTopics (apiVersion : Int16) : Fields (Bool × List ByteString) := do
  let n ← int32
  if n < 0 ∨ n = 0 ∧ apiVersion = 0 then return (true, [])
  else
    let topics ← rounds (fun _ => string) 0 n.toInt.toNat
    return (false, topics)

def metadataLayout (apiVersion : Int16) : Fields MetadataRequest := do
  let (allTopics, topics) ← metadataTopics apiVersion
  let allowAutoTopicCreation ← since 4 apiVersion true bool
  let includeClusterAuthorizedOperations ←
    (if apiVersion = 8 then bool else pure false : Fields Bool)
  let includeTopicAuthorizedOperations ← since 8 apiVersion false bool
  return ⟨allTopics, topics, allowAutoTopicCreation, includeClusterAuthorizedOperations,
    includeTopicAuthorizedOperations⟩

/-! ## The decoder over a body -/

namespace Decoder

/-- How a decoder stands in a body: before the bytes still to come, or failed. In both
cases its positions never left the body. -/
def standing (body : ByteString) : Sticky Decoder ByteString where
  stands d rest := d.buf = body ∧ d.Tidy ∧ ∃ p, d.At p ∧ body.drop p = rest
  failed d := d.buf = body ∧ d.Tidy ∧ d.err ≠ none

section Primitive

variable {body : ByteString} {α : Type}

theorem agree_failed {d : Decoder} {v : α} (hbuf : d.buf = body) (ht : d.Tidy) (e : DecodeError) :
    Agree (standing body) (.ok (v, d.fail e) : Except Panic (α × Decoder))
      (.error .refused : Except (Stop Empty) (α × ByteString)) :=
  ⟨hbuf, ht.fail e, Option.some_ne_none e⟩

theorem stands_moved {d : Decoder} {p n : Nat} (hbuf : d.buf = body) (ht : d.Tidy) (hat : d.At p)
    (hle : p + n ≤ body.length) :
    (standing body).stands (d.moveTo (p + n)) ((body.drop p).drop n) := by
  rw [← hbuf] at hle
  refine ⟨hbuf, ht.moveTo hat (Nat.le_add_right p n) hle, p + n, hat.moveTo hle, ?_⟩
  rw [List.drop_drop]

/-- The reads of a big-endian number. -/
theorem follows_uint (hbody : HasRoom body) {w : Nat} (hw : w ≤ 8) :
    Follows (standing body) (uint w) (Fields.fixed w) where
  agree d rest hs := by
    obtain ⟨hbuf, ht, p, hat, rfl⟩ := hs
    unfold HasRoom at hbody
    have hp := hat.le
    rw [hbuf] at hp
    rcases Nat.lt_or_ge body.length (p + w) with hlt | hge
    · have hshort := hat.uint_short (w := w) (by omega) (by rw [hbuf]; exact hlt)
      have hrefused : takeBytes w (body.drop p) = .error .refused :=
        takeBytes_refused (by rw [List.length_drop]; omega)
      rw [hshort, Fields.fixed, bind_error hrefused]
      exact agree_failed hbuf ht _
    · have hok := hat.uint_ok (w := w) (by rw [hbuf]; exact hge)
      have htake : takeBytes w (body.drop p) = .ok _ :=
        takeBytes_ok (by rw [List.length_drop]; omega)
      rw [hok, Fields.fixed, bind_ok htake]
      refine ⟨?_, stands_moved hbuf ht hat hge⟩
      rw [hbuf]
      rfl
  sticky d hs := ⟨0, d, uint_failed hs.2.2 w, hs⟩

theorem follows_int8 (hbody : HasRoom body) : Follows (standing body) int8 Fields.int8 :=
  (follows_uint hbody (by decide)).return

theorem follows_int16 (hbody : HasRoom body) : Follows (standing body) int16 Fields.int16 :=
  (follows_uint hbody (by decide)).return

theorem follows_int32 (hbody : HasRoom body) : Follows (standing body) int32 Fields.int32 :=
  (follows_uint hbody (by decide)).return

theorem follows_int64 (hbody : HasRoom body) : Follows (standing body) int64 Fields.int64 :=
  (follows_uint hbody (by decide)).return

theorem follows_bool (hbody : HasRoom body) : Follows (standing body) bool Fields.bool :=
  (follows_int8 hbody).return

/-- So many bytes, the end of every read of a length and its bytes. -/
theorem follows_bytes (hbody : HasRoom body) {n : Nat} (hn : n < 2 ^ 31) (zero : α)
    (f : ByteString → α) :
    Follows (standing body) (do
      if !(← require n) then return zero
      let s ← slice n
      advance n
      return f s) (do return f (← takeBytes n)) where
  agree d rest hs := by
    obtain ⟨hbuf, ht, p, hat, rfl⟩ := hs
    unfold HasRoom at hbody
    have hp := hat.le
    rw [hbuf] at hp
    rcases Nat.lt_or_ge body.length (p + n) with hlt | hge
    · have hshort := hat.require_short (n := n) (by omega) (by rw [hbuf]; exact hlt)
      have hrefused : takeBytes n (body.drop p) = .error .refused :=
        takeBytes_refused (by rw [List.length_drop]; omega)
      rw [bind_ok hshort, bind_error hrefused]
      exact agree_failed hbuf ht _
    · have hle : p + n ≤ d.buf.length := by rw [hbuf]; exact hge
      have htake : takeBytes n (body.drop p) = .ok _ :=
        takeBytes_ok (by rw [List.length_drop]; omega)
      rw [bind_ok (hat.require_ok hle), bind_ok htake]
      simp only [Bool.not_true, Bool.false_eq_true, if_false]
      rw [bind_ok (hat.slice hle), bind_ok (hat.advance (by omega))]
      refine ⟨?_, stands_moved hbuf ht hat hge⟩
      rw [hbuf]
  sticky d hs := by
    refine ⟨zero, d, ?_, hs⟩
    rw [bind_ok (require_failed hs.2.2 n)]
    rfl

theorem toNat_toInt_int16_lt (n : Int16) : n.toInt.toNat < 2 ^ 31 := by
  have hlt := n.toInt_lt
  omega

theorem toNat_toInt_int32_lt (n : Int32) : n.toInt.toNat < 2 ^ 31 := by
  have hlt := n.toInt_lt
  omega

theorem stands_err {d : Decoder} {rest : ByteString} (hs : (standing body).stands d rest) :
    ¬ d.err ≠ none := by
  obtain ⟨-, -, p, hat, -⟩ := hs
  exact not_not.mpr hat.err_eq

/-- A length that is not negative is the `int` of a natural number. -/
theorem toInt_eq_of_not_neg {n : Int} (h : ¬ n < 0) : n = (n.toNat : Int) := by omega

/-- What follows a length that a decoder has read, when it first looks at its error. -/
theorem follows_afterLength {zero : α} {x : Decode α} {l : Fields α}
    (hx : Follows (standing body) x l) :
    Follows (standing body) (do
      if (← get).err ≠ none then return zero
      x) l :=
  hx.unless zero (fun _ _ hs => stands_err hs) fun _ hs => hs.2.2

theorem follows_string (hbody : HasRoom body) : Follows (standing body) string Fields.string := by
  refine (follows_int16 hbody).bind fun n => ?_
  by_cases hneg : n < 0
  · have hint : n.toInt < 0 := Int16.lt_iff_toInt_lt.mp hneg
    simp only [hint, hneg, or_true, if_true]
    exact follows_const fun _ => rfl
  · have hint : ¬ n.toInt < 0 := fun h => hneg (Int16.lt_iff_toInt_lt.mpr h)
    have hbytes := follows_bytes hbody (toNat_toInt_int16_lt n) [] id
    rw [← toInt_eq_of_not_neg hint] at hbytes
    simp only [id_eq, bind_pure] at hbytes
    simp only [hint, hneg, or_false, if_false]
    exact follows_afterLength hbytes

/-- A nullable string or byte slice, from its length on. -/
theorem follows_nullable (hbody : HasRoom body) {n : Int} (hn : n.toNat < 2 ^ 31) {b : Prop}
    [Decidable b] (hb : b ↔ n < 0) :
    Follows (standing body) (do
      if (← get).err ≠ none then return none
      if b then return none
      if !(← require n) then return none
      let s ← slice n
      advance n
      return some s)
      (if b then return none else return some (← takeBytes n.toNat) :
        Fields (Option ByteString)) := by
  refine follows_afterLength ?_
  by_cases hneg : b
  · simp only [if_pos hneg]
    exact follows_pure none
  · have hint : ¬ n < 0 := fun h => hneg (hb.mpr h)
    have hbytes := follows_bytes hbody hn none some
    rw [← toInt_eq_of_not_neg hint] at hbytes
    simp only [if_neg hneg]
    exact hbytes

theorem follows_nullableString (hbody : HasRoom body) :
    Follows (standing body) nullableString Fields.nullableString :=
  (follows_int16 hbody).bind fun n =>
    follows_nullable hbody (toNat_toInt_int16_lt n) Int16.lt_iff_toInt_lt

theorem follows_nullableBytes (hbody : HasRoom body) :
    Follows (standing body) nullableBytes Fields.nullableBytes :=
  (follows_int32 hbody).bind fun n =>
    follows_nullable hbody (toNat_toInt_int32_lt n) Int32.lt_iff_toInt_lt

theorem follows_readArray (hbody : HasRoom body) {f : Decode α} {l : Fields α}
    (h : Follows (standing body) f l) :
    Follows (standing body) (readArray f) (Fields.array l) :=
  (follows_int32 hbody).bind fun n => Follows.rounds (fun _ => h) 0 n.toInt.toNat

theorem follows_readSince (since apiVersion : Int16) (zero : α) {f : Decode α} {l : Fields α}
    (h : Follows (standing body) f l) :
    Follows (standing body) (readSince since apiVersion zero f)
      (Fields.since since apiVersion zero l) :=
  h.ite (follows_pure zero)

end Primitive

/-! ## The requests -/

section Requests

variable {body : ByteString} (hbody : HasRoom body) (apiVersion : Int16)

include hbody

theorem follows_produce : Follows (standing body) decodeProduceBody produceLayout := by
  refine (follows_nullableString hbody).bind fun _ => (follows_int16 hbody).bind fun _ => ?_
  refine (follows_int32 hbody).bind fun _ => (follows_readArray hbody ?_).return
  refine (follows_string hbody).bind fun _ => (follows_readArray hbody ?_).return
  exact (follows_int32 hbody).bind fun _ => (follows_nullableBytes hbody).return

theorem follows_fetchTopics :
    Follows (standing body) (readArray (decodeFetchRequestTopic apiVersion)) (Fields.array do
      let name ← Fields.string
      let partitions ← Fields.array do
        let index ← Fields.int32
        let currentLeaderEpoch ← Fields.since 9 apiVersion (-1) Fields.int32
        let fetchOffset ← Fields.int64
        let logStartOffset ← Fields.since 5 apiVersion (-1) Fields.int64
        let maxBytes ← Fields.int32
        return ⟨index, currentLeaderEpoch, fetchOffset, logStartOffset, maxBytes⟩
      return ⟨name, partitions⟩) := by
  refine follows_readArray hbody ((follows_string hbody).bind fun _ => ?_)
  refine (follows_readArray hbody ?_).return
  refine (follows_int32 hbody).bind fun _ => ?_
  refine (follows_readSince 9 apiVersion (-1) (follows_int32 hbody)).bind fun _ => ?_
  refine (follows_int64 hbody).bind fun _ => ?_
  refine (follows_readSince 5 apiVersion (-1) (follows_int64 hbody)).bind fun _ => ?_
  exact (follows_int32 hbody).return

theorem follows_forgottenTopics :
    Follows (standing body) (readArray decodeForgottenTopic) (Fields.array do
      let name ← Fields.string
      let partitions ← Fields.array Fields.int32
      return ⟨name, partitions⟩) := by
  refine follows_readArray hbody ((follows_string hbody).bind fun _ => ?_)
  exact (follows_readArray hbody (follows_int32 hbody)).return

theorem follows_fetch :
    Follows (standing body) (decodeFetchRequestBody apiVersion) (fetchLayout apiVersion) := by
  refine (follows_int32 hbody).bind fun _ => (follows_int32 hbody).bind fun _ => ?_
  refine (follows_int32 hbody).bind fun _ => ?_
  refine (follows_readSince 3 apiVersion _ (follows_int32 hbody)).bind fun _ => ?_
  refine (follows_readSince 4 apiVersion _ (follows_int8 hbody)).bind fun _ => ?_
  refine (follows_readSince 7 apiVersion _ (follows_int32 hbody)).bind fun _ => ?_
  refine (follows_readSince 7 apiVersion _ (follows_int32 hbody)).bind fun _ => ?_
  refine (follows_fetchTopics hbody apiVersion).bind fun _ => ?_
  refine (follows_readSince 7 apiVersion _ (follows_forgottenTopics hbody)).bind fun _ => ?_
  exact (follows_readSince 11 apiVersion _ (follows_string hbody)).return

theorem follows_listOffsets :
    Follows (standing body) (decodeListOffsetsBody apiVersion) (listOffsetsLayout apiVersion) := by
  refine (follows_int32 hbody).bind fun _ => ?_
  refine (follows_readSince 2 apiVersion _ (follows_int8 hbody)).bind fun _ => ?_
  refine (follows_readArray hbody ?_).return
  refine (follows_string hbody).bind fun _ => (follows_readArray hbody ?_).return
  refine (follows_int32 hbody).bind fun _ => ?_
  refine (follows_readSince 4 apiVersion _ (follows_int32 hbody)).bind fun _ => ?_
  exact (follows_int64 hbody).return

theorem follows_metadataTopics :
    Follows (standing body) (decodeMetadataTopics apiVersion) (metadataTopics apiVersion) := by
  refine (follows_int32 hbody).bind fun n => ?_
  refine Follows.ite (follows_pure _) ?_
  exact (Follows.rounds (fun _ => follows_string hbody) 0 n.toInt.toNat).return

theorem follows_metadata :
    Follows (standing body) (decodeMetadataBody apiVersion) (metadataLayout apiVersion) := by
  refine (follows_metadataTopics hbody apiVersion).bind fun _ => ?_
  refine (follows_readSince 4 apiVersion _ (follows_bool hbody)).bind fun _ => ?_
  refine (Follows.ite (follows_bool hbody) (follows_pure false)).bind fun _ => ?_
  exact (follows_readSince 8 apiVersion _ (follows_bool hbody)).return

end Requests

end Decoder

/-! ## What the decoders return -/

/-- Decoding a body returns, with the decoder's positions in the body; the request is
the one the layout reads, and the error is there exactly when the layout has a field
that would reach past the end. -/
def DecodesBy {α : Type} (decoded : Except Panic (Except DecodeError α × Decoder))
    (layout : Fields α) (body : ByteString) : Prop :=
  ∃ result d, decoded = .ok (result, d) ∧ (∀ p ∈ d.trail, 0 ≤ p ∧ p ≤ (body.length : Int)) ∧
    ((∃ e, result = .error e) ↔ layout body = .error .refused) ∧
    ∀ req, result = .ok req ↔ ∃ rest, layout body = .ok (req, rest)

open Decoder in
theorem decodesBy_of_follows {α : Type} {body : ByteString} {f : Decode α} {layout : Fields α}
    (h : Follows (standing body) f layout) (hlt : body.length < 2 ^ 63) :
    DecodesBy (decodeWhole f body) layout body := by
  have hstart : (standing body).stands (newDecoder body) body :=
    ⟨rfl, tidy_newDecoder body, 0, ⟨rfl, rfl, Nat.zero_le _, hlt⟩, rfl⟩
  have hagree := h.agree _ _ hstart
  have hget : ∀ d : Decoder, (get : Decode Decoder) d = .ok (d, d) := fun _ => rfl
  rcases hrun : f (newDecoder body) with panic | ⟨v, d⟩
  · rcases hread : layout body with stop | ⟨req, rest⟩
    · rw [hrun, hread] at hagree
      cases stop with
      | refused => exact hagree.elim
      | stuck why => exact why.elim
    · rw [hrun, hread] at hagree
      exact hagree.elim
  · have herror : Decoder.error d = .ok (d.err, d) := rfl
    rcases hread : layout body with stop | ⟨req, rest⟩
    · rw [hrun, hread] at hagree
      cases stop with
      | stuck why => exact why.elim
      | refused =>
        obtain ⟨hbuf, htidy, herr⟩ := hagree
        obtain ⟨e, he⟩ := Option.ne_none_iff_exists'.mp herr
        have hdecode : decodeWhole f body = .ok (.error e, d) := by
          unfold decodeWhole
          rw [bind_ok hrun, bind_ok herror, he]
          rfl
        refine ⟨_, d, hdecode, ?_, ⟨fun _ => hread, fun _ => ⟨e, rfl⟩⟩, fun req => ⟨?_, ?_⟩⟩
        · rw [← hbuf]
          exact htidy.within
        · rintro ⟨⟩
        · rintro ⟨rest, hrest⟩
          rw [hread] at hrest
          cases hrest
    · rw [hrun, hread] at hagree
      obtain ⟨rfl, hbuf, htidy, p, hat, -⟩ := hagree
      have hdecode : decodeWhole f body = .ok (.ok v, d) := by
        unfold decodeWhole
        rw [bind_ok hrun, bind_ok herror, hat.err_eq]
        rfl
      refine ⟨_, d, hdecode, ?_, ⟨?_, ?_⟩, fun req => ⟨?_, ?_⟩⟩
      · rw [← hbuf]
        exact htidy.within
      · rintro ⟨e, ⟨⟩⟩
      · intro hrefused
        rw [hread] at hrefused
        cases hrefused
      · rintro ⟨⟩
        exact ⟨rest, hread⟩
      · rintro ⟨rest', hrest⟩
        rw [hread] at hrest
        cases hrest
        rfl

/-- The four legacy decoders return what their layouts say, for every body: an error if
and only if a field would reach past the end, and else the request as it stands in the
body. A body that an `int` can index with room for a 32-bit length is no restriction:
messages are shorter than `2^31` bytes, and no Go slice has `2^62`. -/
theorem legacy_requests_decode (body : ByteString) (apiVersion : Int16)
    (hbody : body.length + 2 ^ 31 ≤ 2 ^ 63) :
    DecodesBy (decodeProduceRequest body apiVersion) produceLayout body ∧
    DecodesBy (decodeFetchRequest body apiVersion) (fetchLayout apiVersion) body ∧
    DecodesBy (decodeListOffsetsRequest body apiVersion) (listOffsetsLayout apiVersion) body ∧
    DecodesBy (decodeMetadataRequest body apiVersion) (metadataLayout apiVersion) body := by
  have hlt : body.length < 2 ^ 63 := by omega
  exact ⟨decodesBy_of_follows (Decoder.follows_produce hbody) hlt,
    decodesBy_of_follows (Decoder.follows_fetch hbody apiVersion) hlt,
    decodesBy_of_follows (Decoder.follows_listOffsets hbody apiVersion) hlt,
    decodesBy_of_follows (Decoder.follows_metadata hbody apiVersion) hlt⟩

/-- Two topics are announced and one is there: no request is made of the rest. -/
theorem legacy_requests_decode_truncated :
    ∃ e d, decodeMetadataRequest [0, 0, 0, 2, 0, 1, 97] 3 = .ok (.error e, d) ∧
      ∀ p ∈ d.trail, 0 ≤ p ∧ p ≤ 7 := by
  obtain ⟨-, -, -, result, d, hdecode, htrail, herror, -⟩ :=
    legacy_requests_decode [0, 0, 0, 2, 0, 1, 97] 3 (by decide)
  obtain ⟨e, rfl⟩ := herror.mpr rfl
  exact ⟨e, d, hdecode, htrail⟩

end MessageBroker.Protocol
