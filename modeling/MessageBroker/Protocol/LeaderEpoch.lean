import MessageBroker.Protocol.Compact

/-!
# Offsets for leader epochs

`OffsetsForLeaderEpoch` has the legacy encoding in versions 2 and 3 and the flexible
one in version 4, chosen by a flag at every length. Requests and responses have the
same shape, topics with partitions, and differ in the fields of a partition.
-/
namespace MessageBroker.Protocol

open Lib.Bytes Lib.Cursors

structure OffsetsForLeaderEpochTopic (π : Type) where
  name : ByteString
  partitions : List π
  deriving DecidableEq

structure OffsetsForLeaderEpochRequestPartition where
  index : Int32
  currentLeaderEpoch : Int32
  leaderEpoch : Int32
  deriving DecidableEq

structure OffsetsForLeaderEpochRequest where
  replicaID : Int32
  topics : List (OffsetsForLeaderEpochTopic OffsetsForLeaderEpochRequestPartition)
  deriving DecidableEq

structure OffsetsForLeaderEpochResponsePartition where
  errorCode : Int16
  index : Int32
  leaderEpoch : Int32
  endOffset : Int64
  deriving DecidableEq

structure OffsetsForLeaderEpochResponse where
  throttleTimeMs : Int32
  topics : List (OffsetsForLeaderEpochTopic OffsetsForLeaderEpochResponsePartition)
  deriving DecidableEq

/-! ## Encoding -/

def encodeOFLEArrayLen (n : Nat) (flexible : Bool) : ByteString :=
  if flexible then putCompactArrayLen n else putArrayLen (Int32.ofNat n)

def encodeOFLEString (s : ByteString) (flexible : Bool) : ByteString :=
  if flexible then putCompactString s else putString s

/-- The end of a partition, a topic or the whole message. -/
def encodeOFLETags (flexible : Bool) : ByteString := if flexible then putTaggedFields else []

section Encoding

variable {π : Type} (write : π → ByteString) (flexible : Bool)

def encodeOFLEPartition (p : π) : ByteString := write p ++ encodeOFLETags flexible

def encodeOFLETopic (t : OffsetsForLeaderEpochTopic π) : ByteString :=
  encodeOFLEString t.name flexible ++ ((encodeOFLEArrayLen t.partitions.length flexible ++
    writeAll (fun _ => encodeOFLEPartition write flexible) 0 t.partitions) ++
      encodeOFLETags flexible)

def encodeOFLETopics (ts : List (OffsetsForLeaderEpochTopic π)) : ByteString :=
  encodeOFLEArrayLen ts.length flexible ++ writeAll (fun _ => encodeOFLETopic write flexible) 0 ts

end Encoding

def putRequestPartition (p : OffsetsForLeaderEpochRequestPartition) : ByteString :=
  putInt32 p.index ++ (putInt32 p.currentLeaderEpoch ++ putInt32 p.leaderEpoch)

def encodeOffsetsForLeaderEpochRequest (req : OffsetsForLeaderEpochRequest) (apiVersion : Int16) :
    ByteString :=
  let flexible := decide (4 ≤ apiVersion)
  (if 3 ≤ apiVersion then putInt32 req.replicaID else []) ++
    (encodeOFLETopics putRequestPartition flexible req.topics ++ encodeOFLETags flexible)

def putResponsePartition (p : OffsetsForLeaderEpochResponsePartition) : ByteString :=
  putInt16 p.errorCode ++ (putInt32 p.index ++ (putInt32 p.leaderEpoch ++ putInt64 p.endOffset))

def encodeOffsetsForLeaderEpochResponse (resp : OffsetsForLeaderEpochResponse)
    (apiVersion : Int16) : ByteString :=
  let flexible := decide (4 ≤ apiVersion)
  putInt32 resp.throttleTimeMs ++
    (encodeOFLETopics putResponsePartition flexible resp.topics ++ encodeOFLETags flexible)

/-! ## Decoding -/

section Decoding

open Decoder

/-- The flexible length is an `int` that is narrowed to 32 bits. -/
def decodeOFLEArrayLen (flexible : Bool) : Decode Int32 :=
  if flexible then do
    let n ← compactArrayLen
    return Int32.ofInt (max n 0)
  else do
    let n ← arrayLen
    return if n < 0 then 0 else n

def decodeOFLEString (flexible : Bool) : Decode ByteString :=
  if flexible then compactString else string

def discardOFLETags (flexible : Bool) : Decode Unit :=
  if flexible then discardTaggedFields else pure ()

section Shape

variable {π : Type} (read : Decode π) (flexible : Bool)

/-- `make` of a length and the loop over the items. -/
def decodeOFLEArray : Decode (List π) := do
  let n ← decodeOFLEArrayLen flexible
  if n < 0 then throw .makeNegativeLength
  Lib.Cursors.rounds (fun _ => read) 0 n.toInt.toNat

def decodeOFLEPartition : Decode π := do
  let p ← read
  discardOFLETags flexible
  return p

def decodeOFLETopic : Decode (OffsetsForLeaderEpochTopic π) := do
  let name ← decodeOFLEString flexible
  let partitions ← decodeOFLEArray (decodeOFLEPartition read flexible) flexible
  discardOFLETags flexible
  return ⟨name, partitions⟩

def decodeOFLETopics : Decode (List (OffsetsForLeaderEpochTopic π)) :=
  decodeOFLEArray (decodeOFLETopic read flexible) flexible

end Shape

def readRequestPartition : Decode OffsetsForLeaderEpochRequestPartition := do
  let index ← int32
  let currentLeaderEpoch ← int32
  let leaderEpoch ← int32
  return ⟨index, currentLeaderEpoch, leaderEpoch⟩

/-- `DecodeOffsetsForLeaderEpochRequest` up to its check of the decoder's error. -/
def decodeOFLERequestBody (apiVersion : Int16) : Decode OffsetsForLeaderEpochRequest := do
  let flexible := decide (4 ≤ apiVersion)
  let replicaID ← readSince 3 apiVersion (-2) int32
  let topics ← decodeOFLETopics readRequestPartition flexible
  discardOFLETags flexible
  return ⟨replicaID, topics⟩

def decodeOffsetsForLeaderEpochRequest (body : ByteString) (apiVersion : Int16) :
    Except Panic (Except DecodeError OffsetsForLeaderEpochRequest × Decoder) :=
  decodeWhole (decodeOFLERequestBody apiVersion) body

def readResponsePartition : Decode OffsetsForLeaderEpochResponsePartition := do
  let errorCode ← int16
  let index ← int32
  let leaderEpoch ← int32
  let endOffset ← int64
  return ⟨errorCode, index, leaderEpoch, endOffset⟩

/-- `DecodeOffsetsForLeaderEpochResponse` up to its check of the decoder's error. -/
def decodeOFLEResponseBody (apiVersion : Int16) : Decode OffsetsForLeaderEpochResponse := do
  let flexible := decide (4 ≤ apiVersion)
  let throttleTimeMs ← int32
  let topics ← decodeOFLETopics readResponsePartition flexible
  discardOFLETags flexible
  return ⟨throttleTimeMs, topics⟩

def decodeOffsetsForLeaderEpochResponse (body : ByteString) (apiVersion : Int16) :
    Except Panic (Except DecodeError OffsetsForLeaderEpochResponse × Decoder) :=
  decodeWhole (decodeOFLEResponseBody apiVersion) body

end Decoding

/-! ## Unknown tagged fields

The same message from a sender that knows tagged fields which this version does not:
every partition and topic, and the message, may end with some. -/

section Tagged

variable {π : Type}

structure TaggedTopic (π : Type) where
  name : ByteString
  partitions : List (π × List TaggedField)
  tags : List TaggedField
  deriving DecidableEq

def TaggedTopic.known (t : TaggedTopic π) : OffsetsForLeaderEpochTopic π :=
  ⟨t.name, t.partitions.map Prod.fst⟩

/-- The topic with no tagged field anywhere. -/
def OffsetsForLeaderEpochTopic.untagged (t : OffsetsForLeaderEpochTopic π) : TaggedTopic π :=
  ⟨t.name, t.partitions.map fun p => (p, []), []⟩

def putOFLETags (flexible : Bool) (tags : List TaggedField) : ByteString :=
  if flexible then putTags tags else []

variable (write : π → ByteString) (flexible : Bool)

def putTaggedPartition (p : π × List TaggedField) : ByteString :=
  write p.1 ++ putOFLETags flexible p.2

def putTaggedTopic (t : TaggedTopic π) : ByteString :=
  encodeOFLEString t.name flexible ++ ((encodeOFLEArrayLen t.partitions.length flexible ++
    writeAll (fun _ => putTaggedPartition write flexible) 0 t.partitions) ++
      putOFLETags flexible t.tags)

def putTaggedTopics (ts : List (TaggedTopic π)) : ByteString :=
  encodeOFLEArrayLen ts.length flexible ++ writeAll (fun _ => putTaggedTopic write flexible) 0 ts

/-- A request in version 4 with tagged fields in it. -/
structure TaggedRequest where
  replicaID : Int32
  topics : List (TaggedTopic OffsetsForLeaderEpochRequestPartition)
  tags : List TaggedField

def TaggedRequest.known (req : TaggedRequest) : OffsetsForLeaderEpochRequest :=
  ⟨req.replicaID, req.topics.map (·.known)⟩

def encodeTaggedRequest (req : TaggedRequest) : ByteString :=
  putInt32 req.replicaID ++
    (putTaggedTopics putRequestPartition true req.topics ++ putTags req.tags)

/-- Names of at most 32767 bytes, arrays of fewer than `2^31` items and well-formed
tagged fields. -/
structure TaggedTopic.Fits (t : TaggedTopic π) : Prop where
  name : t.name.length ≤ 32767
  partitions : t.partitions.length < 2 ^ 31
  partitionTags : ∀ p ∈ t.partitions, ∀ f ∈ p.2, f.WellFormed
  tags : ∀ f ∈ t.tags, f.WellFormed

/-- The same bounds on a topic without tagged fields. -/
def OffsetsForLeaderEpochTopic.Fits (t : OffsetsForLeaderEpochTopic π) : Prop :=
  t.name.length ≤ 32767 ∧ t.partitions.length < 2 ^ 31

theorem OffsetsForLeaderEpochTopic.Fits.untagged {t : OffsetsForLeaderEpochTopic π}
    (h : t.Fits) : t.untagged.Fits where
  name := h.1
  partitions := by
    rw [OffsetsForLeaderEpochTopic.untagged, List.length_map]
    exact h.2
  partitionTags p hp f hf := by
    obtain ⟨q, -, rfl⟩ := List.mem_map.mp hp
    cases hf
  tags f hf := by cases hf

theorem known_untagged (t : OffsetsForLeaderEpochTopic π) : t.untagged.known = t := by
  obtain ⟨name, partitions⟩ := t
  simp only [OffsetsForLeaderEpochTopic.untagged, TaggedTopic.known, List.map_map]
  exact congrArg _ (List.map_id partitions)

/-! ### No tagged field is what the encoder writes -/

theorem putOFLETags_nil : putOFLETags flexible [] = encodeOFLETags flexible := by
  rw [putOFLETags, encodeOFLETags, putTags_nil]

theorem writeAll_map {α β : Type} (f : α → β) (write : β → ByteString) (i : Nat) (as : List α) :
    writeAll (fun _ => write) i (as.map f) = writeAll (fun _ a => write (f a)) i as := by
  induction as generalizing i with
  | nil => rfl
  | cons a as ih => rw [List.map_cons, writeAll, writeAll, ih]

theorem putTaggedTopic_untagged (t : OffsetsForLeaderEpochTopic π) :
    putTaggedTopic write flexible t.untagged = encodeOFLETopic write flexible t := by
  have hpart : (fun _ p => putTaggedPartition write flexible (p, [])) =
      fun (_ : Nat) => encodeOFLEPartition write flexible := by
    funext _ p
    rw [putTaggedPartition, encodeOFLEPartition, putOFLETags_nil]
  rw [putTaggedTopic, encodeOFLETopic, OffsetsForLeaderEpochTopic.untagged, List.length_map,
    writeAll_map, hpart, putOFLETags_nil]

theorem putTaggedTopics_untagged (ts : List (OffsetsForLeaderEpochTopic π)) :
    putTaggedTopics write flexible (ts.map (·.untagged)) = encodeOFLETopics write flexible ts := by
  have htopic : (fun (_ : Nat) t =>
      putTaggedTopic write flexible (OffsetsForLeaderEpochTopic.untagged t)) =
      fun _ => encodeOFLETopic write flexible := by
    funext _ t
    exact putTaggedTopic_untagged write flexible t
  rw [putTaggedTopics, encodeOFLETopics, List.length_map, writeAll_map, htopic]

end Tagged

namespace Decoder

/-! ## Reading a message back -/

section Reads

variable {π : Type} {read : Decode π} {write : π → ByteString}

theorem reads_decodeOFLEArrayLen (flexible : Bool) {n : Nat} (h : n < 2 ^ 31) :
    cursor.Reads (decodeOFLEArrayLen flexible) (encodeOFLEArrayLen n flexible) (Int32.ofNat n) := by
  cases flexible with
  | true =>
    have hmax : Int32.ofInt (max (n : Int) 0) = Int32.ofNat n := by
      rw [Int.max_eq_left (Int.natCast_nonneg n), Int32.ofInt_eq_ofNat]
    have hread := (reads_compactArrayLen (h.trans (by decide))).return (f := fun n =>
      Int32.ofInt (max n 0))
    rwa [hmax] at hread
  | false =>
    have hneg : ¬ Int32.ofNat n < 0 := by
      rw [Int32.lt_iff_toInt_lt, Int32.toInt_ofNat_of_lt h]
      exact Int.not_lt.mpr (Int.natCast_nonneg n)
    have hread := (reads_arrayLen (Int32.ofNat n)).return (f := fun n => if n < 0 then 0 else n)
    rwa [if_neg hneg] at hread

theorem reads_decodeOFLEString (flexible : Bool) {s : ByteString} (h : s.length ≤ 32767) :
    cursor.Reads (decodeOFLEString flexible) (encodeOFLEString s flexible) s := by
  cases flexible with
  | true => exact reads_compactString s (Nat.lt_of_le_of_lt h (by decide))
  | false => exact reads_string s (Nat.lt_succ_of_le h)

theorem reads_discardOFLETags (flexible : Bool) {tags : List TaggedField}
    (h : ∀ f ∈ tags, f.WellFormed) :
    cursor.Reads (discardOFLETags flexible) (putOFLETags flexible tags) () := by
  cases flexible with
  | true => exact reads_discardTaggedFields h
  | false => exact Cursor.reads_pure ()

theorem reads_decodeOFLEArray (flexible : Bool) {α : Type} {writeItem : α → ByteString}
    {g : α → π} {as : List α} (hlen : as.length < 2 ^ 31)
    (h : ∀ a ∈ as, cursor.Reads read (writeItem a) (g a)) :
    cursor.Reads (decodeOFLEArray read flexible)
      (encodeOFLEArrayLen as.length flexible ++ writeAll (fun _ => writeItem) 0 as)
      (as.map g) := by
  refine (reads_decodeOFLEArrayLen flexible hlen).bind ?_
  have hint := Int32.toInt_ofNat_of_lt hlen
  have hneg : ¬ Int32.ofNat as.length < 0 := by
    rw [Int32.lt_iff_toInt_lt, hint]
    exact Int.not_lt.mpr (Int.natCast_nonneg _)
  simp only [if_neg hneg, hint, Int.toNat_natCast]
  exact Cursor.Reads.rounds_map (fun _ => h) 0

theorem reads_decodeOFLETopic (flexible : Bool) (hread : ∀ p, cursor.Reads read (write p) p)
    {t : TaggedTopic π} (h : t.Fits) :
    cursor.Reads (decodeOFLETopic read flexible) (putTaggedTopic write flexible t) t.known := by
  refine (reads_decodeOFLEString flexible h.name).bind ?_
  refine (reads_decodeOFLEArray (g := Prod.fst) flexible h.partitions fun p hp => ?_).bind ?_
  · exact (hread p.1).bind ((reads_discardOFLETags flexible (h.partitionTags p hp)).return)
  · exact (reads_discardOFLETags flexible h.tags).return

theorem reads_decodeOFLETopics (flexible : Bool) (hread : ∀ p, cursor.Reads read (write p) p)
    {ts : List (TaggedTopic π)} (hlen : ts.length < 2 ^ 31) (h : ∀ t ∈ ts, t.Fits) :
    cursor.Reads (decodeOFLETopics read flexible) (putTaggedTopics write flexible ts)
      (ts.map (·.known)) :=
  reads_decodeOFLEArray flexible hlen fun t ht => reads_decodeOFLETopic flexible hread (h t ht)

/-- Topics as this version encodes them. -/
theorem reads_encodeOFLETopics (flexible : Bool) (hread : ∀ p, cursor.Reads read (write p) p)
    {ts : List (OffsetsForLeaderEpochTopic π)} (hlen : ts.length < 2 ^ 31)
    (h : ∀ t ∈ ts, t.Fits) :
    cursor.Reads (decodeOFLETopics read flexible) (encodeOFLETopics write flexible ts) ts := by
  have huntagged : ∀ t ∈ ts.map (·.untagged), t.Fits := by
    intro t ht
    obtain ⟨t', ht', rfl⟩ := List.mem_map.mp ht
    exact (h t' ht').untagged
  have htopics := reads_decodeOFLETopics flexible hread (by rwa [List.length_map]) huntagged
  rw [putTaggedTopics_untagged, List.map_map] at htopics
  have hknown : ((·.known) ∘ (·.untagged) :
      OffsetsForLeaderEpochTopic π → OffsetsForLeaderEpochTopic π) = id :=
    funext known_untagged
  rwa [hknown, List.map_id] at htopics

theorem reads_encodeOFLETags (flexible : Bool) :
    cursor.Reads (discardOFLETags flexible) (encodeOFLETags flexible) () := by
  rw [← putOFLETags_nil]
  exact reads_discardOFLETags flexible fun f hf => absurd hf List.not_mem_nil

end Reads

theorem reads_readRequestPartition (p : OffsetsForLeaderEpochRequestPartition) :
    cursor.Reads readRequestPartition (putRequestPartition p) p :=
  (reads_int32 p.index).bind ((reads_int32 p.currentLeaderEpoch).bind
    (reads_int32 p.leaderEpoch).return)

theorem reads_readResponsePartition (p : OffsetsForLeaderEpochResponsePartition) :
    cursor.Reads readResponsePartition (putResponsePartition p) p :=
  (reads_int16 p.errorCode).bind ((reads_int32 p.index).bind ((reads_int32 p.leaderEpoch).bind
    (reads_int64 p.endOffset).return))

end Decoder

/-- Version 2 has no replica id. -/
def OffsetsForLeaderEpochRequest.atVersion (apiVersion : Int16)
    (req : OffsetsForLeaderEpochRequest) : OffsetsForLeaderEpochRequest :=
  { req with replicaID := if 3 ≤ apiVersion then req.replicaID else -2 }

open Decoder in
/-- Requests and responses decode to their last byte and to what was encoded, in the
legacy and in the flexible encoding; and so does a flexible request with any tagged
fields at the end of its partitions, its topics and itself. Byte slices are shorter
than `2^63`. -/
theorem leader_epoch_messages_round_trip :
    (∀ (req : OffsetsForLeaderEpochRequest) (apiVersion : Int16),
      req.topics.length < 2 ^ 31 → (∀ t ∈ req.topics, t.Fits) →
      (encodeOffsetsForLeaderEpochRequest req apiVersion).length < 2 ^ 63 →
      ∃ d, decodeOffsetsForLeaderEpochRequest
          (encodeOffsetsForLeaderEpochRequest req apiVersion) apiVersion =
            .ok (.ok (req.atVersion apiVersion), d) ∧
        d.pos = (encodeOffsetsForLeaderEpochRequest req apiVersion).length) ∧
    (∀ (resp : OffsetsForLeaderEpochResponse) (apiVersion : Int16),
      resp.topics.length < 2 ^ 31 → (∀ t ∈ resp.topics, t.Fits) →
      (encodeOffsetsForLeaderEpochResponse resp apiVersion).length < 2 ^ 63 →
      ∃ d, decodeOffsetsForLeaderEpochResponse
          (encodeOffsetsForLeaderEpochResponse resp apiVersion) apiVersion = .ok (.ok resp, d) ∧
        d.pos = (encodeOffsetsForLeaderEpochResponse resp apiVersion).length) ∧
    ∀ req : TaggedRequest, req.topics.length < 2 ^ 31 → (∀ t ∈ req.topics, t.Fits) →
      (∀ f ∈ req.tags, f.WellFormed) → (encodeTaggedRequest req).length < 2 ^ 63 →
      ∃ d, decodeOffsetsForLeaderEpochRequest (encodeTaggedRequest req) 4 =
          .ok (.ok req.known, d) ∧
        d.pos = (encodeTaggedRequest req).length := by
  refine ⟨?_, ?_, ?_⟩
  · intro req apiVersion hlen hfits hslice
    refine decodeWhole_of_reads ?_ hslice
    refine (reads_readSince 3 apiVersion (-2) (reads_int32 req.replicaID)).bind ?_
    refine (reads_encodeOFLETopics _ reads_readRequestPartition hlen hfits).bind ?_
    exact (reads_encodeOFLETags _).return
  · intro resp apiVersion hlen hfits hslice
    refine decodeWhole_of_reads ?_ hslice
    refine (reads_int32 resp.throttleTimeMs).bind ?_
    refine (reads_encodeOFLETopics _ reads_readResponsePartition hlen hfits).bind ?_
    exact (reads_encodeOFLETags _).return
  · intro req hlen hfits htags hslice
    refine decodeWhole_of_reads ?_ hslice
    refine (reads_readSince 3 4 (-2) (reads_int32 req.replicaID)).bind ?_
    refine (reads_decodeOFLETopics true reads_readRequestPartition hlen hfits).bind ?_
    exact (reads_discardTaggedFields htags).return

def sampleEpochRequest : OffsetsForLeaderEpochRequest :=
  ⟨3, [⟨[97, 98], [⟨0, 5, 4⟩, ⟨1, -1, 0⟩]⟩, ⟨[], []⟩]⟩

def sampleEpochResponse : OffsetsForLeaderEpochResponse := ⟨0, [⟨[97], [⟨0, 1, 4, 300⟩]⟩]⟩

/-- A tagged field on a partition, two on a topic and one on the request. -/
def sampleTaggedRequest : TaggedRequest :=
  ⟨3, [⟨[97], [(⟨0, 5, 4⟩, [⟨300, [1, 2]⟩])], [⟨0, []⟩, ⟨7, [9]⟩]⟩], [⟨1, [0, 0, 0]⟩]⟩

theorem leader_epoch_messages_round_trip_samples :
    (∃ d, decodeOffsetsForLeaderEpochRequest
        (encodeOffsetsForLeaderEpochRequest sampleEpochRequest 2) 2 =
          .ok (.ok ⟨-2, sampleEpochRequest.topics⟩, d) ∧
      d.pos = (encodeOffsetsForLeaderEpochRequest sampleEpochRequest 2).length) ∧
    (∃ d, decodeOffsetsForLeaderEpochResponse
        (encodeOffsetsForLeaderEpochResponse sampleEpochResponse 4) 4 =
          .ok (.ok sampleEpochResponse, d) ∧
      d.pos = (encodeOffsetsForLeaderEpochResponse sampleEpochResponse 4).length) ∧
    ∃ d, decodeOffsetsForLeaderEpochRequest (encodeTaggedRequest sampleTaggedRequest) 4 =
        .ok (.ok ⟨3, [⟨[97], [⟨0, 5, 4⟩]⟩]⟩, d) ∧
      d.pos = (encodeTaggedRequest sampleTaggedRequest).length := by
  obtain ⟨hrequest, hresponse, htagged⟩ := leader_epoch_messages_round_trip
  refine ⟨hrequest sampleEpochRequest 2 (by decide) ?_ (by decide +kernel),
    hresponse sampleEpochResponse 4 (by decide) ?_ (by decide +kernel),
    htagged sampleTaggedRequest (by decide) ?_ (by decide) (by decide +kernel)⟩
  · unfold OffsetsForLeaderEpochTopic.Fits
    decide
  · unfold OffsetsForLeaderEpochTopic.Fits
    decide
  · intro t ht
    rw [List.mem_singleton.mp ht]
    exact ⟨by decide, by decide, by decide, by decide⟩

end MessageBroker.Protocol
