import MessageBroker.Protocol.Wire

/-!
# Fetch responses

`EncodeFetchResponse` and `DecodeFetchResponse` are written separately, each with its
own version conditions. A field that the version lacks is not written and keeps its
zero value when it is read.
-/
namespace MessageBroker.Protocol

open Lib.Bytes Lib.Cursors

/-- `records` is `none` for a nil slice. -/
structure FetchResponsePartition where
  index : Int32
  errorCode : Int16
  highWatermark : Int64
  lastStableOffset : Int64
  logStartOffset : Int64
  preferredReadReplica : Int32
  records : Option ByteString
  deriving DecidableEq

structure FetchResponseTopic where
  name : ByteString
  partitions : List FetchResponsePartition
  deriving DecidableEq

structure FetchResponse where
  throttleTimeMs : Int32
  errorCode : Int16
  sessionID : Int32
  topics : List FetchResponseTopic
  deriving DecidableEq

/-! ## Encoding -/

def putNonNullRecords (records : Option ByteString) : ByteString :=
  putNullableBytes (some (records.getD []))

/-- The inner loop of `EncodeFetchResponse`. -/
def encodeFetchPartition (apiVersion : Int16) (p : FetchResponsePartition) : ByteString :=
  putInt32 p.index ++ (putInt16 p.errorCode ++ (putInt64 p.highWatermark ++
    ((if 4 ≤ apiVersion then putInt64 p.lastStableOffset else []) ++
      ((if 5 ≤ apiVersion then putInt64 p.logStartOffset else []) ++
        ((if 4 ≤ apiVersion then putArrayLen (-1) else []) ++
          ((if 11 ≤ apiVersion then putInt32 p.preferredReadReplica else []) ++
            putNonNullRecords p.records))))))

/-- The outer loop of `EncodeFetchResponse`. -/
def encodeFetchTopic (apiVersion : Int16) (t : FetchResponseTopic) : ByteString :=
  putString t.name ++ (putArrayLen (Int32.ofNat t.partitions.length) ++
    writeAll (fun _ => encodeFetchPartition apiVersion) 0 t.partitions)

def encodeFetchResponse (resp : FetchResponse) (apiVersion : Int16) : ByteString :=
  (if 1 ≤ apiVersion then putInt32 resp.throttleTimeMs else []) ++
    ((if 7 ≤ apiVersion then putInt16 resp.errorCode else []) ++
      ((if 7 ≤ apiVersion then putInt32 resp.sessionID else []) ++
        (putArrayLen (Int32.ofNat resp.topics.length) ++
          writeAll (fun _ => encodeFetchTopic apiVersion) 0 resp.topics)))

/-! ## Decoding -/

section Decoding

open Decoder

/-- The loop over aborted transactions, which keeps nothing. -/
def skipAborted : Decode Unit := do
  let _ ← readArray (do
    let _producerId ← int64
    int64)

def decodeFetchPartition (apiVersion : Int16) : Decode FetchResponsePartition := do
  let index ← int32
  let errorCode ← int16
  let highWatermark ← int64
  let lastStableOffset ← readSince 4 apiVersion 0 int64
  let logStartOffset ← readSince 5 apiVersion 0 int64
  let _ ← readSince 4 apiVersion () skipAborted
  let preferredReadReplica ← readSince 11 apiVersion 0 int32
  let records ← nullableBytes
  return ⟨index, errorCode, highWatermark, lastStableOffset, logStartOffset,
    preferredReadReplica, records⟩

def decodeFetchTopic (apiVersion : Int16) : Decode FetchResponseTopic := do
  let name ← string
  let partitions ← readArray (decodeFetchPartition apiVersion)
  return ⟨name, partitions⟩

/-- `DecodeFetchResponse` up to its check of the decoder's error. -/
def decodeFetchBody (apiVersion : Int16) : Decode FetchResponse := do
  let throttleTimeMs ← readSince 1 apiVersion 0 int32
  let errorCode ← readSince 7 apiVersion 0 int16
  let sessionID ← readSince 7 apiVersion 0 int32
  let topics ← readArray (decodeFetchTopic apiVersion)
  return ⟨throttleTimeMs, errorCode, sessionID, topics⟩

/-- `DecodeFetchResponse`, with the decoder it leaves. -/
def decodeFetchResponse (body : ByteString) (apiVersion : Int16) :
    Except Panic (Except DecodeError FetchResponse × Decoder) :=
  decodeWhole (decodeFetchBody apiVersion) body

end Decoding

/-! ## What a version carries -/

/-- The partition with the fields its version lacks at zero, and records that are
never nil. -/
def FetchResponsePartition.atVersion (apiVersion : Int16) (p : FetchResponsePartition) :
    FetchResponsePartition :=
  ⟨p.index, p.errorCode, p.highWatermark,
    if 4 ≤ apiVersion then p.lastStableOffset else 0,
    if 5 ≤ apiVersion then p.logStartOffset else 0,
    if 11 ≤ apiVersion then p.preferredReadReplica else 0,
    some (p.records.getD [])⟩

def FetchResponseTopic.atVersion (apiVersion : Int16) (t : FetchResponseTopic) :
    FetchResponseTopic :=
  ⟨t.name, t.partitions.map (·.atVersion apiVersion)⟩

def FetchResponse.atVersion (apiVersion : Int16) (resp : FetchResponse) : FetchResponse :=
  ⟨if 1 ≤ apiVersion then resp.throttleTimeMs else 0,
    if 7 ≤ apiVersion then resp.errorCode else 0,
    if 7 ≤ apiVersion then resp.sessionID else 0,
    resp.topics.map (·.atVersion apiVersion)⟩

/-- Every length of the response is within its length field: the name of a topic
in 16 bits, the numbers of topics and partitions and the size of the records in
32, each with a sign. -/
structure FetchResponse.Fits (resp : FetchResponse) : Prop where
  topics : resp.topics.length < 2 ^ 31
  names : ∀ t ∈ resp.topics, t.name.length < 2 ^ 15
  partitions : ∀ t ∈ resp.topics, t.partitions.length < 2 ^ 31
  records : ∀ t ∈ resp.topics, ∀ p ∈ t.partitions, (p.records.getD []).length < 2 ^ 31

namespace Decoder

/-! ## Reading a response back -/

theorem reads_skipAborted : cursor.Reads skipAborted (putArrayLen (-1)) () :=
  (reads_readArray_neg _ (by decide)).return

theorem reads_decodeFetchPartition (apiVersion : Int16) (p : FetchResponsePartition)
    (hrecords : (p.records.getD []).length < 2 ^ 31) :
    cursor.Reads (decodeFetchPartition apiVersion) (encodeFetchPartition apiVersion p)
      (p.atVersion apiVersion) := by
  refine (reads_int32 _).bind ((reads_int16 _).bind ((reads_int64 _).bind ?_))
  refine (reads_readSince 4 apiVersion 0 (reads_int64 p.lastStableOffset)).bind ?_
  refine (reads_readSince 5 apiVersion 0 (reads_int64 p.logStartOffset)).bind ?_
  refine (reads_readSince 4 apiVersion () reads_skipAborted).bind ?_
  refine (reads_readSince 11 apiVersion 0 (reads_int32 p.preferredReadReplica)).bind ?_
  refine (reads_nullableBytes (some (p.records.getD [])) ?_).return
  rintro b ⟨⟩
  exact hrecords

theorem reads_decodeFetchTopic (apiVersion : Int16) (t : FetchResponseTopic)
    (hname : t.name.length < 2 ^ 15) (hparts : t.partitions.length < 2 ^ 31)
    (hrecords : ∀ p ∈ t.partitions, (p.records.getD []).length < 2 ^ 31) :
    cursor.Reads (decodeFetchTopic apiVersion) (encodeFetchTopic apiVersion t)
      (t.atVersion apiVersion) := by
  refine (reads_string t.name hname).bind ?_
  have harray := reads_readArray hparts fun p hp =>
    reads_decodeFetchPartition apiVersion p (hrecords p hp)
  exact harray.return

theorem reads_decodeFetchBody (apiVersion : Int16) (resp : FetchResponse) (h : resp.Fits) :
    cursor.Reads (decodeFetchBody apiVersion) (encodeFetchResponse resp apiVersion)
      (resp.atVersion apiVersion) := by
  refine (reads_readSince 1 apiVersion 0 (reads_int32 resp.throttleTimeMs)).bind ?_
  refine (reads_readSince 7 apiVersion 0 (reads_int16 resp.errorCode)).bind ?_
  refine (reads_readSince 7 apiVersion 0 (reads_int32 resp.sessionID)).bind ?_
  have harray := reads_readArray h.topics fun t ht =>
    reads_decodeFetchTopic apiVersion t (h.names t ht) (h.partitions t ht) (h.records t ht)
  exact harray.return

end Decoder

end MessageBroker.Protocol
