import MessageBroker.Protocol.Wire

/-!
# Fetch requests

A follower encodes the request and the leader decodes it. Each side has its own copy
of the version conditions; a field that the version lacks gets a default, which is
not always zero.
-/
namespace MessageBroker.Protocol

open Lib.Bytes Lib.Cursors

structure FetchRequestPartition where
  index : Int32
  currentLeaderEpoch : Int32
  fetchOffset : Int64
  logStartOffset : Int64
  maxBytes : Int32
  deriving DecidableEq

structure FetchRequestTopic where
  name : ByteString
  partitions : List FetchRequestPartition
  deriving DecidableEq

structure FetchForgottenTopic where
  name : ByteString
  partitions : List Int32
  deriving DecidableEq

structure FetchRequest where
  replicaID : Int32
  maxWaitMs : Int32
  minBytes : Int32
  maxBytes : Int32
  isolationLevel : Int8
  sessionID : Int32
  sessionEpoch : Int32
  topics : List FetchRequestTopic
  forgottenTopics : List FetchForgottenTopic
  rackID : ByteString
  deriving DecidableEq

/-! ## Encoding -/

def encodeFetchRequestPartition (apiVersion : Int16) (p : FetchRequestPartition) : ByteString :=
  putInt32 p.index ++ ((if 9 ≤ apiVersion then putInt32 p.currentLeaderEpoch else []) ++
    (putInt64 p.fetchOffset ++ ((if 5 ≤ apiVersion then putInt64 p.logStartOffset else []) ++
      putInt32 p.maxBytes)))

def encodeFetchRequestTopic (apiVersion : Int16) (t : FetchRequestTopic) : ByteString :=
  putString t.name ++ (putArrayLen (Int32.ofNat t.partitions.length) ++
    writeAll (fun _ => encodeFetchRequestPartition apiVersion) 0 t.partitions)

def encodeForgottenTopic (ft : FetchForgottenTopic) : ByteString :=
  putString ft.name ++ (putArrayLen (Int32.ofNat ft.partitions.length) ++
    writeAll (fun _ => putInt32) 0 ft.partitions)

def encodeForgottenTopics (fts : List FetchForgottenTopic) : ByteString :=
  putArrayLen (Int32.ofNat fts.length) ++ writeAll (fun _ => encodeForgottenTopic) 0 fts

def encodeFetchRequest (req : FetchRequest) (apiVersion : Int16) : ByteString :=
  putInt32 req.replicaID ++ (putInt32 req.maxWaitMs ++ (putInt32 req.minBytes ++
    ((if 3 ≤ apiVersion then putInt32 req.maxBytes else []) ++
      ((if 4 ≤ apiVersion then putInt8 req.isolationLevel else []) ++
        ((if 7 ≤ apiVersion then putInt32 req.sessionID else []) ++
          ((if 7 ≤ apiVersion then putInt32 req.sessionEpoch else []) ++
            ((putArrayLen (Int32.ofNat req.topics.length) ++
              writeAll (fun _ => encodeFetchRequestTopic apiVersion) 0 req.topics) ++
              ((if 7 ≤ apiVersion then encodeForgottenTopics req.forgottenTopics else []) ++
                (if 11 ≤ apiVersion then putString req.rackID else [])))))))))

/-! ## Decoding -/

section Decoding

open Decoder

def decodeFetchRequestPartition (apiVersion : Int16) : Decode FetchRequestPartition := do
  let index ← int32
  let currentLeaderEpoch ← readSince 9 apiVersion (-1) int32
  let fetchOffset ← int64
  let logStartOffset ← readSince 5 apiVersion (-1) int64
  let maxBytes ← int32
  return ⟨index, currentLeaderEpoch, fetchOffset, logStartOffset, maxBytes⟩

def decodeFetchRequestTopic (apiVersion : Int16) : Decode FetchRequestTopic := do
  let name ← string
  let partitions ← readArray (decodeFetchRequestPartition apiVersion)
  return ⟨name, partitions⟩

def decodeForgottenTopic : Decode FetchForgottenTopic := do
  let name ← string
  let partitions ← readArray int32
  return ⟨name, partitions⟩

/-- `DecodeFetchRequest` up to its check of the decoder's error. -/
def decodeFetchRequestBody (apiVersion : Int16) : Decode FetchRequest := do
  let replicaID ← int32
  let maxWaitMs ← int32
  let minBytes ← int32
  let maxBytes ← readSince 3 apiVersion 0x7fffffff int32
  let isolationLevel ← readSince 4 apiVersion 0 int8
  let sessionID ← readSince 7 apiVersion 0 int32
  let sessionEpoch ← readSince 7 apiVersion (-1) int32
  let topics ← readArray (decodeFetchRequestTopic apiVersion)
  let forgottenTopics ← readSince 7 apiVersion [] (readArray decodeForgottenTopic)
  let rackID ← readSince 11 apiVersion [] string
  return ⟨replicaID, maxWaitMs, minBytes, maxBytes, isolationLevel, sessionID, sessionEpoch,
    topics, forgottenTopics, rackID⟩

def decodeFetchRequest (body : ByteString) (apiVersion : Int16) :
    Except Panic (Except DecodeError FetchRequest × Decoder) :=
  decodeWhole (decodeFetchRequestBody apiVersion) body

end Decoding

/-! ## What a version carries -/

def FetchRequestPartition.atVersion (apiVersion : Int16) (p : FetchRequestPartition) :
    FetchRequestPartition :=
  { p with
    currentLeaderEpoch := if 9 ≤ apiVersion then p.currentLeaderEpoch else -1
    logStartOffset := if 5 ≤ apiVersion then p.logStartOffset else -1 }

def FetchRequestTopic.atVersion (apiVersion : Int16) (t : FetchRequestTopic) : FetchRequestTopic :=
  { t with partitions := t.partitions.map (·.atVersion apiVersion) }

/-- The request with the fields its version lacks at their defaults. -/
def FetchRequest.atVersion (apiVersion : Int16) (req : FetchRequest) : FetchRequest :=
  { req with
    maxBytes := if 3 ≤ apiVersion then req.maxBytes else 0x7fffffff
    isolationLevel := if 4 ≤ apiVersion then req.isolationLevel else 0
    sessionID := if 7 ≤ apiVersion then req.sessionID else 0
    sessionEpoch := if 7 ≤ apiVersion then req.sessionEpoch else -1
    topics := req.topics.map (·.atVersion apiVersion)
    forgottenTopics := if 7 ≤ apiVersion then req.forgottenTopics else []
    rackID := if 11 ≤ apiVersion then req.rackID else [] }

/-- Names and the rack id of at most 32767 bytes, and arrays of fewer than `2^31`
items. -/
structure FetchRequest.Fits (req : FetchRequest) : Prop where
  topics : req.topics.length < 2 ^ 31
  names : ∀ t ∈ req.topics, t.name.length ≤ 32767
  partitions : ∀ t ∈ req.topics, t.partitions.length < 2 ^ 31
  forgotten : req.forgottenTopics.length < 2 ^ 31
  forgottenNames : ∀ ft ∈ req.forgottenTopics, ft.name.length ≤ 32767
  forgottenPartitions : ∀ ft ∈ req.forgottenTopics, ft.partitions.length < 2 ^ 31
  rack : req.rackID.length ≤ 32767

namespace Decoder

/-! ## Reading a request back -/

theorem reads_decodeFetchRequestPartition (apiVersion : Int16) (p : FetchRequestPartition) :
    cursor.Reads (decodeFetchRequestPartition apiVersion)
      (encodeFetchRequestPartition apiVersion p) (p.atVersion apiVersion) := by
  refine (reads_int32 p.index).bind ?_
  refine (reads_readSince 9 apiVersion (-1) (reads_int32 p.currentLeaderEpoch)).bind ?_
  refine (reads_int64 p.fetchOffset).bind ?_
  refine (reads_readSince 5 apiVersion (-1) (reads_int64 p.logStartOffset)).bind ?_
  exact (reads_int32 p.maxBytes).return

theorem reads_decodeFetchRequestTopic (apiVersion : Int16) (t : FetchRequestTopic)
    (hname : t.name.length ≤ 32767) (hparts : t.partitions.length < 2 ^ 31) :
    cursor.Reads (decodeFetchRequestTopic apiVersion) (encodeFetchRequestTopic apiVersion t)
      (t.atVersion apiVersion) := by
  refine (reads_string t.name (Nat.lt_succ_of_le hname)).bind ?_
  exact (reads_readArray hparts fun p _ => reads_decodeFetchRequestPartition apiVersion p).return

theorem reads_decodeForgottenTopic (ft : FetchForgottenTopic) (hname : ft.name.length ≤ 32767)
    (hparts : ft.partitions.length < 2 ^ 31) :
    cursor.Reads decodeForgottenTopic (encodeForgottenTopic ft) ft := by
  refine (reads_string ft.name (Nat.lt_succ_of_le hname)).bind ?_
  have hids := reads_readArray (g := id) hparts fun i _ => reads_int32 i
  rw [List.map_id] at hids
  exact hids.return

theorem reads_forgottenTopics {fts : List FetchForgottenTopic} (hlen : fts.length < 2 ^ 31)
    (hname : ∀ ft ∈ fts, ft.name.length ≤ 32767)
    (hparts : ∀ ft ∈ fts, ft.partitions.length < 2 ^ 31) :
    cursor.Reads (readArray decodeForgottenTopic) (encodeForgottenTopics fts) fts := by
  have harray := reads_readArray (g := id) hlen fun ft hft =>
    reads_decodeForgottenTopic ft (hname ft hft) (hparts ft hft)
  rwa [List.map_id] at harray

theorem reads_decodeFetchRequestBody (apiVersion : Int16) (req : FetchRequest) (h : req.Fits) :
    cursor.Reads (decodeFetchRequestBody apiVersion) (encodeFetchRequest req apiVersion)
      (req.atVersion apiVersion) := by
  refine (reads_int32 req.replicaID).bind ((reads_int32 req.maxWaitMs).bind ?_)
  refine (reads_int32 req.minBytes).bind ?_
  refine (reads_readSince 3 apiVersion 0x7fffffff (reads_int32 req.maxBytes)).bind ?_
  refine (reads_readSince 4 apiVersion 0 (reads_int8 req.isolationLevel)).bind ?_
  refine (reads_readSince 7 apiVersion 0 (reads_int32 req.sessionID)).bind ?_
  refine (reads_readSince 7 apiVersion (-1) (reads_int32 req.sessionEpoch)).bind ?_
  refine (reads_readArray h.topics fun t ht =>
    reads_decodeFetchRequestTopic apiVersion t (h.names t ht) (h.partitions t ht)).bind ?_
  refine (reads_readSince 7 apiVersion [] (reads_forgottenTopics h.forgotten h.forgottenNames
    h.forgottenPartitions)).bind ?_
  exact (reads_readSince 11 apiVersion [] (reads_string req.rackID
    (Nat.lt_succ_of_le h.rack))).return

end Decoder

/-- An encoded fetch request decodes, to its last byte, to the request with the fields
its version lacks at their defaults. A byte slice is shorter than `2^63`. -/
theorem fetch_request_round_trips (req : FetchRequest) (apiVersion : Int16) (h : req.Fits)
    (hslice : (encodeFetchRequest req apiVersion).length < 2 ^ 63) :
    ∃ d, decodeFetchRequest (encodeFetchRequest req apiVersion) apiVersion =
        .ok (.ok (req.atVersion apiVersion), d) ∧
      d.pos = (encodeFetchRequest req apiVersion).length :=
  Decoder.decodeWhole_of_reads (Decoder.reads_decodeFetchRequestBody apiVersion req h) hslice

def sampleFetchRequest : FetchRequest :=
  ⟨2, 500, 1, 1048576, 1, 9, 4, [⟨[97], [⟨0, 3, 12, 1, 4096⟩, ⟨1, 3, 0, 0, 0⟩]⟩, ⟨[], []⟩],
    [⟨[98], [7]⟩], [114]⟩

theorem fetch_request_round_trips_sampleFetchRequest :
    ∃ d, decodeFetchRequest (encodeFetchRequest sampleFetchRequest 6) 6 =
        .ok (.ok ⟨2, 500, 1, 1048576, 1, 0, -1,
          [⟨[97], [⟨0, -1, 12, 1, 4096⟩, ⟨1, -1, 0, 0, 0⟩]⟩, ⟨[], []⟩], [], []⟩, d) ∧
      d.pos = (encodeFetchRequest sampleFetchRequest 6).length :=
  fetch_request_round_trips sampleFetchRequest 6
    ⟨by decide, by decide, by decide, by decide, by decide, by decide, by decide⟩
    (by decide +kernel)

end MessageBroker.Protocol
