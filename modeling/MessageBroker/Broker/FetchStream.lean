import MessageBroker.Server.Response
import MessageBroker.Protocol.Fetch

/-!
# Streamed fetch responses

The broker does not copy records into a fetch response: `encodeFetchStreamResponse`
puts the other fields into byte parts and, between them, the ranges of the segment
files. Its field layout is written a second time, apart from `EncodeFetchResponse`.
What the parts write is compared here with the plain encoding, and the plain
encoding with what a follower decodes.
-/
namespace MessageBroker.Broker

open Lib.Bytes Lib.Cursors Protocol Server

structure FetchStreamPartition (φ : Type) where
  index : Int32
  errorCode : Int16
  highWatermark : Int64
  lastStableOffset : Int64
  logStartOffset : Int64
  preferredReadReplica : Int32
  recordsSize : Int64
  ranges : List (OpenRange φ)
  deriving DecidableEq

structure FetchStreamTopic (φ : Type) where
  name : ByteString
  partitions : List (FetchStreamPartition φ)
  deriving DecidableEq

structure FetchStreamResponse (φ : Type) where
  throttleTimeMs : Int32
  errorCode : Int16
  sessionID : Int32
  topics : List (FetchStreamTopic φ)
  deriving DecidableEq

inductive StreamPanic
  | recordsSizeOutOfRange (recordsSize : Int64)
  deriving DecidableEq

variable {φ : Type}

/-! ## The encoder -/

/-- The finished parts and the encoder `e` that fills the next one. -/
structure StreamEncoder (φ : Type) where
  parts : List (ResponsePart φ)
  e : ByteString

namespace StreamEncoder

def put (s : StreamEncoder φ) (b : ByteString) : StreamEncoder φ := { s with e := s.e ++ b }

def putSince (since apiVersion : Int16) (s : StreamEncoder φ) (b : ByteString) : StreamEncoder φ :=
  if since ≤ apiVersion then s.put b else s

def flush (s : StreamEncoder φ) : StreamEncoder φ :=
  if s.e.length = 0 then s else ⟨s.parts ++ [.bytesPart s.e], []⟩

def addFiles (s : StreamEncoder φ) (ranges : List (OpenRange φ)) : StreamEncoder φ :=
  { s with parts := s.parts ++ ranges.map .filePart }

end StreamEncoder

/-- The fields of a partition before the size of its records. -/
def streamFields (apiVersion : Int16) (s : StreamEncoder φ) (p : FetchStreamPartition φ) :
    StreamEncoder φ :=
  let s := ((s.put (putInt32 p.index)).put (putInt16 p.errorCode)).put (putInt64 p.highWatermark)
  let s := s.putSince 4 apiVersion (putInt64 p.lastStableOffset)
  let s := s.putSince 5 apiVersion (putInt64 p.logStartOffset)
  let s := s.putSince 4 apiVersion (putArrayLen (-1))
  s.putSince 11 apiVersion (putInt32 p.preferredReadReplica)

def streamPartition (apiVersion : Int16) (s : StreamEncoder φ) (p : FetchStreamPartition φ) :
    Except StreamPanic (StreamEncoder φ) :=
  let s := streamFields apiVersion s p
  if p.recordsSize < 0 ∨ 2147483647 < p.recordsSize then
    .error (.recordsSizeOutOfRange p.recordsSize)
  else .ok (((s.put (putInt32 p.recordsSize.toInt32)).flush).addFiles p.ranges)

/-- The loop over the partitions of a topic. -/
def streamPartitions (apiVersion : Int16) :
    StreamEncoder φ → List (FetchStreamPartition φ) → Except StreamPanic (StreamEncoder φ)
  | s, [] => .ok s
  | s, p :: ps =>
    match streamPartition apiVersion s p with
    | .error e => .error e
    | .ok s => streamPartitions apiVersion s ps

/-- The loop over the topics. -/
def streamTopics (apiVersion : Int16) :
    StreamEncoder φ → List (FetchStreamTopic φ) → Except StreamPanic (StreamEncoder φ)
  | s, [] => .ok s
  | s, t :: ts =>
    let s := (s.put (putString t.name)).put (putArrayLen (Int32.ofNat t.partitions.length))
    match streamPartitions apiVersion s t.partitions with
    | .error e => .error e
    | .ok s => streamTopics apiVersion s ts

def encodeFetchStreamResponse (resp : FetchStreamResponse φ) (apiVersion : Int16) :
    Except StreamPanic (Response φ) :=
  let s : StreamEncoder φ := ⟨[], []⟩
  let s := s.putSince 1 apiVersion (putInt32 resp.throttleTimeMs)
  let s := s.putSince 7 apiVersion (putInt16 resp.errorCode)
  let s := s.putSince 7 apiVersion (putInt32 resp.sessionID)
  let s := s.put (putArrayLen (Int32.ofNat resp.topics.length))
  match streamTopics apiVersion s resp.topics with
  | .error e => .error e
  | .ok s => .ok (newCompositeResponse s.flush.parts)

/-! ## The plain response it stands for -/

section Plain

variable (content : φ → ByteString)

def FetchStreamPartition.plain (p : FetchStreamPartition φ) : FetchResponsePartition :=
  ⟨p.index, p.errorCode, p.highWatermark, p.lastStableOffset, p.logStartOffset,
    p.preferredReadReplica, some (p.ranges.flatMap (·.bytes content))⟩

def FetchStreamTopic.plain (t : FetchStreamTopic φ) : FetchResponseTopic :=
  ⟨t.name, t.partitions.map (·.plain content)⟩

def FetchStreamResponse.plain (resp : FetchStreamResponse φ) : FetchResponse :=
  ⟨resp.throttleTimeMs, resp.errorCode, resp.sessionID, resp.topics.map (·.plain content)⟩

/-- The ranges lie in their files and `recordsSize` is their total length, below `2^31`. -/
structure FetchStreamPartition.Sized (p : FetchStreamPartition φ) : Prop where
  backed : ∀ r ∈ p.ranges, r.Backed content
  size_eq : p.recordsSize.toInt = (p.ranges.map (·.length)).sum
  lt : (p.ranges.map (·.length)).sum < 2 ^ 31

instance (p : FetchStreamPartition φ) : Decidable (p.Sized content) :=
  decidable_of_iff ((∀ r ∈ p.ranges, r.Backed content) ∧
      p.recordsSize.toInt = (p.ranges.map (·.length)).sum ∧
      (p.ranges.map (·.length)).sum < 2 ^ 31)
    ⟨fun h => ⟨h.1, h.2.1, h.2.2⟩, fun h => ⟨h.backed, h.size_eq, h.lt⟩⟩

/-- The same of every partition, under names of at most 32767 bytes. -/
def FetchStreamResponse.Sized (resp : FetchStreamResponse φ) : Prop :=
  ∀ t ∈ resp.topics, t.name.length ≤ 32767 ∧ ∀ p ∈ t.partitions, p.Sized content

instance (resp : FetchStreamResponse φ) : Decidable (resp.Sized content) :=
  inferInstanceAs (Decidable (∀ t ∈ resp.topics, _ ∧ ∀ p ∈ t.partitions, p.Sized content))

/-- The numbers of topics and of partitions fit the array lengths of the wire. -/
def FetchStreamResponse.Counted (resp : FetchStreamResponse φ) : Prop :=
  resp.topics.length < 2 ^ 31 ∧ ∀ t ∈ resp.topics, t.partitions.length < 2 ^ 31

end Plain

variable {content : φ → ByteString}

theorem length_flatMap_bytes {rs : List (OpenRange φ)} (h : ∀ r ∈ rs, r.Backed content) :
    (rs.flatMap (·.bytes content)).length = (rs.map (·.length)).sum := by
  induction rs with
  | nil => rfl
  | cons r rs ih =>
    have hrest := ih fun r' hr' => h r' (List.mem_cons_of_mem r hr')
    rw [List.flatMap_cons, List.length_append, (h r List.mem_cons_self).length_bytes, hrest,
      List.map_cons, List.sum_cons]

/-! ## What the encoder holds -/

namespace StreamEncoder

/-- The finished parts and the open buffer write `w`. -/
def Holds (content : φ → ByteString) (s : StreamEncoder φ) (w : ByteString) : Prop :=
  ∃ done, writeParts content s.parts = .ok done ∧ w = done ++ s.e

variable {s : StreamEncoder φ} {w : ByteString}

theorem Holds.put (h : s.Holds content w) (b : ByteString) : (s.put b).Holds content (w ++ b) := by
  obtain ⟨done, hdone, rfl⟩ := h
  exact ⟨done, hdone, List.append_assoc done s.e b⟩

theorem Holds.putSince (h : s.Holds content w) (since apiVersion : Int16) (b : ByteString) :
    (s.putSince since apiVersion b).Holds content
      (w ++ (if since ≤ apiVersion then b else [])) := by
  unfold StreamEncoder.putSince
  split
  · exact h.put b
  · rwa [List.append_nil]

theorem flush_e (s : StreamEncoder φ) : s.flush.e = [] := by
  unfold flush
  split
  next hzero => exact List.eq_nil_of_length_eq_zero hzero
  next => rfl

theorem Holds.flush (h : s.Holds content w) : s.flush.Holds content w := by
  obtain ⟨done, hdone, rfl⟩ := h
  unfold StreamEncoder.flush
  split
  next => exact ⟨done, hdone, rfl⟩
  next =>
    have hpart : writeParts content [.bytesPart s.e] = .ok (s.e ++ []) := writeParts_cons rfl rfl
    rw [List.append_nil] at hpart
    exact ⟨done ++ s.e, writeParts_append hdone hpart, (List.append_nil _).symm⟩

/-- Files are added to an encoder whose buffer was flushed. -/
theorem Holds.addFiles (h : s.Holds content w) (he : s.e = []) {ranges : List (OpenRange φ)}
    (hbacked : ∀ r ∈ ranges, r.Backed content) :
    (s.addFiles ranges).Holds content (w ++ ranges.flatMap (·.bytes content)) := by
  obtain ⟨done, hdone, rfl⟩ := h
  refine ⟨_, writeParts_append hdone (writeParts_ranges hbacked), ?_⟩
  show done ++ s.e ++ _ = done ++ _ ++ s.e
  rw [he, List.append_nil, List.append_nil]

end StreamEncoder

open StreamEncoder

variable {s : StreamEncoder φ} {w : ByteString}

theorem FetchStreamPartition.Sized.not_outOfRange {p : FetchStreamPartition φ}
    (h : p.Sized content) : ¬ (p.recordsSize < 0 ∨ 2147483647 < p.recordsSize) := by
  have heq := h.size_eq
  have hlt := h.lt
  have hzero : (0 : Int64).toInt = 0 := rfl
  have hmax : (2147483647 : Int64).toInt = 2147483647 := rfl
  rw [Int64.lt_iff_toInt_lt, Int64.lt_iff_toInt_lt, heq, hzero, hmax]
  omega

theorem FetchStreamPartition.Sized.toInt32_recordsSize {p : FetchStreamPartition φ}
    (h : p.Sized content) :
    p.recordsSize.toInt32 = Int32.ofNat (p.ranges.flatMap (·.bytes content)).length := by
  rw [length_flatMap_bytes h.backed, ← Int32.ofInt_eq_ofNat, ← h.size_eq]
  exact (Int32.ofInt_int64ToInt _).symm

/-- A partition is streamed as it is encoded. -/
theorem streamPartition_holds (apiVersion : Int16) {p : FetchStreamPartition φ}
    (h : s.Holds content w) (hp : p.Sized content) :
    ∃ s', streamPartition apiVersion s p = .ok s' ∧
      s'.Holds content (w ++ encodeFetchPartition apiVersion (p.plain content)) := by
  refine ⟨_, if_neg hp.not_outOfRange, ?_⟩
  have hfields := ((((((h.put (putInt32 p.index)).put (putInt16 p.errorCode)).put
    (putInt64 p.highWatermark)).putSince 4 apiVersion (putInt64 p.lastStableOffset)).putSince 5
    apiVersion (putInt64 p.logStartOffset)).putSince 4 apiVersion (putArrayLen (-1))).putSince 11
    apiVersion (putInt32 p.preferredReadReplica)
  have hall := (hfields.put (putInt32 p.recordsSize.toInt32)).flush.addFiles (flush_e _) hp.backed
  rw [hp.toInt32_recordsSize] at hall ⊢
  simp only [List.append_assoc] at hall
  exact hall

theorem streamPartitions_holds (apiVersion : Int16) {ps : List (FetchStreamPartition φ)}
    (h : s.Holds content w) (hps : ∀ p ∈ ps, p.Sized content) (i : Nat) :
    ∃ s', streamPartitions apiVersion s ps = .ok s' ∧
      s'.Holds content (w ++ writeAll (fun _ => encodeFetchPartition apiVersion) i
        (ps.map (·.plain content))) := by
  induction ps generalizing s w i with
  | nil => exact ⟨s, rfl, by rwa [List.map_nil, writeAll, List.append_nil]⟩
  | cons p ps ih =>
    obtain ⟨s₁, hstep, h₁⟩ := streamPartition_holds apiVersion h (hps p List.mem_cons_self)
    obtain ⟨s₂, hrest, h₂⟩ := ih h₁ (fun q hq => hps q (List.mem_cons_of_mem p hq)) (i + 1)
    refine ⟨s₂, by rw [streamPartitions, hstep]; exact hrest, ?_⟩
    rwa [List.append_assoc] at h₂

theorem streamTopics_holds (apiVersion : Int16) {ts : List (FetchStreamTopic φ)}
    (h : s.Holds content w) (hts : ∀ t ∈ ts, ∀ p ∈ t.partitions, p.Sized content) (i : Nat) :
    ∃ s', streamTopics apiVersion s ts = .ok s' ∧
      s'.Holds content (w ++ writeAll (fun _ => encodeFetchTopic apiVersion) i
        (ts.map (·.plain content))) := by
  induction ts generalizing s w i with
  | nil => exact ⟨s, rfl, by rwa [List.map_nil, writeAll, List.append_nil]⟩
  | cons t ts ih =>
    have hhead := (h.put (putString t.name)).put (putArrayLen (Int32.ofNat t.partitions.length))
    obtain ⟨s₁, hstep, h₁⟩ := streamPartitions_holds apiVersion hhead
      (hts t List.mem_cons_self) 0
    obtain ⟨s₂, hrest, h₂⟩ := ih h₁ (fun t' ht' => hts t' (List.mem_cons_of_mem t ht')) (i + 1)
    refine ⟨s₂, by rw [streamTopics, hstep]; exact hrest, ?_⟩
    have htopic : encodeFetchTopic apiVersion (t.plain content) = putString t.name ++
        (putArrayLen (Int32.ofNat t.partitions.length) ++
          writeAll (fun _ => encodeFetchPartition apiVersion) 0
            (t.partitions.map (·.plain content))) := by
      rw [encodeFetchTopic, FetchStreamTopic.plain, List.length_map]
    rw [List.map_cons, writeAll, htopic]
    simpa only [List.append_assoc] using h₂

/-- The streamed response writes the plain encoding, and announces its size. -/
theorem encodeFetchStreamResponse_eq (resp : FetchStreamResponse φ) (apiVersion : Int16)
    (h : resp.Sized content) :
    ∃ r, encodeFetchStreamResponse resp apiVersion = .ok r ∧
      r.writeBodyTo content = .ok (encodeFetchResponse (resp.plain content) apiVersion) ∧
      r.bodySize = Int64.ofNat (encodeFetchResponse (resp.plain content) apiVersion).length := by
  have hstart : (⟨[], []⟩ : StreamEncoder φ).Holds content [] := ⟨[], rfl, rfl⟩
  have hhead := (((hstart.putSince 1 apiVersion (putInt32 resp.throttleTimeMs)).putSince 7
    apiVersion (putInt16 resp.errorCode)).putSince 7 apiVersion (putInt32 resp.sessionID)).put
    (putArrayLen (Int32.ofNat resp.topics.length))
  obtain ⟨s, hrun, hs⟩ := streamTopics_holds apiVersion hhead
    (fun t ht => (h t ht).2) 0
  obtain ⟨done, hdone, hall⟩ := hs.flush
  rw [flush_e, List.append_nil] at hall
  have hplain : encodeFetchResponse (resp.plain content) apiVersion = done := by
    rw [← hall, encodeFetchResponse, FetchStreamResponse.plain, List.length_map]
    simp only [List.nil_append, List.append_assoc]
  rw [hplain]
  refine ⟨newCompositeResponse s.flush.parts, ?_, hdone, bodySize_newCompositeResponse hdone⟩
  rw [encodeFetchStreamResponse]
  simp only [hrun]

theorem FetchStreamResponse.Sized.fits {resp : FetchStreamResponse φ} (h : resp.Sized content)
    (hcount : resp.Counted) : (resp.plain content).Fits where
  topics := by
    rw [FetchStreamResponse.plain, List.length_map]
    exact hcount.1
  names t' ht' := by
    obtain ⟨t, ht, rfl⟩ := List.mem_map.mp ht'
    exact Nat.lt_succ_of_le (h t ht).1
  partitions t' ht' := by
    obtain ⟨t, ht, rfl⟩ := List.mem_map.mp ht'
    rw [FetchStreamTopic.plain, List.length_map]
    exact hcount.2 t ht
  records t' ht' p' hp' := by
    obtain ⟨t, ht, rfl⟩ := List.mem_map.mp ht'
    obtain ⟨p, hp, rfl⟩ := List.mem_map.mp hp'
    have hsized := (h t ht).2 p hp
    show (p.ranges.flatMap (·.bytes content)).length < 2 ^ 31
    rw [length_flatMap_bytes hsized.backed]
    exact hsized.lt

/-! ## What a follower decodes -/

/-- The parts of a streamed response write exactly the plain encoding of its response
and announce its size; and where the numbers of topics and partitions fit the
arrays of the wire, the plain encoding decodes to the response it was made of, with
the fields its version lacks at zero. A byte slice is shorter than `2^63`. -/
theorem streamed_response_decodes (resp : FetchStreamResponse φ) (apiVersion : Int16)
    (h : resp.Sized content)
    (hslice : (encodeFetchResponse (resp.plain content) apiVersion).length < 2 ^ 63) :
    ∃ r, encodeFetchStreamResponse resp apiVersion = .ok r ∧
      r.writeBodyTo content = .ok (encodeFetchResponse (resp.plain content) apiVersion) ∧
      r.bodySize.toInt = (encodeFetchResponse (resp.plain content) apiVersion).length ∧
      (resp.Counted → ∃ d,
        decodeFetchResponse (encodeFetchResponse (resp.plain content) apiVersion) apiVersion =
          .ok (.ok ((resp.plain content).atVersion apiVersion), d)) := by
  obtain ⟨r, hencode, hbody, hsize⟩ := encodeFetchStreamResponse_eq resp apiVersion h
  refine ⟨r, hencode, hbody, ?_, fun hcount => ?_⟩
  · rw [hsize]
    exact Int64.toInt_ofNat_of_lt hslice
  · have hread := Decoder.reads_decodeFetchBody apiVersion _ (h.fits hcount)
    obtain ⟨d, hd, -⟩ := Decoder.decodeWhole_of_reads hread hslice
    exact ⟨d, hd⟩

def sampleFiles (file : Nat) : ByteString := [UInt8.ofNat file, 11, 12, 13]

/-- A partition with records from two files, and one that answers with an error. -/
def sampleStream : FetchStreamResponse Nat :=
  ⟨7, 0, 0, [⟨[116], [⟨0, 0, 5, 5, 2, -1, 3, [⟨0, 1, 2⟩, ⟨9, 0, 1⟩]⟩,
    ⟨1, 3, -1, -1, -1, -1, 0, []⟩]⟩]⟩

theorem streamed_response_decodes_sampleStream :
    ∃ r d, encodeFetchStreamResponse sampleStream 5 = .ok r ∧
      r.writeBodyTo sampleFiles = .ok (encodeFetchResponse (sampleStream.plain sampleFiles) 5) ∧
      r.bodySize.toInt = (encodeFetchResponse (sampleStream.plain sampleFiles) 5).length ∧
      decodeFetchResponse (encodeFetchResponse (sampleStream.plain sampleFiles) 5) 5 =
        .ok (.ok ⟨7, 0, 0, [⟨[116], [⟨0, 0, 5, 5, 2, 0, some [11, 12, 9]⟩,
          ⟨1, 3, -1, -1, -1, 0, some []⟩]⟩]⟩, d) := by
  obtain ⟨r, hencode, hbody, hsize, hdecode⟩ := streamed_response_decodes sampleStream 5
    (show sampleStream.Sized sampleFiles by decide +kernel) (by decide +kernel)
  obtain ⟨d, hd⟩ := hdecode ⟨by decide, by decide⟩
  exact ⟨r, d, hencode, hbody, hsize, hd⟩

/-! ## More topics than an array length counts -/

/-- `n` topics without a partition. -/
def crowdedStream (n : Nat) : FetchStreamResponse Nat := ⟨0, 0, 0, List.replicate n ⟨[], []⟩⟩

section Crowded

variable (n : Nat)

theorem crowdedStream_sized : (crowdedStream n).Sized sampleFiles := by
  intro t ht
  rw [List.eq_of_mem_replicate ht]
  exact ⟨Nat.zero_le _, by rintro p ⟨⟩⟩

theorem plain_crowdedStream :
    (crowdedStream n).plain sampleFiles = ⟨0, 0, 0, List.replicate n ⟨[], []⟩⟩ := by
  rw [crowdedStream, FetchStreamResponse.plain, List.map_replicate]
  rfl

theorem length_writeAll_replicate (t : FetchResponseTopic) (apiVersion : Int16) (i : Nat) :
    (writeAll (fun _ => encodeFetchTopic apiVersion) i (List.replicate n t)).length =
      n * (encodeFetchTopic apiVersion t).length := by
  induction n generalizing i with
  | zero => exact (Nat.zero_mul _).symm
  | succ n ih =>
    rw [List.replicate_succ, writeAll, List.length_append, ih (i + 1), Nat.succ_mul, Nat.add_comm]

/-- The throttle time, the number of topics and the topics. -/
theorem encode_crowdedStream :
    encodeFetchResponse ((crowdedStream n).plain sampleFiles) 4 =
      (putInt32 0 ++ putArrayLen (Int32.ofNat n)) ++
        writeAll (fun _ => encodeFetchTopic 4) 0 (List.replicate n ⟨[], []⟩) := by
  rw [plain_crowdedStream, encodeFetchResponse, List.length_replicate, List.append_assoc,
    if_pos (by decide), if_neg (by decide), if_neg (by decide), List.nil_append, List.nil_append]

/-- Each of the topics takes six bytes. -/
theorem length_encode_crowdedStream :
    (encodeFetchResponse ((crowdedStream n).plain sampleFiles) 4).length = 8 + n * 6 := by
  rw [encode_crowdedStream, List.length_append, length_writeAll_replicate]
  rfl

/-- A number of topics that is negative as an `int32` is read as none. -/
theorem decode_crowdedStream (hn : Int32.ofNat n < 0) :
    ∃ d, decodeFetchResponse (encodeFetchResponse ((crowdedStream n).plain sampleFiles) 4) 4 =
      .ok (.ok ⟨0, 0, 0, []⟩, d) := by
  have hread : Decoder.cursor.Reads (decodeFetchBody 4)
      (putInt32 0 ++ putArrayLen (Int32.ofNat n)) ⟨0, 0, 0, []⟩ := by
    refine (Decoder.reads_int32 0).bind ?_
    exact (Decoder.reads_readArray_neg (decodeFetchTopic 4) hn).return
  rw [encode_crowdedStream]
  have hlt : (putInt32 0 ++ putArrayLen (Int32.ofNat n)).length < 2 ^ 63 := by
    rw [List.length_append]
    show 4 + 4 < 2 ^ 63
    decide
  obtain ⟨d, hd, -⟩ := Decoder.decodeWhole_append hread hlt _
  exact ⟨d, hd⟩

theorem topics_crowdedStream :
    (((crowdedStream n).plain sampleFiles).atVersion 4).topics.length = n := by
  rw [plain_crowdedStream, FetchResponse.atVersion, List.length_map, List.length_replicate]

end Crowded

/-- `2^31` topics are written under a negative length, and a follower reads none. -/
theorem crowded_response_decodes_empty :
    (crowdedStream (2 ^ 31)).Sized sampleFiles ∧
    (encodeFetchResponse ((crowdedStream (2 ^ 31)).plain sampleFiles) 4).length < 2 ^ 63 ∧
    (∃ d, decodeFetchResponse
        (encodeFetchResponse ((crowdedStream (2 ^ 31)).plain sampleFiles) 4) 4 =
      .ok (.ok ⟨0, 0, 0, []⟩, d)) ∧
    (((crowdedStream (2 ^ 31)).plain sampleFiles).atVersion 4).topics.length = 2 ^ 31 := by
  refine ⟨crowdedStream_sized _, ?_, decode_crowdedStream _ (by decide), topics_crowdedStream _⟩
  rw [length_encode_crowdedStream]
  decide

end MessageBroker.Broker
