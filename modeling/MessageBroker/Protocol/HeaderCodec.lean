import MessageBroker.Protocol.Header
import MessageBroker.Protocol.Compact

/-!
# Headers written and read back

A client encodes a request header and parses a response header; a server does the
other two. Whether a header ends with tagged fields is decided from the API key and
version, on each side and for each direction.
-/
namespace MessageBroker.Protocol

open Lib.Bytes Lib.Varint Lib.Cursors

def encodeRequestHeader (apiKey apiVersion : Int16) (correlationID : Int32)
    (clientID : Option ByteString) : ByteString :=
  let headerVersion := requestHeaderVersion apiKey apiVersion
  putInt16 apiKey ++ (putInt16 apiVersion ++ (putInt32 correlationID ++
    ((if 1 ≤ headerVersion then putNullableString clientID else []) ++
      (if 2 ≤ headerVersion then putTaggedFields else []))))

/-- An `ApiVersions` response never has tagged fields in its header. -/
def responseHeaderVersion (apiKey apiVersion : Int16) : Int16 :=
  if apiKey = apiKeyApiVersions then 0
  else if apiKey = apiKeyProduce then if 9 ≤ apiVersion then 1 else 0
  else if apiKey = apiKeyFetch then if 12 ≤ apiVersion then 1 else 0
  else if apiKey = apiKeyMetadata then if 9 ≤ apiVersion then 1 else 0
  else if apiKey = apiKeyOffsetsForLeaderEpoch then if 4 ≤ apiVersion then 1 else 0
  else 0

/-- `WriteResponseHeader`. -/
def writeResponseHeader (correlationID : Int32) (apiKey apiVersion : Int16) : ByteString :=
  putInt32 correlationID ++
    (if 1 ≤ responseHeaderVersion apiKey apiVersion then putTaggedFields else [])

open Decoder in
/-- `ParseResponseHeader` up to its check of the decoder's error. -/
def readResponseHeader (apiKey apiVersion : Int16) : Decode Int32 := do
  let correlationID ← int32
  if 1 ≤ responseHeaderVersion apiKey apiVersion then discardTaggedFields
  return correlationID

open Decoder in
/-- `ParseResponseHeader`, with the decoder it leaves. -/
def parseResponseHeader (msg : ByteString) (apiKey apiVersion : Int16) :
    Except Panic (Except DecodeError (Int32 × ByteString) × Decoder) :=
  (do
    let correlationID ← readResponseHeader apiKey apiVersion
    match ← error with
    | some e => return .error e
    | none => return .ok (correlationID, ← sliceFrom) :
    Decode (Except DecodeError (Int32 × ByteString))) (newDecoder msg)

namespace Decoder

theorem one_le_requestHeaderVersion (apiKey apiVersion : Int16) :
    1 ≤ requestHeaderVersion apiKey apiVersion := by
  rcases requestHeaderVersion_cases apiKey apiVersion with h | h
  · rw [h]
    decide
  · rw [h]
    decide

/-! ## The fields of a header -/

theorem reads_readHeader (apiKey apiVersion : Int16) (correlationID : Int32)
    (clientID : Option ByteString) (hid : ∀ s, clientID = some s → s.length < 2 ^ 15) :
    cursor.Reads readHeader
      (putInt16 apiKey ++ (putInt16 apiVersion ++ (putInt32 correlationID ++
        putNullableString clientID)))
      ⟨apiKey, apiVersion, correlationID, clientID⟩ := by
  refine (reads_int16 _).bind ((reads_int16 _).bind ((reads_int32 _).bind ?_))
  simp only [if_pos (one_le_requestHeaderVersion apiKey apiVersion)]
  exact (reads_nullableString clientID hid).return

theorem reads_readResponseHeader (correlationID : Int32) (apiKey apiVersion : Int16) :
    cursor.Reads (readResponseHeader apiKey apiVersion)
      (writeResponseHeader correlationID apiKey apiVersion) correlationID := by
  refine (reads_int32 correlationID).bind ?_
  by_cases hv : 1 ≤ responseHeaderVersion apiKey apiVersion
  · simp only [if_pos hv]
    exact (reads_discardNoFields.bind (Cursor.reads_pure correlationID)).of_eq
      (List.append_nil _).symm
  · simp only [if_neg hv]
    exact Cursor.reads_pure correlationID

end Decoder

/-! ## Headers round trip -/

section RoundTrip

open Decoder

variable {d : Decoder} {p : Nat} {body : ByteString}

theorem headerAndBody_stands (header : RequestHeader) (hs : cursor.stands d p body) :
    headerAndBody header d = .ok (.ok (header, body), d) := by
  have hget : (get : Decode Decoder) d = .ok (d, d) := rfl
  unfold headerAndBody
  rw [bind_ok hget, hs.1]
  simp only
  rw [bind_ok (sliceFrom_stands hs)]
  rfl

theorem finishHeader_stands (headerVersion : Int16) (header : RequestHeader)
    (hs : cursor.stands d p ((if 2 ≤ headerVersion then putTaggedFields else []) ++ body))
    (hlt : p + 1 < 2 ^ 63) :
    ∃ d', finishHeader headerVersion header d = .ok (.ok (header, body), d') := by
  unfold finishHeader
  by_cases hv : 2 ≤ headerVersion
  · rw [if_pos hv] at hs
    obtain ⟨d', hdiscard, hs'⟩ := reads_discardNoFields d p body hs hlt
    simp only [if_pos hv]
    exact ⟨d', (bind_ok hdiscard).trans (headerAndBody_stands header hs')⟩
  · rw [if_neg hv] at hs
    simp only [if_neg hv]
    exact ⟨d, headerAndBody_stands header hs⟩

theorem encodeRequestHeader_eq (apiKey apiVersion : Int16) (correlationID : Int32)
    (clientID : Option ByteString) :
    encodeRequestHeader apiKey apiVersion correlationID clientID =
      (putInt16 apiKey ++ (putInt16 apiVersion ++ (putInt32 correlationID ++
        putNullableString clientID))) ++
      (if 2 ≤ requestHeaderVersion apiKey apiVersion then putTaggedFields else []) := by
  simp only [encodeRequestHeader, if_pos (one_le_requestHeaderVersion apiKey apiVersion),
    List.append_assoc]

theorem length_putNullableString_le (o : Option ByteString)
    (h : ∀ s, o = some s → s.length < 2 ^ 15) : (putNullableString o).length < 2 + 2 ^ 15 := by
  cases o with
  | none => decide
  | some s =>
    rw [putNullableString, putString, List.length_append, putInt16, length_beBytes]
    have hs := h s rfl
    omega

/-- What follows the header is the body, whatever it is. -/
theorem parseRequestHeader_encode (apiKey apiVersion : Int16) (correlationID : Int32)
    (clientID : Option ByteString) (body : ByteString)
    (hid : ∀ s, clientID = some s → s.length < 2 ^ 15) :
    ∃ d, parseRequestHeader (encodeRequestHeader apiKey apiVersion correlationID clientID ++ body) =
      .ok (.ok (⟨apiKey, apiVersion, correlationID, clientID⟩, body), d) := by
  have hread := reads_readHeader apiKey apiVersion correlationID clientID hid
  have hshort := length_putNullableString_le clientID hid
  have hlen : (putInt16 apiKey ++ (putInt16 apiVersion ++ (putInt32 correlationID ++
      putNullableString clientID))).length = 8 + (putNullableString clientID).length := by
    simp only [List.length_append, putInt16, putInt32, length_beBytes]
    omega
  rw [encodeRequestHeader_eq, List.append_assoc]
  obtain ⟨d₁, hrun, hs₁⟩ := hread _ 0 _ (stands_newDecoder _) (by
    rw [hlen]
    show _ < 2 ^ 63
    omega)
  obtain ⟨d₂, hfinish⟩ := finishHeader_stands (requestHeaderVersion apiKey apiVersion)
    ⟨apiKey, apiVersion, correlationID, clientID⟩ hs₁ (by omega)
  exact ⟨d₂, (bind_ok hrun).trans hfinish⟩

/-- A response header in front of any body. -/
theorem parseResponseHeader_write (correlationID : Int32) (apiKey apiVersion : Int16)
    (body : ByteString) :
    ∃ d, parseResponseHeader (writeResponseHeader correlationID apiKey apiVersion ++ body)
      apiKey apiVersion = .ok (.ok (correlationID, body), d) := by
  have hlen : (writeResponseHeader correlationID apiKey apiVersion).length ≤ 5 := by
    rw [writeResponseHeader, List.length_append, putInt32, length_beBytes]
    split
    · decide
    · decide
  obtain ⟨d, hrun, hs⟩ := reads_readResponseHeader correlationID apiKey apiVersion _ 0 body
    (stands_newDecoder _) (by
      show _ < 2 ^ 63
      omega)
  refine ⟨d, ?_⟩
  unfold parseResponseHeader
  rw [bind_ok hrun, bind_ok (error_ok hs)]
  simp only
  rw [bind_ok (sliceFrom_stands hs)]
  rfl

end RoundTrip

end MessageBroker.Protocol
