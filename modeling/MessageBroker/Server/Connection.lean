import MessageBroker.Server.Response
import MessageBroker.Protocol.HeaderCodec

/-!
# The server's end of a connection

A message on the wire is its size in four bytes and then so many bytes. A connection
is the bytes still to be read from it; reading them in pieces or at once makes no
difference to `io.ReadFull`. `writeResponse` writes the response header by hand, with
the size of the body that the response announces.
-/
namespace MessageBroker.Server

open Lib.Bytes Protocol

variable {φ : Type}

/-- `io.ReadFull`: the next `n` bytes, or `none` when the stream ends before them. -/
def readFull (n : Nat) (stream : ByteString) : Option (ByteString × ByteString) :=
  if n ≤ stream.length then some (stream.take n, stream.drop n) else none

inductive ReadError
  | noSize
  | invalidRequestSize (size maxReqBytes : Int32)
  | messageBody
  deriving DecidableEq

/-- `readMessage`: the message and what is left of the stream. -/
def readMessage (maxReqBytes : Int32) (stream : ByteString) :
    Except ReadError (ByteString × ByteString) :=
  match readFull 4 stream with
  | none => .error .noSize
  | some (sizeBuf, stream) =>
    let size := Int32.ofNat (beNat sizeBuf)
    if size ≤ 0 ∨ maxReqBytes < size then .error (.invalidRequestSize size maxReqBytes)
    else
      match readFull size.toInt.toNat stream with
      | none => .error .messageBody
      | some r => .ok r

/-- `writeResponse`: the bytes it puts on the wire. -/
def writeResponse (content : φ → ByteString) (reqHeader : RequestHeader) (resp : Response φ) :
    Except WriteError ByteString :=
  let respHeaderVersion := responseHeaderVersion reqHeader.apiKey reqHeader.apiVersion
  let headerSize : Int64 := if 1 ≤ respHeaderVersion then 5 else 4
  let totalSize := headerSize + resp.bodySize
  if 4294967295 < totalSize then .error (.responseTooLarge totalSize)
  else
    match resp.writeBodyTo content with
    | .error e => .error e
    | .ok body =>
      .ok (putUint32 totalSize.toUInt64.toUInt32 ++
        (putUint32 reqHeader.correlationID.toUInt32 ++
          ((if 1 ≤ respHeaderVersion then [0] else []) ++ body)))

inductive Closing
  | readError (e : ReadError)
  | badHeader (e : DecodeError)
  | handlerError
  | writeError (e : WriteError)
  deriving DecidableEq

/-- `serve` for so many rounds, with a handler that keeps a state: the responses that were
written whole, and why the connection was closed, if it was. A handler answers nothing to
a request that wants no response. -/
def serve {σ : Type} (content : φ → ByteString) (maxReqBytes : Int32)
    (handle : σ → RequestHeader × ByteString → Option (Option (Response φ)) × σ) :
    Nat → σ → ByteString → Except Panic (ByteString × σ × Option Closing)
  | 0, s, _ => .ok ([], s, none)
  | rounds + 1, s, stream =>
    match readMessage maxReqBytes stream with
    | .error e => .ok ([], s, some (.readError e))
    | .ok (msg, rest) =>
      match parseRequestHeader msg with
      | .error panic => .error panic
      | .ok (.error e, _) => .ok ([], s, some (.badHeader e))
      | .ok (.ok request, _) =>
        match handle s request with
        | (none, s) => .ok ([], s, some .handlerError)
        | (some none, s) => serve content maxReqBytes handle rounds s rest
        | (some (some resp), s) =>
          match writeResponse content request.1 resp with
          | .error e => .ok ([], s, some (.writeError e))
          | .ok written => (serve content maxReqBytes handle rounds s rest).map fun r =>
              (written ++ r.1, r.2)

/-! ## Framing -/

theorem readFull_append {n : Nat} {w : ByteString} (hw : w.length = n) (rest : ByteString) :
    readFull n (w ++ rest) = some (w, rest) := by
  rw [readFull, if_pos (by rw [List.length_append]; omega), List.take_left' hw, List.drop_left' hw]

theorem beNat_putUint32 (v : UInt32) : beNat (putUint32 v) = v.toNat := by
  rw [putUint32, beNat_beBytes]
  exact Nat.mod_eq_of_lt v.toNat_lt

theorem length_putUint32 (v : UInt32) : (putUint32 v).length = 4 := length_beBytes 4 v.toNat

/-- A message under its size is read whole when it is not empty and within the limit. -/
theorem readMessage_framed (maxReqBytes : Int32) {msg : ByteString} (rest : ByteString)
    (hpos : msg ≠ []) (hmax : (msg.length : Int) ≤ maxReqBytes.toInt) :
    readMessage maxReqBytes (putUint32 (UInt32.ofNat msg.length) ++ (msg ++ rest)) =
      .ok (msg, rest) := by
  have hlt : msg.length < 2 ^ 31 := by
    have hle := maxReqBytes.toInt_lt
    omega
  have hint := Int32.toInt_ofNat_of_lt hlt
  have hsize : beNat (putUint32 (UInt32.ofNat msg.length)) = msg.length := by
    rw [beNat_putUint32]
    exact UInt32.toNat_ofNat_of_lt' (hlt.trans (by decide))
  have hlen := List.length_pos_of_ne_nil hpos
  have hvalid : ¬ (Int32.ofNat msg.length ≤ 0 ∨ maxReqBytes < Int32.ofNat msg.length) := by
    rw [Int32.le_iff_toInt_le, Int32.lt_iff_toInt_lt, hint, Int32.toInt_zero]
    omega
  unfold readMessage
  rw [readFull_append (length_putUint32 _)]
  simp only [hsize, if_neg hvalid, hint, Int.toNat_natCast]
  rw [readFull_append rfl]

/-- A response announces the number of bytes it writes. -/
def Response.Writes (content : φ → ByteString) (resp : Response φ) (body : ByteString) : Prop :=
  resp.writeBodyTo content = .ok body ∧ resp.bodySize = Int64.ofNat body.length

theorem bytesResponse_writes (content : φ → ByteString) (body : ByteString) :
    (Response.bytesResponse body).Writes content body := ⟨rfl, rfl⟩

theorem newCompositeResponse_writes {content : φ → ByteString} {parts : List (ResponsePart φ)}
    {body : ByteString} (h : writeParts content parts = .ok body) :
    (newCompositeResponse parts).Writes content body := ⟨h, bodySize_newCompositeResponse h⟩

/-- A total size below `2^32` passes the check and is written as it is. -/
theorem size_fits {n : Nat} (h : n < 2 ^ 32) :
    ¬ 4294967295 < Int64.ofNat n ∧ (Int64.ofNat n).toUInt64.toUInt32 = UInt32.ofNat n := by
  constructor
  · have hmax : (4294967295 : Int64).toInt = 4294967295 := rfl
    rw [Int64.lt_iff_toInt_lt, Int64.toInt_ofNat_of_lt (h.trans (by decide)), hmax]
    omega
  · exact UInt64.toUInt32_ofNat' n

/-- The hand-written header is the one `WriteResponseHeader` writes, under the size of
the header and the body. -/
theorem writeResponse_eq {content : φ → ByteString} {resp : Response φ} {body : ByteString}
    (header : RequestHeader) (h : resp.Writes content body)
    (hlt : (writeResponseHeader header.correlationID header.apiKey header.apiVersion).length +
      body.length < 2 ^ 32) :
    writeResponse content header resp =
      .ok (putUint32 (UInt32.ofNat
          ((writeResponseHeader header.correlationID header.apiKey header.apiVersion).length +
            body.length)) ++
        (writeResponseHeader header.correlationID header.apiKey header.apiVersion ++ body)) := by
  obtain ⟨hbody, hsize⟩ := h
  have hcorr : putUint32 header.correlationID.toUInt32 = putInt32 header.correlationID := rfl
  by_cases hv : 1 ≤ responseHeaderVersion header.apiKey header.apiVersion
  · have hheader : writeResponseHeader header.correlationID header.apiKey header.apiVersion =
        putInt32 header.correlationID ++ [0] := by
      rw [writeResponseHeader, if_pos hv]
      rfl
    have hlen : (putInt32 header.correlationID ++ [0]).length = 5 := by
      rw [List.length_append, putInt32, length_beBytes]
      rfl
    rw [hheader, hlen] at hlt ⊢
    obtain ⟨hfits, hword⟩ := size_fits hlt
    unfold writeResponse
    simp only [if_pos hv, hsize, hbody]
    rw [show (5 : Int64) = Int64.ofNat 5 from rfl, ← Int64.ofNat_add, if_neg hfits, hword, hcorr,
      List.append_assoc]
  · have hheader : writeResponseHeader header.correlationID header.apiKey header.apiVersion =
        putInt32 header.correlationID := by
      rw [writeResponseHeader, if_neg hv, List.append_nil]
    have hlen : (putInt32 header.correlationID).length = 4 := length_beBytes 4 _
    rw [hheader, hlen] at hlt ⊢
    obtain ⟨hfits, hword⟩ := size_fits hlt
    unfold writeResponse
    simp only [if_neg hv, hsize, hbody]
    rw [show (4 : Int64) = Int64.ofNat 4 from rfl, ← Int64.ofNat_add, if_neg hfits, hword, hcorr,
      List.nil_append]

end MessageBroker.Server
