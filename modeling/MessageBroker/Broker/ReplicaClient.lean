import MessageBroker.Lib.Runs
import MessageBroker.Server.Connection

/-!
# The replica client

A follower sends its requests over one connection and reads each response before it
sends the next. `pending` is what the connection still holds for the client; a reply
that is not read to its end would be taken for the next one. Dialling, deadlines and
failed writes only end the exchange with an error and are not modelled.
-/
namespace MessageBroker.Broker

open Lib Lib.Bytes Protocol Server

def maxReplicaResponseBytes : Nat := 100 * 1024 * 1024

structure ReplicaClient where
  clientID : ByteString
  nextCorrelationID : Int32
  pending : ByteString
  deriving DecidableEq

/-- `NewReplicaClient` with its client id, "replica-fetcher". -/
def newReplicaClient : ReplicaClient :=
  ⟨[114, 101, 112, 108, 105, 99, 97, 45, 102, 101, 116, 99, 104, 101, 114], 0, []⟩

inductive ClientError
  | readResponseSize
  | invalidResponseSize (size : Nat)
  | readResponseBody
  | responseTooShort
  | parseResponseHeader (e : DecodeError)
  | correlationMismatch (got want : Int32)
  deriving DecidableEq

/-- The message `sendRequestOnce` writes. -/
def requestMessage (apiKey apiVersion : Int16) (correlationID : Int32)
    (clientID : Option ByteString) (body : ByteString) : ByteString :=
  let header := encodeRequestHeader apiKey apiVersion correlationID clientID
  let totalSize := header.length + body.length
  putUint32 (UInt32.ofNat totalSize) ++ (header ++ body)

/-- `readResponse`: the body and its correlation id, and what is left of the stream. -/
def readResponse (apiKey apiVersion : Int16) (stream : ByteString) :
    Except Panic (Except ClientError (ByteString × Int32 × ByteString)) :=
  match readFull 4 stream with
  | none => .ok (.error .readResponseSize)
  | some (sizeBuf, stream) =>
    let size := beNat sizeBuf
    if size = 0 ∨ maxReplicaResponseBytes < size then .ok (.error (.invalidResponseSize size))
    else
      match readFull size stream with
      | none => .ok (.error .readResponseBody)
      | some (msg, rest) =>
        if msg.length < 4 then .ok (.error .responseTooShort)
        else
          match parseResponseHeader msg apiKey apiVersion with
          | .error panic => .error panic
          | .ok (.error e, _) => .ok (.error (.parseResponseHeader e))
          | .ok (.ok (correlationID, body), _) => .ok (.ok (body, correlationID, rest))

/-- `sendRequestOnce` against a peer that answers the written message with some bytes.
A failed exchange drops the connection. -/
def sendRequestOnce (peer : ByteString → ByteString) (c : ReplicaClient)
    (apiKey apiVersion : Int16) (body : ByteString) :
    Except Panic (Except ClientError ByteString × ReplicaClient) :=
  let correlationID := c.nextCorrelationID + 1
  let msg := requestMessage apiKey apiVersion correlationID (some c.clientID) body
  let dropped : ReplicaClient := { c with nextCorrelationID := correlationID, pending := [] }
  match readResponse apiKey apiVersion (c.pending ++ peer msg) with
  | .error panic => .error panic
  | .ok (.error e) => .ok (.error e, dropped)
  | .ok (.ok (respBody, respCorrelationID, rest)) =>
    if respCorrelationID ≠ correlationID then
      .ok (.error (.correlationMismatch respCorrelationID correlationID), dropped)
    else .ok (.ok respBody, { c with nextCorrelationID := correlationID, pending := rest })

/-! ## Requests -/

section Requests

variable (apiKey apiVersion : Int16) (correlationID : Int32) (clientID : Option ByteString)
  (body : ByteString)

/-- The size of a request, without the four bytes that hold it. -/
def requestSize : Nat :=
  (encodeRequestHeader apiKey apiVersion correlationID clientID).length + body.length

theorem encodeRequestHeader_ne_nil :
    encodeRequestHeader apiKey apiVersion correlationID clientID ≠ [] := by
  apply List.ne_nil_of_length_pos
  rw [encodeRequestHeader, List.length_append, putInt16, length_beBytes]
  omega

theorem readMessage_requestMessage {maxReqBytes : Int32}
    (hmax : (requestSize apiKey apiVersion correlationID clientID body : Int) ≤ maxReqBytes.toInt)
    (rest : ByteString) :
    readMessage maxReqBytes (requestMessage apiKey apiVersion correlationID clientID body ++ rest) =
      .ok (encodeRequestHeader apiKey apiVersion correlationID clientID ++ body, rest) := by
  have hlen : (encodeRequestHeader apiKey apiVersion correlationID clientID ++ body).length =
      requestSize apiKey apiVersion correlationID clientID body := List.length_append
  have hne := encodeRequestHeader_ne_nil apiKey apiVersion correlationID clientID
  have hframed := readMessage_framed maxReqBytes rest
    (List.append_ne_nil_of_left_ne_nil hne body) (by rw [hlen]; exact hmax)
  rw [hlen] at hframed
  rw [requestMessage, List.append_assoc]
  exact hframed

end Requests

/-! ## Responses -/

/-- The size of a response, without the four bytes that hold it. -/
def responseSize (header : RequestHeader) (body : ByteString) : Nat :=
  (writeResponseHeader header.correlationID header.apiKey header.apiVersion).length + body.length

theorem four_le_responseSize (header : RequestHeader) (body : ByteString) :
    4 ≤ responseSize header body := by
  rw [responseSize, writeResponseHeader, List.length_append, putInt32, length_beBytes]
  omega

/-- A response that fits is written, and read back with nothing left over. -/
theorem readResponse_writeResponse {φ : Type} {content : φ → ByteString} {resp : Response φ}
    {body : ByteString} (header : RequestHeader) (h : resp.Writes content body)
    (hmax : responseSize header body ≤ maxReplicaResponseBytes) :
    ∃ written, writeResponse content header resp = .ok written ∧ ∀ rest,
      readResponse header.apiKey header.apiVersion (written ++ rest) =
        .ok (.ok (body, header.correlationID, rest)) := by
  have hlt : responseSize header body < 2 ^ 32 := hmax.trans_lt (by decide)
  refine ⟨_, writeResponse_eq header h hlt, fun rest => ?_⟩
  have hpos := four_le_responseSize header body
  have hsize : beNat (putUint32 (UInt32.ofNat (responseSize header body))) =
      responseSize header body := by
    rw [beNat_putUint32]
    exact UInt32.toNat_ofNat_of_lt' hlt
  have hvalid : ¬ (responseSize header body = 0 ∨
      maxReplicaResponseBytes < responseSize header body) := by
    omega
  have hlen : (writeResponseHeader header.correlationID header.apiKey header.apiVersion ++
      body).length = responseSize header body := List.length_append
  obtain ⟨d, hparse⟩ :=
    parseResponseHeader_write header.correlationID header.apiKey header.apiVersion body
  unfold readResponse
  rw [List.append_assoc, readFull_append (length_putUint32 _)]
  have hfold : (writeResponseHeader header.correlationID header.apiKey header.apiVersion).length +
    body.length = responseSize header body := rfl
  simp only [hfold, hsize, if_neg hvalid]
  rw [readFull_append hlen]
  simp only [hlen, if_neg (Nat.not_lt.mpr hpos), hparse]

/-! ## Both directions -/

/-- Within the size limits a request is read as it was sent and a response, plain or
composite, as it was written; what follows either on the stream is left there. -/
theorem replica_rpc_round_trips {φ : Type} (content : φ → ByteString) :
    (∀ (apiKey apiVersion : Int16) (correlationID : Int32) (clientID : Option ByteString)
      (body : ByteString) (maxReqBytes : Int32) (rest : ByteString),
      (∀ s, clientID = some s → s.length ≤ 32767) →
      (requestSize apiKey apiVersion correlationID clientID body : Int) ≤ maxReqBytes.toInt →
      ∃ msg d, readMessage maxReqBytes
          (requestMessage apiKey apiVersion correlationID clientID body ++ rest) =
            .ok (msg, rest) ∧
        parseRequestHeader msg =
          .ok (.ok (⟨apiKey, apiVersion, correlationID, clientID⟩, body), d)) ∧
    ∀ (header : RequestHeader) (resp : Response φ) (body : ByteString),
      (resp = .bytesResponse body ∨
        ∃ parts, resp = newCompositeResponse parts ∧ writeParts content parts = .ok body) →
      responseSize header body ≤ maxReplicaResponseBytes →
      ∃ written, writeResponse content header resp = .ok written ∧ ∀ rest,
        readResponse header.apiKey header.apiVersion (written ++ rest) =
          .ok (.ok (body, header.correlationID, rest)) := by
  constructor
  · intro apiKey apiVersion correlationID clientID body maxReqBytes rest hid hmax
    obtain ⟨d, hparse⟩ := parseRequestHeader_encode apiKey apiVersion correlationID clientID body
      fun s hs => Nat.lt_succ_of_le (hid s hs)
    exact ⟨_, d, readMessage_requestMessage apiKey apiVersion correlationID clientID body hmax rest,
      hparse⟩
  · intro header resp body hresp hmax
    have hwrites : resp.Writes content body := by
      rcases hresp with rfl | ⟨parts, rfl, hparts⟩
      · exact bytesResponse_writes content body
      · exact newCompositeResponse_writes hparts
    exact readResponse_writeResponse header hwrites hmax

/-- A flexible request without a client id, and a response of which one part is in a
file. -/
theorem replica_rpc_round_trips_flexible :
    (∃ msg d, readMessage 100 (requestMessage 23 4 7 none [1, 2] ++ [9]) = .ok (msg, [9]) ∧
      parseRequestHeader msg = .ok (.ok (⟨23, 4, 7, none⟩, [1, 2]), d)) ∧
    ∃ written, writeResponse (fun _ : Unit => [4, 5, 6]) ⟨23, 4, 7, none⟩
        (newCompositeResponse [.bytesPart [3], .filePart ⟨(), 1, 2⟩]) = .ok written ∧
      ∀ rest, readResponse 23 4 (written ++ rest) = .ok (.ok ([3, 5, 6], 7, rest)) := by
  obtain ⟨hrequest, hresponse⟩ := replica_rpc_round_trips fun _ : Unit => [4, 5, 6]
  refine ⟨hrequest 23 4 7 none [1, 2] 100 [9] ?_ (by decide), ?_⟩
  · intro s hs
    cases hs
  · exact hresponse ⟨23, 4, 7, none⟩ _ [3, 5, 6] (.inr ⟨_, rfl, rfl⟩) (by decide)

/-! ## Whole exchanges -/

section Exchange

variable {φ : Type} (content : φ → ByteString) (maxReqBytes : Int32)
  (handle : RequestHeader → ByteString → Option (Option (Response φ)))

/-- What a server writes when it finds the message on a connection. -/
def servedBy (msg : ByteString) : ByteString :=
  match serve content maxReqBytes (fun _ x => (handle x.1 x.2, ())) 1 () msg with
  | .ok (written, _) => written
  | _ => []

/-- A request of a client, with the answer the handler is to give. -/
structure Exchange where
  apiKey : Int16
  apiVersion : Int16
  body : ByteString
  answer : ByteString

/-- The request and its answer are within the limits, and the handler gives the
answer to the request. -/
structure Exchange.Answered (x : Exchange) (c : ReplicaClient) : Prop where
  request_le : (requestSize x.apiKey x.apiVersion (c.nextCorrelationID + 1) (some c.clientID)
    x.body : Int) ≤ maxReqBytes.toInt
  response_le : responseSize ⟨x.apiKey, x.apiVersion, c.nextCorrelationID + 1, some c.clientID⟩
    x.answer ≤ maxReplicaResponseBytes
  handled : ∃ resp, resp.Writes content x.answer ∧
    handle ⟨x.apiKey, x.apiVersion, c.nextCorrelationID + 1, some c.clientID⟩ x.body =
      some (some resp)

/-- The client after an exchange that went well. -/
def ReplicaClient.next (c : ReplicaClient) : ReplicaClient :=
  { c with nextCorrelationID := c.nextCorrelationID + 1 }

/-- The answers of a sequence of requests on one connection, up to the first that fails. -/
def sendAll (peer : ByteString → ByteString) :
    ReplicaClient → List Exchange → Except Panic (List (Except ClientError ByteString))
  | _, [] => .ok []
  | c, x :: xs =>
    match sendRequestOnce peer c x.apiKey x.apiVersion x.body with
    | .error panic => .error panic
    | .ok (.error e, _) => .ok [.error e]
    | .ok (.ok answer, c) =>
      match sendAll peer c xs with
      | .error panic => .error panic
      | .ok answers => .ok (.ok answer :: answers)

variable {content maxReqBytes handle} {x : Exchange} {c : ReplicaClient}

/-- On a connection with nothing pending a request gets its answer, and nothing is
pending after it. -/
theorem sendRequestOnce_served (hpending : c.pending = []) (hid : c.clientID.length ≤ 32767)
    (h : x.Answered content maxReqBytes handle c) :
    sendRequestOnce (servedBy content maxReqBytes handle) c x.apiKey x.apiVersion x.body =
      .ok (.ok x.answer, c.next) := by
  obtain ⟨resp, hwrites, hhandle⟩ := h.handled
  obtain ⟨written, hwritten, hread⟩ := readResponse_writeResponse _ hwrites h.response_le
  have hmessage := readMessage_requestMessage _ _ _ _ _ h.request_le []
  rw [List.append_nil] at hmessage
  obtain ⟨d, hparse⟩ := parseRequestHeader_encode x.apiKey x.apiVersion (c.nextCorrelationID + 1)
    (some c.clientID) x.body (by
      intro s hs
      cases hs
      exact Nat.lt_succ_of_le hid)
  have hserved : servedBy content maxReqBytes handle (requestMessage x.apiKey x.apiVersion
      (c.nextCorrelationID + 1) (some c.clientID) x.body) = written := by
    simp [servedBy, serve, hmessage, hparse, hhandle, hwritten, Except.map]
  have hback := hread []
  rw [List.append_nil] at hback
  unfold sendRequestOnce
  simp only [hserved, hpending, List.nil_append, hback]
  rw [if_neg (not_not.mpr rfl), ReplicaClient.next]
  simp only [hpending]

/-- Every request of a sequence gets its own answer, never that of another. -/
theorem sendAll_served (xs : List Exchange) (hpending : c.pending = [])
    (hid : c.clientID.length ≤ 32767)
    (h : ∀ (i : Nat) (x : Exchange), xs[i]? = some x →
      x.Answered content maxReqBytes handle (ReplicaClient.next^[i] c)) :
    sendAll (servedBy content maxReqBytes handle) c xs = .ok (xs.map fun x => .ok x.answer) := by
  induction xs generalizing c with
  | nil => rfl
  | cons x xs ih =>
    have hfirst := sendRequestOnce_served hpending hid (h 0 x rfl)
    have hrest := @ih c.next hpending hid fun i y hy => h (i + 1) y hy
    simp only [sendAll, hfirst, hrest, List.map_cons]

/-- Two requests, in the old and the flexible format, to a server that sends back what it
gets. -/
theorem sendAll_served_echo :
    sendAll (servedBy (fun _ : Unit => []) 100 fun _ body => some (some (.bytesResponse body)))
      newReplicaClient [⟨1, 4, [1, 2], [1, 2]⟩, ⟨23, 4, [3], [3]⟩] =
        .ok [.ok [1, 2], .ok [3]] := by
  refine sendAll_served _ rfl (by decide) fun i x hx => ?_
  match i, hx with
  | 0, rfl => exact ⟨by decide, by decide, _, bytesResponse_writes _ _, rfl⟩
  | 1, rfl => exact ⟨by decide, by decide, _, bytesResponse_writes _ _, rfl⟩

end Exchange

/-! ## Requests in a row -/

section Pipelined

variable {φ σ : Type} (content : φ → ByteString) (maxReqBytes : Int32)
  (handle : σ → RequestHeader × ByteString → Option (Option (Response φ)) × σ)

/-- A request, and the body of its response if it gets one. -/
structure Pipelined where
  header : RequestHeader
  body : ByteString
  answer : Option ByteString

def Pipelined.message (x : Pipelined) : ByteString :=
  requestMessage x.header.apiKey x.header.apiVersion x.header.correlationID x.header.clientID
    x.body

/-- The response on the wire. -/
def Pipelined.response (x : Pipelined) : ByteString :=
  match x.answer with
  | none => []
  | some body => putUint32 (UInt32.ofNat (responseSize x.header body)) ++
      (writeResponseHeader x.header.correlationID x.header.apiKey x.header.apiVersion ++ body)

def Pipelined.handled (s : σ) (x : Pipelined) : Option (Option (Response φ)) × σ :=
  handle s (x.header, x.body)

/-- The request is within the limits, and so is what the handler answers to it. -/
def Pipelined.Fits (s : σ) (x : Pipelined) : Prop :=
  (∀ id, x.header.clientID = some id → id.length ≤ 32767) ∧
  (requestSize x.header.apiKey x.header.apiVersion x.header.correlationID x.header.clientID
    x.body : Int) ≤ maxReqBytes.toInt ∧
  match x.answer with
  | none => (x.handled handle s).1 = some none
  | some body => responseSize x.header body < 2 ^ 32 ∧
      ∃ resp, (x.handled handle s).1 = some (some resp) ∧ resp.Writes content body

variable {content maxReqBytes handle}

/-- Requests that are sent without waiting are handled in their order, each in the state that
the one before it has left, and answered in their order; what follows them on the stream is
served as if it came alone. -/
theorem serve_pipelined (xs : List Pipelined) (s : σ) (rounds : Nat) (rest : ByteString)
    (h : Runs.Guarded (Pipelined.handled handle) (Pipelined.Fits content maxReqBytes handle)
      s xs) :
    serve content maxReqBytes handle (xs.length + rounds) s
        (xs.flatMap Pipelined.message ++ rest) =
      (serve content maxReqBytes handle rounds
        (Runs.final (Pipelined.handled handle) s xs) rest).map fun r =>
          (xs.flatMap Pipelined.response ++ r.1, r.2) := by
  induction xs generalizing s with
  | nil =>
    rw [List.length_nil, Nat.zero_add]
    exact Except.map_id.symm ▸ rfl
  | cons x xs ih =>
    obtain ⟨⟨hid, hmax, hanswer⟩, hxs⟩ := h
    obtain ⟨d, hparse⟩ := parseRequestHeader_encode x.header.apiKey x.header.apiVersion
      x.header.correlationID x.header.clientID x.body fun id hx => Nat.lt_succ_of_le (hid id hx)
    have hmessage := readMessage_requestMessage _ _ _ _ _ hmax
      (xs.flatMap Pipelined.message ++ rest)
    have hnext := ih _ hxs
    rw [List.length_cons, Nat.succ_add, serve, List.flatMap_cons, List.append_assoc,
      Pipelined.message, hmessage]
    simp only [hparse]
    cases hx : x.answer with
    | none =>
      simp only [hx] at hanswer
      have hcall : handle s (x.header, x.body) = (some none, (x.handled handle s).2) :=
        Prod.ext hanswer rfl
      rw [hcall]
      simp only [hnext, Runs.final_cons, List.flatMap_cons, Pipelined.response, hx,
        List.nil_append]
    | some body =>
      simp only [hx] at hanswer
      obtain ⟨hsize, resp, hresp, hwrites⟩ := hanswer
      have hcall : handle s (x.header, x.body) = (some (some resp), (x.handled handle s).2) :=
        Prod.ext hresp rfl
      rw [hcall]
      simp only [writeResponse_eq x.header hwrites hsize, hnext, Runs.final_cons]
      cases serve content maxReqBytes handle rounds
          (Runs.final (Pipelined.handled handle) (x.handled handle s).2 xs) rest with
      | error panic => rfl
      | ok r => simp [Except.map, Pipelined.response, hx, responseSize]

/-- The first of two requests gets no response; the handler counts them. -/
theorem serve_pipelined_silent :
    serve (fun _ : Unit => []) 100
        (fun n x => (some (if x.2 = [] then none else some (.bytesResponse [n])), n + 1)) 2 0
        (requestMessage 0 3 7 none [] ++ requestMessage 23 4 8 none [5]) =
      .ok (Pipelined.response ⟨⟨23, 4, 8, none⟩, [5], some [1]⟩, 2, none) := by
  exact serve_pipelined [⟨⟨0, 3, 7, none⟩, [], none⟩, ⟨⟨23, 4, 8, none⟩, [5], some [1]⟩] 0 0 []
    ⟨⟨nofun, by decide, rfl⟩, ⟨nofun, by decide, by decide, _, rfl, bytesResponse_writes _ _⟩,
      trivial⟩

end Pipelined

end MessageBroker.Broker
