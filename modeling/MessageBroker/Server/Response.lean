import MessageBroker.Lib.Bytes

/-!
# Responses

A response is a byte string, or a sequence of parts of which some are ranges of open
files. `φ` is the type of open files and `content` what they hold when the response
is written. Writing a range fails when its file ends before the range does.
-/
namespace MessageBroker.Server

open Lib.Bytes

/-- A range of an open file, `storagelog.RawRange`. -/
structure OpenRange (φ : Type) where
  file : φ
  offset : Nat
  length : Nat
  deriving DecidableEq

inductive ResponsePart (φ : Type) where
  | bytesPart (b : ByteString)
  | filePart (r : OpenRange φ)
  deriving DecidableEq

inductive Response (φ : Type) where
  | bytesResponse (b : ByteString)
  | compositeResponse (parts : List (ResponsePart φ)) (size : Int64)
  deriving DecidableEq

inductive WriteError
  | shortFile
  | responseTooLarge (totalSize : Int64)
  deriving DecidableEq

variable {φ : Type}

def ResponsePart.len : ResponsePart φ → Int64
  | bytesPart b => Int64.ofNat b.length
  | filePart r => Int64.ofNat r.length

def newCompositeResponse (parts : List (ResponsePart φ)) : Response φ :=
  .compositeResponse parts (parts.foldl (fun size p => size + p.len) 0)

def Response.bodySize : Response φ → Int64
  | bytesResponse b => Int64.ofNat b.length
  | compositeResponse _ size => size

section Writing

variable (content : φ → ByteString)

def OpenRange.bytes (r : OpenRange φ) : ByteString :=
  ((content r.file).drop r.offset).take r.length

/-- The range lies in its file. -/
def OpenRange.Backed (r : OpenRange φ) : Prop := r.offset + r.length ≤ (content r.file).length

instance (r : OpenRange φ) : Decidable (r.Backed content) := Nat.decLe _ _

/-- `WriteFileRange`. -/
def writeFileRange (r : OpenRange φ) : Except WriteError ByteString :=
  if r.length = 0 then .ok []
  else if r.Backed content then .ok (r.bytes content)
  else .error .shortFile

def ResponsePart.writeTo : ResponsePart φ → Except WriteError ByteString
  | bytesPart b => .ok b
  | filePart r => writeFileRange content r

/-- The loop of `CompositeResponse.WriteBodyTo`. -/
def writeParts : List (ResponsePart φ) → Except WriteError ByteString
  | [] => .ok []
  | p :: ps =>
    match p.writeTo content with
    | .error e => .error e
    | .ok b =>
      match writeParts ps with
      | .error e => .error e
      | .ok bs => .ok (b ++ bs)

def Response.writeBodyTo : Response φ → Except WriteError ByteString
  | bytesResponse b => .ok b
  | compositeResponse parts _ => writeParts content parts

end Writing

/-! ## What is written -/

variable {content : φ → ByteString}

theorem OpenRange.Backed.length_bytes {r : OpenRange φ} (h : r.Backed content) :
    (r.bytes content).length = r.length := by
  unfold OpenRange.Backed at h
  rw [OpenRange.bytes, List.length_take, List.length_drop]
  omega

theorem OpenRange.Backed.writeFileRange_eq {r : OpenRange φ} (h : r.Backed content) :
    writeFileRange content r = .ok (r.bytes content) := by
  by_cases hzero : r.length = 0
  · rw [writeFileRange, if_pos hzero, OpenRange.bytes, hzero, List.take_zero]
  · rw [writeFileRange, if_neg hzero, if_pos h]

/-- A range that is written has as many bytes as its length says. -/
theorem length_of_writeFileRange {r : OpenRange φ} {w : ByteString}
    (h : writeFileRange content r = .ok w) : w.length = r.length := by
  unfold writeFileRange at h
  split at h
  next hzero =>
    cases h
    exact hzero.symm
  next =>
    split at h
    next hbacked =>
      cases h
      exact hbacked.length_bytes
    next => cases h

theorem writeParts_cons {p : ResponsePart φ} {ps : List (ResponsePart φ)} {b bs : ByteString}
    (hp : p.writeTo content = .ok b) (hps : writeParts content ps = .ok bs) :
    writeParts content (p :: ps) = .ok (b ++ bs) := by
  rw [writeParts, hp, hps]

theorem writeParts_cons_ok {p : ResponsePart φ} {ps : List (ResponsePart φ)} {w : ByteString}
    (h : writeParts content (p :: ps) = .ok w) :
    ∃ b bs, p.writeTo content = .ok b ∧ writeParts content ps = .ok bs ∧ w = b ++ bs := by
  unfold writeParts at h
  split at h
  next => cases h
  next b hb =>
    split at h
    next => cases h
    next bs hbs =>
      cases h
      exact ⟨b, bs, hb, hbs, rfl⟩

theorem writeParts_append {ps qs : List (ResponsePart φ)} {w w' : ByteString}
    (hps : writeParts content ps = .ok w) (hqs : writeParts content qs = .ok w') :
    writeParts content (ps ++ qs) = .ok (w ++ w') := by
  induction ps generalizing w with
  | nil =>
    cases hps
    exact hqs
  | cons p ps ih =>
    obtain ⟨b, bs, hb, hbs, rfl⟩ := writeParts_cons_ok hps
    rw [List.append_assoc]
    exact writeParts_cons hb (ih hbs)

theorem writeParts_ranges {rs : List (OpenRange φ)} (h : ∀ r ∈ rs, r.Backed content) :
    writeParts content (rs.map .filePart) = .ok (rs.flatMap (·.bytes content)) := by
  induction rs with
  | nil => rfl
  | cons r rs ih =>
    have hr : (ResponsePart.filePart r).writeTo content = .ok (r.bytes content) :=
      (h r List.mem_cons_self).writeFileRange_eq
    exact writeParts_cons hr (ih fun r' hr' => h r' (List.mem_cons_of_mem r hr'))

theorem ResponsePart.len_of_writeTo {p : ResponsePart φ} {b : ByteString}
    (h : p.writeTo content = .ok b) : p.len = Int64.ofNat b.length := by
  cases p with
  | bytesPart b' =>
    cases h
    rfl
  | filePart r =>
    rw [length_of_writeFileRange h]
    rfl

/-- The sizes of the parts add up to the number of bytes written, as an `int64`. -/
theorem sum_of_writeParts {parts : List (ResponsePart φ)} {w : ByteString} (z : Int64)
    (h : writeParts content parts = .ok w) :
    parts.foldl (fun size p => size + p.len) z = z + Int64.ofNat w.length := by
  induction parts generalizing z w with
  | nil =>
    cases h
    exact (Int64.add_zero z).symm
  | cons p ps ih =>
    obtain ⟨b, bs, hb, hbs, rfl⟩ := writeParts_cons_ok h
    rw [List.foldl_cons, ih _ hbs, ResponsePart.len_of_writeTo hb, List.length_append,
      Int64.ofNat_add, Int64.add_assoc]

theorem bodySize_newCompositeResponse {parts : List (ResponsePart φ)} {w : ByteString}
    (h : writeParts content parts = .ok w) :
    (newCompositeResponse parts).bodySize = Int64.ofNat w.length := by
  have hsum := sum_of_writeParts 0 h
  rw [Int64.zero_add] at hsum
  exact hsum

end MessageBroker.Server
