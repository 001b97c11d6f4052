import MessageBroker.Lib.Runs
import MessageBroker.Storage.Encoding

/-!
# Recovery of a torn segment file

A crash can leave any first part of a segment file. The file is a sequence of
self-delimiting batches, so a cut falls on a batch boundary, inside a header or
inside a body; recovery passes the whole batches and stops at the torn one. What
it keeps is again such a sequence, so a second recovery finds nothing to do.
-/
namespace MessageBroker.Storage

open Lib.Bytes Lib.Tiling Lib

/-! ## The batches within a first part of a file -/

/-- The batches that lie wholly within the first `n` bytes. -/
def wholeWithin : Nat → List ByteString → List ByteString
  | _, [] => []
  | n, c :: cs => if c.length ≤ n then c :: wholeWithin (n - c.length) cs else []

/-- The first `n` bytes are the whole batches and a strict part of the next one. -/
theorem take_flatten_eq (n : Nat) (cs : List ByteString) :
    ∃ torn, cs.flatten.take n = (wholeWithin n cs).flatten ++ torn ∧
      (torn = [] ∨ ∃ c rest, cs = wholeWithin n cs ++ c :: rest ∧ torn.length < c.length ∧
        torn = c.take torn.length) := by
  induction cs generalizing n with
  | nil => exact ⟨[], by simp [wholeWithin], .inl rfl⟩
  | cons c cs ih =>
    by_cases hc : c.length ≤ n
    · obtain ⟨torn, htake, htorn⟩ := ih (n - c.length)
      refine ⟨torn, ?_, ?_⟩
      · rw [wholeWithin, if_pos hc, List.flatten_cons, List.flatten_cons, List.append_assoc,
          List.take_append, List.take_of_length_le hc, htake]
      · rcases htorn with h0 | ⟨d, rest, hcs, hlt, heq⟩
        · exact .inl h0
        · refine .inr ⟨d, rest, ?_, hlt, heq⟩
          rw [wholeWithin, if_pos hc, List.cons_append, ← hcs]
    · refine ⟨c.take n, ?_, .inr ⟨c, cs, ?_, ?_, ?_⟩⟩
      · rw [wholeWithin, if_neg hc, List.flatten_cons, List.take_append_of_le_length (by omega)]
        rfl
      · rw [wholeWithin, if_neg hc, List.nil_append]
      · rw [List.length_take]
        omega
      · rw [List.length_take, Nat.min_eq_left (by omega)]

theorem wholeWithin_isPrefix (n : Nat) (cs : List ByteString) : wholeWithin n cs <+: cs := by
  induction cs generalizing n with
  | nil => exact List.prefix_rfl
  | cons c cs ih =>
    rw [wholeWithin]
    split
    · exact (List.cons_prefix_cons).mpr ⟨rfl, ih _⟩
    · exact List.nil_prefix

/-! ## A torn batch is not taken for a batch -/

/-- Inside a header the read comes up short; inside a body the declared size does
not fit the file. -/
theorem intactBatchAt_torn {crc : Checksum} {c before torn : ByteString} (hc : Stored crc c)
    (hlt : torn.length < c.length) (htorn : torn = c.take torn.length) :
    intactBatchAt crc (before ++ torn) before.length = .ok none := by
  by_cases h61 : torn.length < recordBatchOverhead
  · have hshort : readAt (before ++ torn) before.length recordBatchOverhead = none :=
      readAt_of_short (by rw [List.length_append]; omega)
    rw [intactBatchAt, hshort]
  · have hfile : before ++ torn = before ++ (torn ++ []) := by rw [List.append_nil]
    have hhead : readAt (before ++ torn) before.length recordBatchOverhead =
        some (torn.take recordBatchOverhead) := by
      rw [hfile]
      exact readAt_append (by omega)
    have hsize : declaredSize (torn.take recordBatchOverhead) = c.length := by
      rw [← hc.size_eq, declaredSize, declaredSize, batchLength, batchLength,
        field_take (by decide), htorn, field_take (by rw [recordBatchOverhead] at h61; omega)]
    rw [intactBatchAt, hhead]
    simp only [hsize]
    rw [if_pos (by rw [List.length_append]; omega)]

/-- The offset after a sequence of batches that starts at `base`. -/
def offsetAfter (base : Nat) (cs : List ByteString) : Nat :=
  match cs.getLast? with
  | none => base
  | some c => endOffset c

theorem offsetAfter_of_tiles {a b : Nat} {cs : List ByteString} (h : BatchTiles a b cs) :
    offsetAfter a cs = b := by
  unfold offsetAfter
  cases hl : cs.getLast? with
  | none =>
    rw [List.getLast?_eq_none_iff.mp hl] at h
    exact h
  | some c =>
    have hne : cs ≠ [] := by
      rintro rfl
      cases hl
    rw [List.getLast?_eq_some_getLast hne] at hl
    cases hl
    exact (h.end_eq_getLast hne).symm

/-- Opening the first `n` bytes of a segment's file. -/
theorem newSegment_take {crc : Checksum} {s : Segment} {cs : List ByteString} (h : s.Rep crc cs)
    (n : Nat) (maxSize : Int64) :
    ∃ s', newSegment crc (s.file.take n) s.baseOffset maxSize = .ok s' ∧
      s'.Rep crc (wholeWithin n cs) ∧ s'.baseOffset = s.baseOffset ∧ s'.maxSize = maxSize := by
  obtain ⟨torn, htake, htorn⟩ := take_flatten_eq n cs
  obtain ⟨rest, hrest⟩ := wholeWithin_isPrefix n cs
  have hst : ∀ c ∈ wholeWithin n cs, Stored crc c := fun c hc =>
    h.stored c (hrest ▸ List.mem_append_left rest hc)
  obtain ⟨last, htiles, hcut⟩ := tiles_append.mp (hrest ▸ h.tiles)
  have hlast : last < 2 ^ 64 := hcut.le.trans_lt h.next_lt
  have hno : NoBatch crc ((wholeWithin n cs).flatten ++ torn)
      (wholeWithin n cs).flatten.length := by
    rcases htorn with rfl | ⟨c, more, hcs, hlt, heq⟩
    · exact .inl (by rw [List.append_nil])
    · have hc : c ∈ cs := by
        rw [hcs]
        exact List.mem_append_right _ List.mem_cons_self
      exact .inr (intactBatchAt_torn (h.stored c hc) hlt heq)
  have hopen := newSegment_stored hst htiles hlast hno maxSize
  rw [← htake, ← h.file_eq] at hopen
  exact ⟨_, hopen, ⟨rfl, rfl, hst, htiles, hlast⟩, rfl, rfl⟩

/-! ## Runs of a segment -/

/-- The calls on a segment; `crash n` reopens the first `n` bytes of its file. -/
inductive SegmentCall
  | appendBatch (batch : Batch)
  | appendRawBatches (data : ByteString) (leaderEpoch : Int32)
  | appendReplicaBatches (data : ByteString)
  | truncate (offset : Nat)
  | crash (n : Nat)

/-- Bounds whose batches follow each other from an offset on. -/
def Continues : Nat → List BatchBounds → Prop
  | _, [] => True
  | next, b :: bs => b.baseOffset = next ∧ Continues (next + b.lastOffsetDelta + 1) bs

instance Continues.decide : ∀ (next : Nat) (bounds : List BatchBounds),
    Decidable (Continues next bounds)
  | _, [] => inferInstanceAs (Decidable True)
  | next, b :: bs =>
    have := Continues.decide (next + b.lastOffsetDelta + 1) bs
    inferInstanceAs (Decidable (b.baseOffset = next ∧ _))

theorem Continues.tiles {pos next : Nat} {cs : List ByteString}
    (h : Continues next (boundsFrom pos cs)) : ∃ last, BatchTiles next last cs := by
  induction cs generalizing pos next with
  | nil => exact ⟨next, rfl⟩
  | cons c cs ih =>
    obtain ⟨hbase, hrest⟩ := h
    have hend : endOffset c = next + lastOffsetDelta c + 1 := by
      rw [endOffset, show baseOffset c = next from hbase]
    obtain ⟨last, ht⟩ := ih hrest
    exact ⟨last, hbase, by omega, by rw [hend]; exact ht⟩

namespace Segment

/-- The raw appends as the log calls them, with the bounds that the scan of the
request found; it refuses a request without batches. -/
def scanAndAppend (crc : Checksum) (s : Segment) (data : ByteString) (leaderEpoch : Int32)
    (assign : Bool) : Option LogError × Segment :=
  match scanRawBatches crc data with
  | .error e => (some (.batch e), s)
  | .ok bounds =>
    if bounds = [] then (some .emptyRecords, s)
    else match s.appendRawBatches data bounds leaderEpoch assign none with
      | (.error e, s) => (some (.segment e), s)
      | (.ok _, s) => (none, s)

/-- One call, with the error it returns. No file operation fails. -/
def exec (crc : Checksum) (s : Segment) : SegmentCall → Option LogError × Segment
  | .appendBatch batch =>
      match s.appendBatch crc batch none with
      | (.error e, s) => (some (.segment e), s)
      | (.ok _, s) => (none, s)
  | .appendRawBatches data leaderEpoch => s.scanAndAppend crc data leaderEpoch true
  | .appendReplicaBatches data => s.scanAndAppend crc data 0 false
  | .truncate offset =>
      match s.findTruncationPosition offset with
      | .error e => (some (.segment e), s)
      | .ok position =>
        match s.truncateAt position offset false with
        | (.error e, s) => (some (.segment e), s)
        | (.ok (), s) => (none, s)
  | .crash n =>
      match newSegment crc (s.file.take n) s.baseOffset s.maxSize with
      | .error e => (some (.segment e), s)
      | .ok s => (none, s)

/-- What the callers of the replica path check: the batches start at the end of
the segment and follow each other. -/
def Checked (crc : Checksum) (s : Segment) : SegmentCall → Prop
  | .appendReplicaBatches data =>
      ∀ bounds, scanRawBatches crc data = .ok bounds → Continues s.nextOffset bounds
  | _ => True

/-- An internal append whose size fits the batch length field and whose end fits
an offset, which `appendRawBatches` checks and `AppendBatch` does not. -/
def Fitting (s : Segment) : SegmentCall → Prop
  | .appendBatch batch => encodedBatchSize batch < 2 ^ 32 + 12 ∧
      s.nextOffset + batch.messages.length < 2 ^ 64
  | _ => True

/-- The calls that keep a segment recoverable. -/
def Sound (crc : Checksum) (s : Segment) (call : SegmentCall) : Prop :=
  s.Checked crc call ∧ s.Fitting call

section Steps

variable {crc : Checksum} {s : Segment} {cs : List ByteString}

theorem scanAndAppend_rep (h : s.Rep crc cs) (data : ByteString) (leaderEpoch : Int32)
    (assign : Bool) (hkeep : assign = false → ∀ bounds, scanRawBatches crc data = .ok bounds →
      Continues s.nextOffset bounds) :
    ∃ cs', (s.scanAndAppend crc data leaderEpoch assign).2.Rep crc cs' ∧
      (s.scanAndAppend crc data leaderEpoch assign).2.baseOffset = s.baseOffset := by
  unfold scanAndAppend
  cases hscan : scanRawBatches crc data with
  | error e => exact ⟨cs, h, rfl⟩
  | ok bounds =>
    obtain ⟨ds, rfl, hds, rfl⟩ := scanRawBatches_ok hscan
    by_cases hempty : boundsFrom 0 ds = []
    · simp only [if_pos hempty]
      exact ⟨cs, h, trivial⟩
    have hne : ds ≠ [] := by
      rintro rfl
      exact hempty rfl
    have htiles : assign = false → ∃ last, BatchTiles s.nextOffset last ds := fun ha =>
      (hkeep ha _ hscan).tiles
    simp only [if_neg hempty]
    rcases appendRawBatches_cases h (fun c hc => (hds c hc).toStored) hne leaderEpoch assign htiles
      with ⟨e, heq, -⟩ | ⟨s', heq, hrep, hbase, -⟩
    · rw [heq]
      exact ⟨cs, h, rfl⟩
    · rw [heq]
      exact ⟨_, hrep, hbase⟩

theorem exec_truncate_rep (h : s.Rep crc cs) (offset : Nat) :
    ∃ cs', (s.exec crc (.truncate offset)).2.Rep crc cs' ∧
      (s.exec crc (.truncate offset)).2.baseOffset = s.baseOffset := by
  simp only [exec]
  cases hpos : s.findTruncationPosition offset with
  | error e => exact ⟨cs, h, rfl⟩
  | ok position =>
    obtain ⟨kept, cut, rfl, rfl, hkept, hcut⟩ := (findTruncationPosition_ok h).mp hpos
    obtain ⟨s', heq, hrep, hbase, -⟩ := truncateAt_rep h hkept hcut
    simp only [heq]
    exact ⟨kept, hrep, hbase⟩

/-- Every sound call leaves a sequence of batches. -/
theorem exec_rep (h : s.Rep crc cs) (call : SegmentCall) (hsound : s.Sound crc call) :
    ∃ cs', (s.exec crc call).2.Rep crc cs' ∧ (s.exec crc call).2.baseOffset = s.baseOffset := by
  obtain ⟨hchecked, hfit⟩ := hsound
  cases call with
  | appendBatch batch =>
    simp only [exec]
    rcases appendBatch_cases h batch hfit.1 hfit.2 with ⟨e, heq⟩ | ⟨s', heq, hrep, hbase, -⟩
    · rw [heq]
      exact ⟨cs, h, rfl⟩
    · rw [heq]
      exact ⟨_, hrep, hbase⟩
  | appendRawBatches data leaderEpoch =>
    exact scanAndAppend_rep h data leaderEpoch true (fun ha => by cases ha)
  | appendReplicaBatches data => exact scanAndAppend_rep h data 0 false (fun _ => hchecked)
  | truncate offset => exact exec_truncate_rep h offset
  | crash n =>
    obtain ⟨s', heq, hrep, hbase, -⟩ := newSegment_take h n s.maxSize
    simp only [exec, heq]
    exact ⟨_, hrep, hbase⟩

end Steps

/-- A segment as `NewSegment` creates its file. -/
def fresh (base : Nat) (maxSize : Int64) : Segment := ⟨[], base, base, 0, maxSize⟩

theorem run_rep {crc : Checksum} {base : Nat} (hb : base < 2 ^ 64) (maxSize : Int64)
    {calls : List SegmentCall}
    (hg : Runs.Guarded (exec crc) (Sound crc) (fresh base maxSize) calls) :
    ∃ cs, (Runs.final (exec crc) (fresh base maxSize) calls).Rep crc cs ∧
      (Runs.final (exec crc) (fresh base maxSize) calls).baseOffset = base := by
  refine Runs.invariant_guarded (exec crc)
    (P := fun s => ∃ cs, s.Rep crc cs ∧ s.baseOffset = base) ?_
    ⟨[], rep_empty crc hb maxSize, rfl⟩ calls hg
  rintro s call ⟨cs, h, hbase⟩ hsound
  obtain ⟨cs', h', hbase'⟩ := exec_rep h call hsound
  exact ⟨cs', h', hbase'.trans hbase⟩

end Segment

/-- After any run of sound calls, recovery of any first part of the file keeps
exactly the batches wholly inside it, with their offsets, and is idempotent. -/
theorem torn_segment_recovers (crc : Checksum) {base : Nat} (hb : base < 2 ^ 64) (maxSize : Int64)
    (calls : List SegmentCall)
    (hg : Runs.Guarded (Segment.exec crc) (Segment.Sound crc) (.fresh base maxSize) calls)
    (n : Nat) (hn : n ≤ (Runs.final (Segment.exec crc) (.fresh base maxSize) calls).file.length) :
    ∃ s', newSegment crc
        ((Runs.final (Segment.exec crc) (.fresh base maxSize) calls).file.take n) base maxSize =
        .ok s' ∧
      s'.batches =
        wholeWithin n (Runs.final (Segment.exec crc) (.fresh base maxSize) calls).batches ∧
      s'.file = s'.batches.flatten ∧ s'.currentSize = s'.file.length ∧ s'.file.length ≤ n ∧
      s'.baseOffset = base ∧ s'.nextOffset = offsetAfter base s'.batches ∧
      newSegment crc s'.file base maxSize = .ok s' := by
  obtain ⟨cs, h, hbase⟩ := Segment.run_rep hb maxSize hg
  generalize Runs.final (Segment.exec crc) (.fresh base maxSize) calls = s at h hbase hn ⊢
  subst hbase
  obtain ⟨s', heq, hrep, hbase, rfl⟩ := newSegment_take h n maxSize
  have hle : s'.file.length ≤ n := by
    obtain ⟨torn, htake, -⟩ := take_flatten_eq n cs
    have hlen := congrArg List.length htake
    rw [List.length_append, List.length_take, ← hrep.file_eq, ← h.file_eq] at hlen
    omega
  refine ⟨s', heq, ?_, ?_, hrep.size_eq, hle, hbase, ?_, ?_⟩
  · rw [hrep.batches_eq, h.batches_eq]
  · rw [hrep.batches_eq]
    exact hrep.file_eq
  · rw [hrep.batches_eq, ← hbase]
    exact (offsetAfter_of_tiles hrep.tiles).symm
  · rw [← hbase]
    exact newSegment_rep hrep s'.maxSize

/-- A run with an internal append, a crash inside its batch, and a second append. -/
def tornRun : List SegmentCall :=
  [.appendBatch ⟨0, 0, 0, 0, 0, [⟨none, some [7], 0⟩]⟩, .crash 65,
    .appendBatch ⟨0, 0, 0, 0, 0, [⟨some [1], some [8, 9], 0⟩, ⟨none, none, 5⟩]⟩]

theorem torn_segment_recovers_tornRun :
    ∃ s', newSegment crc32c
        ((Runs.final (Segment.exec crc32c) (.fresh 40 4096) tornRun).file.take 70) 40 4096 =
        .ok s' ∧
      s'.batches =
        wholeWithin 70 (Runs.final (Segment.exec crc32c) (.fresh 40 4096) tornRun).batches ∧
      s'.file = s'.batches.flatten ∧ s'.currentSize = s'.file.length ∧ s'.file.length ≤ 70 ∧
      s'.baseOffset = 40 ∧ s'.nextOffset = offsetAfter 40 s'.batches ∧
      newSegment crc32c s'.file 40 4096 = .ok s' :=
  torn_segment_recovers crc32c (by decide) 4096 tornRun
    ⟨⟨trivial, by decide +kernel, by decide +kernel⟩, ⟨trivial, trivial⟩,
      ⟨trivial, by decide +kernel, by decide +kernel⟩, trivial⟩
    70 (by decide +kernel)

/-! ## A batch too long for its length field -/

theorem encodedBatchSize_oversized {value : ByteString} (h : value.length = 2 ^ 32 - 64) :
    encodedBatchSize (singleBatch value) = 2 ^ 32 + 12 := by
  rw [encodedBatchSize_single (by rw [h]; decide) (by rw [h]; decide)]
  omega

/-- The length field of such a batch is zero, and recovery asks for a buffer of
negative size. -/
theorem newSegment_oversized (crc : Checksum) {value : ByteString}
    (h : value.length = 2 ^ 32 - 64) (base : Nat) (maxSize : Int64) :
    newSegment crc (encodeBatch crc ((singleBatch value).assigned base) 0) base maxSize =
      .error .negativeAllocation := by
  have hsize : encodedBatchSize ((singleBatch value).assigned base) = 2 ^ 32 + 12 :=
    encodedBatchSize_oversized h
  have hlen := length_encodeBatch crc ((singleBatch value).assigned base) 0
  have hdecl := declaredSize_encodeBatch crc ((singleBatch value).assigned base) 0
  have hmagic := magic_encodeBatch crc ((singleBatch value).assigned base) 0
  rw [hsize] at hlen hdecl
  generalize encodeBatch crc ((singleBatch value).assigned base) 0 = file at hlen hdecl hmagic ⊢
  have hhead : readAt file 0 recordBatchOverhead = some (file.take recordBatchOverhead) := by
    have := readAt_append (a := []) (b := file) (c := []) (n := recordBatchOverhead)
      (by rw [recordBatchOverhead]; omega)
    rwa [List.append_nil, List.nil_append] at this
  have hsmall : declaredSize (file.take recordBatchOverhead) = 12 := by
    rw [declaredSize, batchLength, field_take (by decide)]
    rw [declaredSize, batchLength] at hdecl
    omega
  have htwo : magic (file.take recordBatchOverhead) = 2 := by
    rw [magic, field_take (by decide)]
    exact hmagic
  have hint : intactBatchAt crc file 0 = .error .negativeAllocation := by
    rw [intactBatchAt, hhead]
    simp only [hsmall, htwo]
    rw [if_neg (by omega), if_neg (by decide), if_pos (by decide)]
  have hloop : recoverLoop crc file file.length 0 base = .error .negativeAllocation := by
    obtain ⟨fuel, hfuel⟩ : ∃ k, file.length = k + 1 := ⟨file.length - 1, by omega⟩
    rw [hfuel, recoverLoop, if_pos (by omega), hint]
  rw [newSegment, if_neg (by omega), hloop]

theorem exec_oversized {value : ByteString} (h : value.length = 2 ^ 32 - 64) :
    (Segment.exec crc32c (.fresh 0 1099511627776) (.appendBatch (singleBatch value))).1 = none ∧
      (Segment.exec crc32c (.fresh 0 1099511627776) (.appendBatch (singleBatch value))).2.file =
        encodeBatch crc32c ((singleBatch value).assigned 0) 0 := by
  have hsize := encodedBatchSize_oversized h
  have hmax : (Segment.fresh 0 1099511627776).maxSize.toInt = 1099511627776 := by decide
  have hroom : ¬ (Segment.fresh 0 1099511627776).maxSize.toInt <
      (Segment.fresh 0 1099511627776).currentSize + encodedBatchSize (singleBatch value) := by
    rw [hsize, hmax]
    simp only [Segment.fresh]
    omega
  have hmsgs : (singleBatch value).messages ≠ [] := List.cons_ne_nil _ _
  simp only [Segment.exec, Segment.appendBatch, if_neg hmsgs, if_neg hroom, Segment.write]
  exact ⟨trivial, writeAt_length [] _⟩

/-- The append succeeds and the file it leaves cannot be opened. -/
theorem oversized_append_unrecoverable :
    ∃ value : ByteString, value.length = 2 ^ 32 - 64 ∧
      (Segment.exec crc32c (.fresh 0 1099511627776) (.appendBatch (singleBatch value))).1 = none ∧
      newSegment crc32c
        (Segment.exec crc32c (.fresh 0 1099511627776) (.appendBatch (singleBatch value))).2.file
        0 1099511627776 = .error .negativeAllocation := by
  have hlen : (List.replicate (2 ^ 32 - 64) (0 : UInt8)).length = 2 ^ 32 - 64 :=
    List.length_replicate
  obtain ⟨hok, hfile⟩ := exec_oversized hlen
  refine ⟨_, hlen, hok, ?_⟩
  rw [hfile]
  exact newSegment_oversized crc32c hlen 0 1099511627776

end MessageBroker.Storage
