import MessageBroker.Storage.Stamping

/-!
# The internal append path

`encodeBatch` builds a batch from messages and `encodedBatchSize` predicts its
length without building it. An encoding shorter than 4 GiB is a stored batch;
beyond that the length field wraps and the file no longer says where it ends.
-/
namespace MessageBroker.Storage

open Lib.Bytes Lib.Tiling

/-! ## The predicted size -/

theorem length_uvarint (fuel u : Nat) : (uvarint fuel u).length = uvarintSize fuel u := by
  induction fuel generalizing u with
  | zero => rfl
  | succ fuel ih =>
    unfold uvarint uvarintSize
    split
    · rw [List.length_cons, ih]
    · rfl

theorem length_varint (v : Int64) : (varint v).length = varintSize v := length_uvarint 10 (zigzag v)

theorem length_nullable (o : Option ByteString) : (nullable o).length = nullableSize o := by
  cases o with
  | none => exact length_varint (-1)
  | some bs => rw [nullable, List.length_append, length_varint, nullableSize]

theorem length_recordBody (firstTimestamp : Int64) (i : Nat) (msg : Message) :
    (recordBody firstTimestamp i msg).length = recordBodySize firstTimestamp i msg := by
  have h0 : (varint 0).length = 1 := by decide
  simp only [recordBody, recordBodySize, List.length_append, List.length_singleton, length_varint,
    length_nullable] at h0 ⊢
  omega

theorem length_records (firstTimestamp : Int64) (i : Nat) (msgs : List Message) :
    (records firstTimestamp i msgs).length = recordsSize firstTimestamp i msgs := by
  induction msgs generalizing i with
  | nil => rfl
  | cons msg msgs ih =>
    simp only [records, recordsSize, List.length_append, length_varint, length_recordBody, ih]

theorem length_crcBody (batch : Batch) :
    (crcBody batch).length = 40 + recordsSize batch.firstTimestamp 0 batch.messages := by
  simp only [crcBody, List.length_append, length_beBytes, length_records]

/-- The prediction is exact. -/
theorem length_encodeBatch (crc : Checksum) (batch : Batch) (leaderEpoch : Int32) :
    (encodeBatch crc batch leaderEpoch).length = encodedBatchSize batch := by
  simp only [encodeBatch, List.length_append, length_beBytes, List.length_singleton,
    length_crcBody, encodedBatchSize, recordBatchOverhead]
  omega

theorem length_le_recordsSize (firstTimestamp : Int64) (i : Nat) (msgs : List Message) :
    2 * msgs.length ≤ recordsSize firstTimestamp i msgs := by
  induction msgs generalizing i with
  | nil => simp
  | cons msg msgs ih =>
    have h := ih (i + 1)
    simp only [recordsSize, recordBodySize, List.length_cons]
    omega

/-! ## The encoding is a stored batch -/

section Encode

variable (crc : Checksum) (batch : Batch) (leaderEpoch : Int32)

/-- The numbers of a batch header, with their widths in bytes. -/
def headerWords : List (Nat × Nat) :=
  [(8, batch.firstOffset), (4, 4 + 1 + 4 + (crcBody batch).length),
    (4, leaderEpoch.toUInt32.toNat), (1, 2), (4, (crc (crcBody batch)).toNat),
    (2, batch.attributes.toNat), (4, batch.lastOffsetDelta),
    (8, batch.firstTimestamp.toUInt64.toNat), (8, batch.maxTimestamp.toUInt64.toNat),
    (8, 0xFFFFFFFFFFFFFFFF), (2, 0xFFFF), (4, 0xFFFFFFFF), (4, batch.messages.length)]

theorem encodeBatch_eq_words : encodeBatch crc batch leaderEpoch =
    beWords (headerWords crc batch leaderEpoch) ++
      records batch.firstTimestamp 0 batch.messages := by
  have hmagic : beBytes 1 2 = [2] := by decide
  simp only [encodeBatch, crcBody, headerWords, beWords, hmagic, List.append_assoc,
    List.append_nil]

theorem map_fst_headerWords : (headerWords crc batch leaderEpoch).map Prod.fst =
    [8, 4, 4, 1, 4, 2, 4, 8, 8, 8, 2, 4, 4] := rfl

/-- What an encoded batch has in the header field at position `i`. -/
theorem field_encodeBatch {k i w n : Nat}
    (h : (headerWords crc batch leaderEpoch)[k]? = some (w, n))
    (hi : ([8, 4, 4, 1, 4, 2, 4, 8, 8, 8, 2, 4, 4].take k).sum = i) :
    field (encodeBatch crc batch leaderEpoch) i w = n % 256 ^ w := by
  have hfield := field_beWords h (records batch.firstTimestamp 0 batch.messages)
  rwa [List.map_take, map_fst_headerWords, hi, ← encodeBatch_eq_words] at hfield

theorem baseOffset_encodeBatch (h : batch.firstOffset < 2 ^ 64) :
    baseOffset (encodeBatch crc batch leaderEpoch) = batch.firstOffset :=
  (field_encodeBatch crc batch leaderEpoch (k := 0) rfl (by decide)).trans (Nat.mod_eq_of_lt h)

theorem drop_encodeBatch : (encodeBatch crc batch leaderEpoch).drop 21 = crcBody batch := by
  have hlen : (beBytes 8 batch.firstOffset ++ beBytes 4 (4 + 1 + 4 + (crcBody batch).length) ++
      beBytes 4 leaderEpoch.toUInt32.toNat ++ [2] ++
      beBytes 4 (crc (crcBody batch)).toNat).length = 21 := by
    simp only [List.length_append, length_beBytes, List.length_singleton]
  exact List.drop_left' hlen

theorem lastOffsetDelta_encodeBatch (h : batch.lastOffsetDelta < 2 ^ 32) :
    lastOffsetDelta (encodeBatch crc batch leaderEpoch) = batch.lastOffsetDelta :=
  (field_encodeBatch crc batch leaderEpoch (k := 6) rfl (by decide)).trans (Nat.mod_eq_of_lt h)

/-- The length field holds what fits it of the size. -/
theorem declaredSize_encodeBatch :
    declaredSize (encodeBatch crc batch leaderEpoch) =
      12 + (encodedBatchSize batch - 12) % 2 ^ 32 := by
  have hsize : encodedBatchSize batch - 12 = 4 + 1 + 4 + (crcBody batch).length := by
    rw [length_crcBody batch, encodedBatchSize, recordBatchOverhead]
    omega
  have hfield : batchLength (encodeBatch crc batch leaderEpoch) =
      (4 + 1 + 4 + (crcBody batch).length) % 2 ^ 32 :=
    field_encodeBatch crc batch leaderEpoch (k := 1) rfl (by decide)
  rw [declaredSize, hfield, hsize]

theorem magic_encodeBatch : magic (encodeBatch crc batch leaderEpoch) = 2 :=
  field_encodeBatch crc batch leaderEpoch (k := 3) rfl (by decide)

theorem storedCRC_encodeBatch :
    storedCRC (encodeBatch crc batch leaderEpoch) = (crc (crcBody batch)).toNat :=
  (field_encodeBatch crc batch leaderEpoch (k := 4) rfl (by decide)).trans
    (Nat.mod_eq_of_lt (crc (crcBody batch)).toNat_lt)

theorem recordCount_encodeBatch (h : batch.messages.length < 2 ^ 32) :
    recordCount (encodeBatch crc batch leaderEpoch) = batch.messages.length :=
  (field_encodeBatch crc batch leaderEpoch (k := 12) rfl (by decide)).trans (Nat.mod_eq_of_lt h)

theorem drop_overhead_encodeBatch : (encodeBatch crc batch leaderEpoch).drop recordBatchOverhead =
    records batch.firstTimestamp 0 batch.messages := by
  have hlen : (beWords (headerWords crc batch leaderEpoch)).length = recordBatchOverhead := by
    rw [length_beWords, map_fst_headerWords]
    decide
  rw [encodeBatch_eq_words, List.drop_left' hlen]

theorem overhead_le_encodedBatchSize : recordBatchOverhead ≤ encodedBatchSize batch :=
  Nat.le_add_right _ _

/-- An encoding whose length fits the header is a stored batch. -/
theorem stored_encodeBatch (h : encodedBatchSize batch < 2 ^ 32 + 12) :
    Stored crc (encodeBatch crc batch leaderEpoch) := by
  have hlen := length_encodeBatch crc batch leaderEpoch
  have hmin := overhead_le_encodedBatchSize batch
  refine ⟨?_, ?_, magic_encodeBatch crc batch leaderEpoch, ?_⟩
  · rw [declaredSize_encodeBatch, Nat.mod_eq_of_lt (by omega), hlen]
    rw [recordBatchOverhead] at hmin
    omega
  · rw [hlen]
    exact hmin
  · rw [drop_encodeBatch, storedCRC_encodeBatch]

end Encode

/-- The batch that `AppendBatch` encodes, at a given end offset. -/
def Batch.assigned (batch : Batch) (offset : Nat) : Batch :=
  { batch with firstOffset := offset, lastOffsetDelta := (batch.messages.length - 1) % 2 ^ 32 }

/-- One message with no key and this value. -/
def singleBatch (value : ByteString) : Batch := ⟨0, 0, 0, 0, 0, [⟨none, some value, 0⟩]⟩

theorem recordBodySize_single {value : ByteString}
    (h : varintSize (Int64.ofNat value.length) = 5) :
    recordBodySize 0 0 ⟨none, some value, 0⟩ = value.length + 10 := by
  have h0 : varintSize (0 - 0) = 1 := by decide
  have h1 : varintSize (Int64.ofNat 0) = 1 := by decide
  have h2 : varintSize (-1) = 1 := by decide
  simp only [recordBodySize, nullableSize, h, h0, h1, h2]
  omega

/-- A value of at least 128 MiB, whose two length prefixes take five bytes each. -/
theorem encodedBatchSize_single {value : ByteString}
    (h : varintSize (Int64.ofNat value.length) = 5)
    (hbody : varintSize (Int64.ofNat (value.length + 10)) = 5) :
    encodedBatchSize (singleBatch value) = value.length + 76 := by
  simp only [encodedBatchSize, singleBatch, recordsSize, recordBodySize_single h, hbody,
    recordBatchOverhead]
  omega

/-- The internal append without write faults: refused without a trace, or one
more batch of epoch 0 at the old end offset. -/
theorem appendBatch_cases {crc : Checksum} {s : Segment} {cs : List ByteString} (h : s.Rep crc cs)
    (batch : Batch) (hsize : encodedBatchSize batch < 2 ^ 32 + 12)
    (hnext : s.nextOffset + batch.messages.length < 2 ^ 64) :
    (∃ e, s.appendBatch crc batch none = (.error e, s)) ∨
    ∃ s', s.appendBatch crc batch none = (.ok (s.currentSize, s.nextOffset), s') ∧
      s'.Rep crc (cs ++ [encodeBatch crc (batch.assigned s.nextOffset) 0]) ∧
      s'.baseOffset = s.baseOffset ∧ s'.nextOffset = s.nextOffset + batch.messages.length ∧
      0 < batch.messages.length ∧ s'.maxSize = s.maxSize := by
  unfold Segment.appendBatch
  by_cases hempty : batch.messages = []
  · exact .inl ⟨_, if_pos hempty⟩
  rw [if_neg hempty]
  by_cases hfull : s.maxSize.toInt < s.currentSize + encodedBatchSize batch
  · exact .inl ⟨_, if_pos hfull⟩
  rw [if_neg hfull]
  right
  have hpos : 0 < batch.messages.length := List.length_pos_iff.mpr hempty
  have hcount := length_le_recordsSize batch.firstTimestamp 0 batch.messages
  have hs' : encodedBatchSize batch = 61 + recordsSize batch.firstTimestamp 0 batch.messages := rfl
  have hlod : (batch.messages.length - 1) % 2 ^ 32 = batch.messages.length - 1 :=
    Nat.mod_eq_of_lt (by omega)
  have hsame : encodedBatchSize (batch.assigned s.nextOffset) = encodedBatchSize batch := rfl
  have hst := stored_encodeBatch crc (batch.assigned s.nextOffset) 0 (hsame ▸ hsize)
  have hbase : baseOffset (encodeBatch crc (batch.assigned s.nextOffset) 0) = s.nextOffset :=
    baseOffset_encodeBatch crc (batch.assigned s.nextOffset) 0 h.next_lt
  have hdelta : lastOffsetDelta (encodeBatch crc (batch.assigned s.nextOffset) 0) =
      batch.messages.length - 1 := by
    rw [lastOffsetDelta_encodeBatch crc (batch.assigned s.nextOffset) 0
      (Nat.mod_lt _ (by decide))]
    exact hlod
  have hend : endOffset (encodeBatch crc (batch.assigned s.nextOffset) 0) =
      s.nextOffset + batch.messages.length := by
    rw [endOffset, hbase, hdelta]
    omega
  have htiles : BatchTiles s.nextOffset (s.nextOffset + batch.messages.length)
      [encodeBatch crc (batch.assigned s.nextOffset) 0] := ⟨hbase, by omega, hend⟩
  have hmod : (s.nextOffset + batch.messages.length) % 2 ^ 64 =
      s.nextOffset + batch.messages.length := Nat.mod_eq_of_lt hnext
  have hflat : encodeBatch crc (batch.assigned s.nextOffset) 0 =
      [encodeBatch crc (batch.assigned s.nextOffset) 0].flatten := by simp
  have hrep := rep_append h (by simpa using hst) htiles hnext hflat
  simp only [Segment.write, hmod]
  exact ⟨_, rfl, hrep, rfl, rfl, hpos, rfl⟩

end MessageBroker.Storage
