import MessageBroker.Storage.Gaps

/-!
# What a truncation keeps

What `TruncateTo` accepts it cuts exactly, and what it cannot cut it leaves
alone, also in a log with gaps. The walk over the batches trusts their length
fields; an internal append of more than 4 GiB wraps that field, and the walk
then takes bytes of a message for a batch.
-/
namespace MessageBroker.Storage

open Lib.Bytes Lib.Tiling Lib

namespace Log

/-- The log `l'` is `l` cut at the offset. -/
structure TruncatedTo (l l' : Log) (offset : Nat) : Prop where
  batches : l'.batches = l.batches.filter fun c => decide (endOffset c ≤ offset)
  next : l'.nextOffset = offset
  oldest : l'.oldestOffset = l.oldestOffset
  epochCache : l'.epochCache = if offset = l.nextOffset then l.epochCache
    else l.epochCache.filter fun e => decide (e.startOffset < offset)

/-- An offset at which the log cannot be cut. -/
def Uncuttable (l : Log) (offset : Nat) : Prop :=
  offset < l.oldestOffset ∨ l.nextOffset < offset ∨
    ∃ c ∈ l.batches, baseOffset c < offset ∧ offset < endOffset c

theorem Recut.truncatedTo {crc : Checksum} {l : Log} (h : l.Apart crc) {offset : Nat}
    {target : Target} {p : SegmentPair} (hr : Recut crc l offset target p) {l' : Log}
    (hpairs : l'.pairs = l.before target ++ [p])
    (hcache : l'.epochCache = l.epochCache.truncateFromEnd offset) : TruncatedTo l l' offset := by
  have hok := h.pair
  have hapart := h.apart
  rw [hr.split] at hok hapart
  obtain ⟨-, -, hcross⟩ := List.pairwise_append.mp hapart
  obtain ⟨cut, hcut, htail⟩ := hr.batches
  refine ⟨?_, ?_, ?_, ?_⟩
  · have hbefore : ∀ q ∈ l.before target, ∀ c ∈ q.segment.batches, endOffset c ≤ offset := by
      intro q hq c hc
      have hend := ((hok q (List.mem_append_left _ hq)).rep.tiles.mem hc).2.2
      have hnext := hcross q hq _ List.mem_cons_self
      have hbase := hr.ok.rep.base_le_next
      rw [hr.base, hr.next] at hbase
      omega
    have hafter : ∀ q ∈ l.after target, ∀ c ∈ q.segment.batches, offset < endOffset c := by
      intro q hq c hc
      have hmem := (hok q (by simp [hq])).rep.tiles.mem hc
      have := hr.after q hq
      omega
    have hkept : (p.segment.batches ++ cut).filter (fun c => decide (endOffset c ≤ offset)) =
        p.segment.batches := (hr.next ▸ hr.ok.rep.tiles).filter_hi_le htail
    have h1 : ((l.before target).flatMap fun q => q.segment.batches).filter
        (fun c => decide (endOffset c ≤ offset)) =
          (l.before target).flatMap fun q => q.segment.batches := by
      refine List.filter_eq_self.mpr fun c hc => ?_
      obtain ⟨q, hq, hc⟩ := List.mem_flatMap.mp hc
      simpa using hbefore q hq c hc
    have h2 : ((l.after target).flatMap fun q => q.segment.batches).filter
        (fun c => decide (endOffset c ≤ offset)) = [] := by
      refine List.filter_eq_nil_iff.mpr fun c hc => ?_
      obtain ⟨q, hq, hc⟩ := List.mem_flatMap.mp hc
      simpa using hafter q hq c hc
    rw [Log.batches, Log.batches, hpairs, hr.split]
    simp only [List.flatMap_append, List.flatMap_cons, List.flatMap_nil, List.append_nil, hcut]
    rw [List.filter_append, List.filter_append, h1, hkept, h2, List.append_nil]
  · have hlast : l'.segments = (l.before target).map (·.segment) ++ [p.segment] := by
      rw [segments, hpairs, List.map_append]
      rfl
    rw [nextOffset_of_last hlast, hr.next]
  · cases hb : l.before target with
    | nil =>
      rw [hb] at hpairs
      have hsplit := hr.split
      rw [hb] at hsplit
      have hhead : l'.segments.head? = some p.segment := by rw [segments, hpairs]; rfl
      have hfirst : l.segments.head? = some (l.pairAt target).segment := by
        rw [segments, hsplit]
        rfl
      rw [oldestOffset_of_head hhead, hr.base, oldestOffset_of_head hfirst]
    | cons q qs =>
      rw [hb] at hpairs
      have hsplit := hr.split
      rw [hb] at hsplit
      have hhead : l'.segments.head? = some q.segment := by rw [segments, hpairs]; rfl
      have hfirst : l.segments.head? = some q.segment := by rw [segments, hsplit]; rfl
      rw [oldestOffset_of_head hhead, oldestOffset_of_head hfirst]
  · have hlt := hr.lt
    rw [if_neg (by omega), hcache, EpochCache.truncateFromEnd_eq_filter h.increasing]

/-- A truncation that returns no error cuts the log exactly. -/
theorem Apart.truncateTo_exact {crc : Checksum} {l l' : Log} (h : l.Apart crc) {io : Faults}
    (hio : io.Harmless) {offset : Nat} (ht : l.truncateTo offset io = (.ok (), l')) :
    TruncatedTo l l' offset := by
  obtain ⟨r, l'', he, -, hcase⟩ := h.truncateTo_cases hio offset
  obtain ⟨rfl, rfl⟩ := Prod.mk.inj (he.symm.trans ht)
  rcases hcase with ⟨⟨e, hr⟩, -⟩ | ⟨heq, hpairs, hcache⟩ | ⟨target, p, hr, hcase⟩
  · cases hr
  · have hlast : l''.segments = l.sealedPairs.map (·.segment) ++ [l.activePair.segment] := by
      rw [segments, hpairs, pairs, List.map_append]
      rfl
    have hnext : l''.nextOffset = l.nextOffset := nextOffset_of_last hlast
    refine ⟨?_, hnext.trans heq.symm, ?_, by rw [if_pos heq, hcache]⟩
    · rw [batches, hpairs]
      refine (List.filter_eq_self.mpr fun c hc => ?_).symm
      obtain ⟨q, hq, hc⟩ := List.mem_flatMap.mp hc
      have hend := ((h.pair q hq).rep.tiles.mem hc).2.2
      have hle := h.next_le hq
      simp only [decide_eq_true_eq]
      omega
    · cases hs : l.pairs with
      | nil => simp [pairs] at hs
      | cons q qs =>
        have hhead : l''.segments.head? = some q.segment := by rw [segments, hpairs, hs]; rfl
        have hfirst : l.segments.head? = some q.segment := by rw [segments, hs]; rfl
        rw [oldestOffset_of_head hhead, oldestOffset_of_head hfirst]
  · rcases hcase with ⟨⟨e, hr⟩, -⟩ | ⟨hpairs, hcache⟩
    · cases hr
    · exact hr.truncatedTo h hpairs hcache

/-- A truncation to an offset where the log cannot be cut does nothing. -/
theorem Apart.truncateTo_rejects {crc : Checksum} {l : Log} (h : l.Apart crc) {io : Faults}
    (hio : io.Harmless) {offset : Nat} (hu : l.Uncuttable offset) :
    ∃ e, l.truncateTo offset io = (.error e, l) := by
  rcases hu with hlt | hgt | ⟨c, hc, hlo, hhi⟩
  · unfold Log.truncateTo
    rw [if_pos hlt]
    split <;> exact ⟨_, rfl⟩
  · rw [Log.truncateTo, if_pos hgt]
    exact ⟨_, rfl⟩
  obtain ⟨q, hq, hc⟩ := List.mem_flatMap.mp hc
  have hmem := (h.pair q hq).rep.tiles.mem hc
  obtain ⟨r, l', he, -, hcase⟩ := h.truncateTo_cases hio offset
  rcases hcase with ⟨⟨e, rfl⟩, rfl⟩ | ⟨heq, -⟩ | ⟨target, p, hr, -⟩
  · exact ⟨e, he⟩
  · have hle := h.next_le hq
    omega
  · -- a pair was cut at the offset, so no batch reaches over it
    exfalso
    have hok := h.pair
    have hapart := h.apart
    rw [hr.split] at hok hapart hq
    obtain ⟨-, -, hcross⟩ := List.pairwise_append.mp hapart
    obtain ⟨cut, hcut, htail⟩ := hr.batches
    rcases List.mem_append.mp hq with hq | hq
    · have hnext := hcross q hq _ List.mem_cons_self
      have hbase := hr.ok.rep.base_le_next
      rw [hr.base, hr.next] at hbase
      omega
    · rcases List.mem_cons.mp hq with rfl | hq
      · rw [hcut] at hc
        rcases List.mem_append.mp hc with hc | hc
        · have := (hr.ok.rep.tiles.mem hc).2.2
          rw [hr.next] at this
          omega
        · have := (htail.mem hc).1
          omega
      · have := hr.after q hq
        omega

/-- A truncation of a reachable log cuts it exactly or, where it cannot be cut,
does nothing. -/
theorem truncation_exact {crc : Checksum} {config : LogConfig} {io : Faults} {l : Log}
    (hnew : newLog crc config [] none io = .ok l) (calls : List (Call × Faults))
    (hg : Runs.Guarded (Log.exec crc) Encodes l calls) (offset : Nat) :
    let l := Runs.final (Log.exec crc) l calls
    (∀ l', l.truncateTo offset .none = (.ok (), l') → TruncatedTo l l' offset) ∧
      (l.Uncuttable offset → ∃ e, l.truncateTo offset .none = (.error e, l)) :=
  ⟨fun _ ht => (run_apart hnew calls hg).truncateTo_exact Faults.none_harmless ht,
    fun hu => (run_apart hnew calls hg).truncateTo_rejects Faults.none_harmless hu⟩

/-- Also the log with a gap, after the truncation that left it, can be cut. -/
theorem truncation_exact_gapRun :
    (∃ l', gapLog.truncateTo 1 .none = (.ok (), l') ∧ TruncatedTo gapLog l' 1) ∧
      ∃ e, gapLog.truncateTo 5 .none = (.error e, gapLog) := by
  have hguard : Runs.Guarded (Log.exec crc32c) Encodes (fresh tightConfig) gapRun :=
    ⟨⟨Faults.none_harmless, trivial⟩, ⟨Faults.none_harmless, trivial⟩,
      ⟨Faults.none_harmless, trivial⟩, trivial⟩
  have hnew := newLog_nil crc32c tightConfig .none
  have hok : (gapLog.truncateTo 1 .none).1 = .ok () := by decide +kernel
  refine ⟨?_, (truncation_exact hnew gapRun hguard 5).2 (.inr (.inl (by decide +kernel)))⟩
  cases hcut : gapLog.truncateTo 1 .none with
  | mk r l' =>
    rw [hcut] at hok
    obtain rfl : r = .ok () := hok
    exact ⟨l', rfl, (truncation_exact hnew gapRun hguard 1).1 l' hcut⟩

/-! ## An encoding that does not fit its length field -/

/-- Two messages. -/
def pairBatch : Batch := ⟨0, 0, 0, 0, 0, [⟨none, none, 0⟩, ⟨none, none, 0⟩]⟩

/-- The first bytes of a batch at offset 2. -/
def fakeHeader : ByteString := [0, 0, 0, 0, 0, 0, 0, 2, 0, 0, 0, 0]

/-- Segments of up to 8 GiB. -/
def wideConfig : LogConfig := ⟨8589934592, 1000, 4096, 1000⟩

/-- A log of one segment in this configuration. -/
def wideLog (file : ByteString) (next size bytes : Nat) : Log :=
  ⟨wideConfig, [], ⟨⟨file, 0, next, size, 8589934592⟩, ⟨[⟨0, 0⟩], 0, 1000⟩, bytes⟩, [], none,
    false, []⟩

/-- A batch that fits an empty segment is stored at offset 0. -/
theorem append_single {value : ByteString} (crc : Checksum) {n : Nat}
    (hsize : encodedBatchSize (singleBatch value) = n) (hroom : n ≤ 8589934592) :
    (fresh wideConfig).append crc (singleBatch value) .none =
      (.ok 0, wideLog (encodeBatch crc (singleBatch value) 0) 1 n 0) := by
  have hroll : (fresh wideConfig).rollIfFull crc .none = (.ok (), fresh wideConfig) := by rfl
  have hlength := (length_encodeBatch crc (singleBatch value) 0).trans hsize
  have happend : (fresh wideConfig).activePair.segment.appendBatch crc (singleBatch value) none =
      (.ok (0, 0), ⟨encodeBatch crc (singleBatch value) 0, 0, 1, n, 8589934592⟩) := by
    have hcap : ¬ (8589934592 : Int64).toInt < ((0 : Nat) : Int) + (n : Int) := by
      have hmax : (8589934592 : Int64).toInt = 8589934592 := by decide
      omega
    rw [Segment.appendBatch, if_neg (by simp [singleBatch]), hsize]
    refine (if_neg hcap).trans ?_
    have hwrite : writeAt [] 0 (encodeBatch crc (singleBatch value) 0) =
        encodeBatch crc (singleBatch value) 0 := writeAt_length [] _
    show (_, (⟨writeAt [] 0 (encodeBatch crc (singleBatch value) 0), 0, 1,
      0 + (encodeBatch crc (singleBatch value) 0).length, _⟩ : Segment)) = _
    rw [hwrite, hlength, Nat.zero_add]
    rfl
  have hindex : (⟨[], 0, 1000⟩ : Index).write 0 0 = (.ok (), ⟨[⟨0, 0⟩], 0, 1000⟩) := by decide
  have hnote : ∀ s bytes, ((fresh wideConfig).withSegment s).noteAppend 0 0 bytes =
      (.ok (), ⟨wideConfig, [], ⟨s, ⟨[⟨0, 0⟩], 0, 1000⟩, 0⟩, [], none, false, []⟩) := by
    intro s bytes
    have hfresh : ((fresh wideConfig).withSegment s).activePair.index = ⟨[], 0, 1000⟩ := by rfl
    rw [noteAppend]
    simp only
    rw [if_pos (by simp), hfresh, hindex]
    rfl
  rw [append, hroll]
  simp only [appendBatchToActive, Faults.none, happend, hnote]
  rfl

section Wrapped

variable {value rest : ByteString} (hlen : value.length = 2 ^ 32 - 1)

include hlen

theorem encodedBatchSize_wrapped : encodedBatchSize (singleBatch value) = 2 ^ 32 + 75 := by
  rw [encodedBatchSize_single (by rw [hlen]; decide) (by rw [hlen]; decide)]
  omega

/-- The value starts where the length field says the batch ends. -/
theorem encodeBatch_wrapped (crc : Checksum) :
    ∃ header, header.length = 75 ∧
      encodeBatch crc (singleBatch value) 0 = header ++ value ++ [0] := by
  have hsize : (varint (Int64.ofNat value.length)).length = 5 := by
    rw [hlen]
    decide
  have hbody : (varint (Int64.ofNat (recordBody 0 0 ⟨none, some value, 0⟩).length)).length = 5 := by
    rw [length_recordBody, recordBodySize_single (by rw [hlen]; decide), hlen]
    decide
  refine ⟨beBytes 8 0 ++ beBytes 4 (4 + 1 + 4 + (crcBody (singleBatch value)).length) ++
    beBytes 4 0 ++ [2] ++ beBytes 4 (crc (crcBody (singleBatch value))).toNat ++
    (beBytes 2 0 ++ beBytes 4 0 ++ beBytes 8 0 ++ beBytes 8 0 ++ beBytes 8 0xFFFFFFFFFFFFFFFF ++
      beBytes 2 0xFFFF ++ beBytes 4 0xFFFFFFFF ++ beBytes 4 1) ++
    varint (Int64.ofNat (recordBody 0 0 ⟨none, some value, 0⟩).length) ++
    ([0] ++ varint (0 - 0) ++ varint (Int64.ofNat 0) ++ varint (-1) ++
      varint (Int64.ofNat value.length)), ?_, ?_⟩
  · have h0 : (varint (0 - 0)).length = 1 := by decide
    have h1 : (varint (Int64.ofNat 0)).length = 1 := by decide
    have h2 : (varint (-1)).length = 1 := by decide
    simp only [List.length_append, length_beBytes, List.length_singleton, hsize, hbody, h0, h1, h2]
  · have h0 : varint 0 = [0] := by decide
    have hrecords : records 0 0 [⟨none, some value, 0⟩] =
        varint (Int64.ofNat (recordBody 0 0 ⟨none, some value, 0⟩).length) ++
        recordBody 0 0 ⟨none, some value, 0⟩ := by
      simp only [records, List.append_nil]
    have hcrc : crcBody (singleBatch value) = beBytes 2 0 ++ beBytes 4 0 ++
        beBytes 8 0 ++ beBytes 8 0 ++ beBytes 8 0xFFFFFFFFFFFFFFFF ++ beBytes 2 0xFFFF ++
        beBytes 4 0xFFFFFFFF ++ beBytes 4 1 ++ records 0 0 [⟨none, some value, 0⟩] := rfl
    have hrec : recordBody 0 0 ⟨none, some value, 0⟩ = [0] ++ varint (0 - 0) ++
        varint (Int64.ofNat 0) ++ varint (-1) ++ (varint (Int64.ofNat value.length) ++ value) ++
        [0] := by
      rw [recordBody, h0]
      rfl
    have henc : encodeBatch crc (singleBatch value) 0 = beBytes 8 0 ++
        beBytes 4 (4 + 1 + 4 + (crcBody (singleBatch value)).length) ++ beBytes 4 0 ++ [2] ++
        beBytes 4 (crc (crcBody (singleBatch value))).toNat ++ crcBody (singleBatch value) := rfl
    rw [henc]
    generalize hb : beBytes 4 (4 + 1 + 4 + (crcBody (singleBatch value)).length) = b
    generalize hc : beBytes 4 (crc (crcBody (singleBatch value))).toNat = c
    generalize hv : varint (Int64.ofNat (recordBody 0 0 ⟨none, some value, 0⟩).length) = v
      at hrecords ⊢
    rw [hcrc, hrecords, hrec]
    simp only [List.append_assoc]

omit hlen in
theorem append_pair (crc : Checksum) {file : ByteString} (hfile : file.length = 2 ^ 32 + 75) :
    (wideLog file 1 (2 ^ 32 + 75) 0).append crc pairBatch .none =
      (.ok 1, wideLog (file ++ encodeBatch crc (pairBatch.assigned 1) 0) 3 (2 ^ 32 + 150) 75) := by
  have hroll : (wideLog file 1 (2 ^ 32 + 75) 0).rollIfFull crc .none =
      (.ok (), wideLog file 1 (2 ^ 32 + 75) 0) := by rfl
  have hsize : encodedBatchSize pairBatch = 75 := by decide
  have hlength := (length_encodeBatch crc (pairBatch.assigned 1) 0).trans hsize
  have happend : (⟨file, 0, 1, 2 ^ 32 + 75, 8589934592⟩ : Segment).appendBatch crc pairBatch none =
      (.ok (2 ^ 32 + 75, 1), ⟨file ++ encodeBatch crc (pairBatch.assigned 1) 0, 0, 3,
        2 ^ 32 + 150, 8589934592⟩) := by
    rw [Segment.appendBatch, if_neg (by decide), hsize]
    have hcap : ¬ (8589934592 : Int64).toInt <
        ((2 ^ 32 + 75 : Nat) : Int) + ((75 : Nat) : Int) := by
      decide
    refine (if_neg hcap).trans ?_
    have hwrite : writeAt file (2 ^ 32 + 75) (encodeBatch crc (pairBatch.assigned 1) 0) =
        file ++ encodeBatch crc (pairBatch.assigned 1) 0 := by
      rw [← hfile]
      exact writeAt_length file _
    show (_, (⟨writeAt file (2 ^ 32 + 75) (encodeBatch crc (pairBatch.assigned 1) 0), 0, 3,
      2 ^ 32 + 75 + (encodeBatch crc (pairBatch.assigned 1) 0).length, _⟩ : Segment)) = _
    rw [hwrite, hlength]
  have hnote : ∀ s, ((wideLog file 1 (2 ^ 32 + 75) 0).withSegment s).noteAppend 1 (2 ^ 32 + 75) 75 =
      (.ok (), ⟨wideConfig, [], ⟨s, ⟨[⟨0, 0⟩], 0, 1000⟩, 75⟩, [], none, false, []⟩) := by
    intro s
    have hinterval : ¬ (2 ^ 32 + 75 = 0 ∨ (4096 : Int64).toInt ≤ ((0 + 75 : Nat) : Int)) := by
      decide
    unfold noteAppend
    exact if_neg hinterval
  rw [append, hroll]
  simp only [appendBatchToActive]
  rw [show (wideLog file 1 (2 ^ 32 + 75) 0).activePair.segment =
    ⟨file, 0, 1, 2 ^ 32 + 75, 8589934592⟩ from rfl, show Faults.none.writeFails = none from rfl,
    happend]
  simp only [hsize, hnote]
  rfl

/-- The walk over the batches takes the fake header for a batch. -/
theorem truncateTo_wrapped (crc : Checksum) (hfake : value = fakeHeader ++ rest)
    (tail : ByteString) :
    ∃ l', (wideLog (encodeBatch crc (singleBatch value) 0 ++ tail) 3 (2 ^ 32 + 150) 75).truncateTo 2
        .none = (.ok (), l') ∧ l'.nextOffset = 2 := by
  obtain ⟨header, hheader, henc⟩ := encodeBatch_wrapped hlen crc
  have hfield : ∀ i w, i + w ≤ 75 →
      field header i w = field (encodeBatch crc (singleBatch value) 0) i w := by
    intro i w hle
    rw [henc, List.append_assoc, field_append_left (by omega)]
  have hbase : baseOffset header = 0 := by
    rw [baseOffset, hfield 0 8 (by omega)]
    exact baseOffset_encodeBatch crc (singleBatch value) 0 (show 0 < 2 ^ 64 by decide)
  have hdelta : lastOffsetDelta header = 0 := by
    rw [lastOffsetDelta, hfield 23 4 (by omega)]
    exact lastOffsetDelta_encodeBatch crc (singleBatch value) 0 (show 0 < 2 ^ 32 by decide)
  have hdeclared : declaredSize header = 75 := by
    have h := declaredSize_encodeBatch crc (singleBatch value) 0
    rw [encodedBatchSize_wrapped hlen, declaredSize, batchLength, ← hfield 8 4 (by omega)] at h
    exact h
  have hmeta : ∀ more next size, (⟨header ++ more, 0, next, size, 8589934592⟩ :
      Segment).readBatchMetaAt 0 = .ok (0, 0, 75) := by
    intro more next size
    have hread : readAt (header ++ more) 0 27 = some (header.take 27) :=
      readAt_append (a := []) (by omega)
    have h1 : baseOffset (header.take 27) = 0 := (field_take (by omega)).trans hbase
    have h2 : lastOffsetDelta (header.take 27) = 0 := (field_take (by omega)).trans hdelta
    have h3 : declaredSize (header.take 27) = 75 := by
      rw [declaredSize, batchLength, field_take (by omega)]
      exact hdeclared
    rw [Segment.readBatchMetaAt, hread]
    simp only [h1, h2, h3]
  have hfakeMeta : ∃ lod, (⟨header ++ value ++ ([0] ++ tail), 0, 3, 2 ^ 32 + 150, 8589934592⟩ :
      Segment).readBatchMetaAt 75 = .ok (2, lod, 12) := by
    have hread : readAt (header ++ value ++ ([0] ++ tail)) 75 27 = some (value.take 27) := by
      rw [List.append_assoc, ← hheader]
      exact readAt_append (show 27 ≤ value.length by omega)
    have h12 : fakeHeader.length = 12 := rfl
    have h1 : baseOffset (value.take 27) = 2 := by
      rw [baseOffset, field_take (by omega), hfake, field_append_left (by omega)]
      decide
    have h3 : declaredSize (value.take 27) = 12 := by
      rw [declaredSize, batchLength, field_take (by omega), hfake, field_append_left (by omega)]
      decide
    rw [Segment.readBatchMetaAt, hread]
    refine ⟨lastOffsetDelta (value.take 27), ?_⟩
    simp only [h1, h3]
  have hfind : (⟨header ++ value ++ ([0] ++ tail), 0, 3, 2 ^ 32 + 150, 8589934592⟩ :
      Segment).findTruncationPosition 2 = .ok 75 := by
    obtain ⟨lod, hlod⟩ := hfakeMeta
    have hfirst := hmeta (value ++ ([0] ++ tail)) 3 (2 ^ 32 + 150)
    rw [← List.append_assoc] at hfirst
    rw [Segment.findTruncationPosition, show 2 ^ 32 + 150 + 1 = 2 ^ 32 + 149 + 1 + 1 by omega,
      Segment.truncationLoop, hfirst]
    simp only
    rw [if_pos (by omega), if_neg (by omega), if_neg (by omega), if_neg (by omega),
      Segment.truncationLoop, hlod]
    simp only
    rw [if_pos (by omega), if_neg (by omega), if_pos trivial]
  have htruncate : (⟨header ++ value ++ ([0] ++ tail), 0, 3, 2 ^ 32 + 150, 8589934592⟩ :
      Segment).truncateAt 75 2 false = (.ok (), ⟨header, 0, 2, 75, 8589934592⟩) := by
    have htake : (header ++ value ++ ([0] ++ tail)).take 75 = header := by
      rw [List.append_assoc, ← hheader, List.take_left]
    rw [Segment.truncateAt, if_neg (show ¬ 2 < 0 by omega),
      if_neg (show ¬ 2 ^ 32 + 150 < 75 by omega), htake]
    rfl
  have hrebuild : rebuildIndexFromSegment ⟨header, 0, 2, 75, 8589934592⟩ ⟨[⟨0, 0⟩], 0, 1000⟩
      4096 = (.ok 0, ⟨[⟨0, 0⟩], 0, 1000⟩) := by
    have hfirst := hmeta [] 2 75
    rw [List.append_nil] at hfirst
    have hindex : (⟨[], 0, 1000⟩ : Index).write 0 0 = (.ok (), ⟨[⟨0, 0⟩], 0, 1000⟩) := by decide
    rw [rebuildIndexFromSegment, Index.reset, show 75 + 1 = 74 + 1 + 1 from rfl, rebuildLoop,
      hfirst]
    simp only
    rw [if_pos (by omega), if_neg (by omega), if_neg (by omega), if_pos (.inl trivial), hindex]
    simp only
    rw [rebuildLoop, if_neg (show ¬ 0 + 75 < 75 by omega)]
  rw [henc, List.append_assoc]
  have hcut : truncateSegmentPair (wideLog (header ++ value ++ ([0] ++ tail)) 3 (2 ^ 32 + 150)
      75).activePair 75 2 4096 false =
      (.ok (), ⟨⟨header, 0, 2, 75, 8589934592⟩, ⟨[⟨0, 0⟩], 0, 1000⟩, 0⟩) := by
    unfold truncateSegmentPair
    simp only [wideLog, htruncate, hrebuild]
  refine ⟨wideLog header 2 75 0, ?_, rfl⟩
  generalize hl : wideLog (header ++ value ++ ([0] ++ tail)) 3 (2 ^ 32 + 150) 75 = l at hcut ⊢
  have hnext : l.nextOffset = 3 := by rw [← hl]; rfl
  have hold : l.oldestOffset = 0 := by rw [← hl]; rfl
  have hseg : l.findSegment 2 = some .active := by rw [← hl]; rfl
  have hpos : (l.pairAt .active).segment.findTruncationPosition 2 = .ok 75 := by
    rw [← hl]
    exact hfind
  have hinterval : l.config.indexIntervalBytes = 4096 := by rw [← hl]; rfl
  rw [Log.truncateTo, hnext, hold, if_neg (by omega), if_neg (by omega), if_pos (by omega), hseg]
  simp only [hpos, hinterval]
  rw [show l.pairAt .active = l.activePair from rfl,
    show Faults.none.truncateFails = false from rfl, hcut, ← hl]
  rfl

end Wrapped

/-- A message of 4 GiB whose value has the first bytes of a batch at its start. -/
def wideValue : ByteString := fakeHeader ++ List.replicate (2 ^ 32 - 13) 0

/-- A batch whose encoding does not fit the length field is stored; a truncation
into the two records of the next batch then finds a boundary inside the first. -/
theorem truncation_inside_batch :
    ∃ l₁ l₂ l₃, (fresh wideConfig).append crc32c (singleBatch wideValue) .none = (.ok 0, l₁) ∧
      l₁.append crc32c pairBatch .none = (.ok 1, l₂) ∧ l₂.nextOffset = 3 ∧
      l₂.truncateTo 2 .none = (.ok (), l₃) ∧ l₃.nextOffset = 2 := by
  have hlen : wideValue.length = 2 ^ 32 - 1 := by
    rw [wideValue, List.length_append, List.length_replicate]
    rfl
  have hfile := (length_encodeBatch crc32c (singleBatch wideValue) 0).trans
    (encodedBatchSize_wrapped hlen)
  obtain ⟨l₃, htruncate, hnext⟩ := truncateTo_wrapped hlen crc32c rfl
    (encodeBatch crc32c (pairBatch.assigned 1) 0)
  exact ⟨_, _, l₃, append_single crc32c (encodedBatchSize_wrapped hlen) (by decide),
    append_pair crc32c hfile, rfl, htruncate, hnext⟩

end Log

end MessageBroker.Storage
