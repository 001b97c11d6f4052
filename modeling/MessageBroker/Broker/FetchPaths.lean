import MessageBroker.Broker.Visibility

/-!
# The copying and the zero-copy fetch

`FetchRaw` copies the batches it returns, and `FetchRawRanges` names the bytes of
the segment file that hold them. Both read the log, track the follower and cut
what a consumer may not see in code of their own. The file shows that they fail
together and otherwise return the same bytes, and that they leave the partition
in the same state.
-/
namespace MessageBroker.Broker

open Lib.Bytes Lib Storage

/-! ## Capping a copy and capping a range -/

/-- `capToHW` sees only the bytes of its range, so a copy of them is cut alike. -/
theorem capLoop_slice {file : ByteString} {pos length : Nat} (hlong : pos + length ≤ file.length)
    (maxOffset : Nat) : ∀ (fuel consumed upTo : Nat),
    (∃ e e', capLoop file pos length maxOffset fuel consumed upTo = .error e ∧
      capLoop ((file.drop pos).take length) 0 length maxOffset fuel consumed upTo = .error e') ∨
    capLoop ((file.drop pos).take length) 0 length maxOffset fuel consumed upTo =
      capLoop file pos length maxOffset fuel consumed upTo := by
  intro fuel
  induction fuel with
  | zero => exact fun _ _ => .inr rfl
  | succ fuel ih =>
    intro consumed upTo
    rw [capLoop, capLoop]
    by_cases hdone : consumed < length
    · rw [if_pos hdone, if_pos hdone]
      by_cases hshort : length - consumed < 27
      · rw [if_pos hshort, if_pos hshort]
        exact .inl ⟨_, _, rfl, rfl⟩
      rw [if_neg hshort, if_neg hshort]
      have hslice : readAt ((file.drop pos).take length) (0 + consumed) 27 =
          readAt file (pos + consumed) 27 := by
        have hlen : ((file.drop pos).take length).length = length := by
          rw [List.length_take, List.length_drop]
          omega
        rw [readAt_of_le (by omega), readAt_of_le (by omega), Nat.zero_add, List.drop_take,
          List.take_take, List.drop_drop, Nat.min_eq_left (by omega)]
      rw [hslice, readAt_of_le (by omega)]
      simp only
      by_cases hmin : declaredSize ((file.drop (pos + consumed)).take 27) < recordBatchOverhead
      · rw [if_pos hmin, if_pos hmin]
        exact .inl ⟨_, _, rfl, rfl⟩
      rw [if_neg hmin, if_neg hmin]
      by_cases hexceeds :
          length < consumed + declaredSize ((file.drop (pos + consumed)).take 27)
      · rw [if_pos hexceeds, if_pos hexceeds]
        exact .inl ⟨_, _, rfl, rfl⟩
      rw [if_neg hexceeds, if_neg hexceeds]
      split
      · exact .inr rfl
      · exact ih _ _
    · rw [if_neg hdone, if_neg hdone]
      exact .inr rfl

theorem capLoop_le {file : ByteString} {pos length maxOffset n u : Nat} :
    ∀ {fuel consumed upTo : Nat}, consumed ≤ length →
      capLoop file pos length maxOffset fuel consumed upTo = .ok (n, u) → n ≤ length := by
  intro fuel
  induction fuel with
  | zero =>
    intro consumed upTo hle h
    cases h
    exact hle
  | succ fuel ih =>
    intro consumed upTo hle h
    rw [capLoop] at h
    split at h
    · split at h
      · cases h
      split at h
      · cases h
      simp only at h
      split at h
      · cases h
      split at h
      · cases h
      rename_i hfits
      split at h
      · cases h
        exact hle
      · exact ih (by omega) h
    · cases h
      exact hle

/-- Cutting the one range of a read and cutting its bytes: both fail, or the cut
range holds the cut bytes. -/
theorem capRanges_agree (p : Partition) (rg : RawRange) (hw fallback : Nat)
    (hlong : rg.offset + rg.length ≤ (p.log.fileAt rg.file).length) :
    (∃ e e', capRanges p.log hw [rg] fallback = .error e ∧
      capToHW (p.rangeBytes [rg]) 0 (p.rangeBytes [rg]).length hw fallback = .error e') ∨
    ∃ n upTo ranges size upTo',
      capToHW (p.rangeBytes [rg]) 0 (p.rangeBytes [rg]).length hw fallback = .ok (n, upTo) ∧
      capRanges p.log hw [rg] fallback = .ok (ranges, size, upTo') ∧
      p.rangeBytes ranges = (p.rangeBytes [rg]).take n ∧
      ((p.rangeBytes [rg]).take n ≠ [] → upTo' = upTo) := by
  rw [Partition.rangeBytes_single]
  have hlen : (((p.log.fileAt rg.file).drop rg.offset).take rg.length).length = rg.length := by
    rw [List.length_take, List.length_drop]
    omega
  rw [hlen]
  rcases capLoop_slice hlong hw (rg.length + 1) 0 fallback with ⟨e, e', he, he'⟩ | hsame
  · refine .inl ⟨e, e', ?_, he'⟩
    rw [capRanges, capToHW, he]
  · have hcap : capToHW (((p.log.fileAt rg.file).drop rg.offset).take rg.length) 0 rg.length hw
        fallback = capToHW (p.log.fileAt rg.file) rg.offset rg.length hw fallback := hsame
    rw [hcap]
    cases hc : capToHW (p.log.fileAt rg.file) rg.offset rg.length hw fallback with
    | error e =>
      refine .inl ⟨e, e, ?_, rfl⟩
      rw [capRanges, hc]
    | ok r =>
      obtain ⟨n, upTo⟩ := r
      right
      have hranges := capRanges_single hc
      by_cases hpos : 0 < n
      · rw [if_pos hpos] at hranges
        refine ⟨n, upTo, _, _, _, rfl, hranges, ?_, fun _ => rfl⟩
        rw [Partition.rangeBytes_single, List.take_take, Nat.min_eq_left]
        exact capLoop_le (Nat.zero_le _) hc
      · rw [if_neg hpos] at hranges
        obtain rfl : n = 0 := by omega
        exact ⟨0, upTo, _, _, _, rfl, hranges, rfl, fun hne => absurd List.take_zero hne⟩

/-! ## The two fetches -/

/-- Both fetches fail, or both succeed with the same watermark, log start and
records, and with the same next offset if there are records. -/
def SameFetch (p : Partition) :
    Except PartitionError FetchRawResult → Except PartitionError FetchRawRangeResult → Prop
  | .error _, .error _ => True
  | .ok r, .ok r' =>
      r'.highWatermark = r.highWatermark ∧ r'.logStartOffset = r.logStartOffset ∧
        p.rangeBytes r'.ranges = r.records ∧ (r.records ≠ [] → r'.fetchedUpTo = r.fetchedUpTo)
  | _, _ => False

@[simp] theorem updateFollowerLEO_log (p : Partition) (brokerID : Int32) (leo : Nat) :
    (p.updateFollowerLEO brokerID leo).log = p.log := by
  simp [Partition.updateFollowerLEO]

/-- Noting the position of a follower leaves the log alone. -/
theorem log_of_noted {p q : Partition} {replicaID : Int32} {offset : Nat}
    (h : (if decide (0 ≤ replicaID) = true then p.updateFollowerLEO replicaID offset else p) = q) :
    q.log = p.log := by
  rw [← h]
  split
  · exact updateFollowerLEO_log p replicaID offset
  · rfl

section Agree

variable {crc : Checksum} {p : Partition}

/-- Cutting at the watermark, the last step of both. -/
theorem capped_agree (rg : RawRange) (offset logStart upTo : Nat) (consumer : Prop)
    [Decidable consumer] (hlong : rg.offset + rg.length ≤ (p.log.fileAt rg.file).length) :
    let a : Except PartitionError FetchRawResult × Partition :=
      if consumer ∧ p.highWatermark < upTo then
        match capToHW (p.rangeBytes [rg]) 0 (p.rangeBytes [rg]).length p.highWatermark offset with
        | .error e => (.error (.capping e), p)
        | .ok (n, upTo) =>
          (.ok ⟨(p.rangeBytes [rg]).take n, p.highWatermark, logStart, upTo⟩, p)
      else (.ok ⟨p.rangeBytes [rg], p.highWatermark, logStart, upTo⟩, p)
    let b : Except PartitionError FetchRawRangeResult × Partition :=
      if consumer ∧ p.highWatermark < upTo then
        match capRanges p.log p.highWatermark [rg] offset with
        | .error e => (.error (.capping e), p)
        | .ok (ranges, size, upTo) => (.ok ⟨ranges, size, p.highWatermark, logStart, upTo⟩, p)
      else (.ok ⟨[rg], rg.length, p.highWatermark, logStart, upTo⟩, p)
    SameFetch p a.1 b.1 ∧ a.2 = b.2 := by
  simp only
  by_cases hcap : consumer ∧ p.highWatermark < upTo
  · rw [if_pos hcap, if_pos hcap]
    rcases capRanges_agree p rg p.highWatermark offset hlong with
      ⟨e, e', he, he'⟩ | ⟨n, upTo, ranges, size, upTo', hraw, hranges, hbytes, hupTo⟩
    · rw [he, he']
      exact ⟨trivial, rfl⟩
    · rw [hraw, hranges]
      exact ⟨⟨rfl, rfl, hbytes, hupTo⟩, rfl⟩
  · rw [if_neg hcap, if_neg hcap]
    exact ⟨⟨rfl, rfl, rfl, fun _ => rfl⟩, rfl⟩

theorem fetch_agree (h : p.log.Apart crc) (offset : Nat) (replicaID maxBytes : Int32) :
    SameFetch p (p.fetchRaw offset replicaID maxBytes).1
        (p.fetchRawRanges offset replicaID maxBytes true).1 ∧
      (p.fetchRaw offset replicaID maxBytes).2 =
        (p.fetchRawRanges offset replicaID maxBytes true).2 := by
  unfold Partition.fetchRaw Partition.fetchRawRanges
  simp only
  by_cases hclosed : p.closed = true
  · rw [if_pos hclosed, if_pos hclosed]
    exact ⟨trivial, rfl⟩
  rw [if_neg hclosed, if_neg hclosed]
  by_cases hleader : (!p.isLeader) = true
  · rw [if_pos hleader, if_pos hleader]
    exact ⟨trivial, rfl⟩
  rw [if_neg hleader, if_neg hleader]
  by_cases hrange : offset < p.log.oldestOffset ∨ p.leo < offset
  · rw [if_pos hrange, if_pos hrange]
    exact ⟨trivial, rfl⟩
  rw [if_neg hrange, if_neg hrange]
  by_cases hlow : (!decide (0 ≤ replicaID)) = true ∧ p.highWatermark ≤ offset
  · rw [if_pos hlow, if_pos hlow]
    exact ⟨⟨rfl, rfl, rfl, fun hne => absurd rfl hne⟩, rfl⟩
  rw [if_neg hlow, if_neg hlow]
  by_cases hend : decide (0 ≤ replicaID) = true ∧ offset = p.leo
  · rw [if_pos hend, if_pos hend]
    exact ⟨⟨rfl, rfl, rfl, fun hne => absurd rfl hne⟩, rfl⟩
  rw [if_neg hend, if_neg hend]
  rcases h.reads (show p.log.oldestOffset ≤ offset by omega) maxBytes with
    ⟨e, e', hranges, hraw⟩ | ⟨s, pre, cs, rest, upTo, hread, -, hranges, hraw⟩
  · rw [hranges, hraw]
    exact ⟨trivial, rfl⟩
  -- the range is the part of the file that the copy was made from
  have hfile := hread.rep.file_eq
  rw [List.flatten_append, List.flatten_append] at hfile
  have hlong : pre.flatten.length + cs.flatten.length ≤ (p.log.fileAt s.baseOffset).length := by
    rw [hread.file, hfile, List.length_append, List.length_append]
    omega
  have hbytes := rangeBytes_kept hread (List.append_nil cs).symm
  rw [hranges, hraw]
  simp only [Bool.not_true, Bool.false_eq_true, false_and, if_false]
  generalize hq : (if decide (0 ≤ replicaID) = true then p.updateFollowerLEO replicaID offset
    else p) = q
  have hlog := log_of_noted hq
  have hsame : q.rangeBytes = p.rangeBytes := by
    unfold Partition.rangeBytes
    rw [hlog]
  have hagree := capped_agree (p := q) ⟨s.baseOffset, pre.flatten.length, cs.flatten.length⟩ offset
    p.log.oldestOffset upTo ((!decide (0 ≤ replicaID)) = true) (by rw [hlog]; exact hlong)
  unfold SameFetch at hagree ⊢
  rw [hsame, hbytes] at hagree
  exact hagree

end Agree

/-- In every state that a partition reaches while no segment write or file removal
fails, the copying and the zero-copy fetch agree, for every offset, replica and
budget, and leave the same partition behind. -/
theorem fetch_paths_agree {crc : Checksum} {config : LogConfig} {io : Faults} {l : Log}
    (hnew : newLog crc config [] none io = .ok l) (id : Int32)
    (run : List (ReplicaEvent × Faults))
    (hg : Runs.Guarded (Partition.live crc) Partition.Undisturbed (newPartition id l) run)
    (offset : Nat) (replicaID maxBytes : Int32) :
    let p := Runs.final (Partition.live crc) (newPartition id l) run
    ∃ r r' p', p.fetchRaw offset replicaID maxBytes = (r, p') ∧
      p.fetchRawRanges offset replicaID maxBytes true = (r', p') ∧ SameFetch p r r' := by
  obtain ⟨hsame, hafter⟩ := fetch_agree (apart_run hnew id run hg) offset replicaID maxBytes
  exact ⟨_, _, _, rfl, Prod.ext rfl hafter.symm, hsame⟩

/-- A consumer's fetch that is cut to the first of two batches. -/
theorem fetch_paths_agree_capped :
    ∃ r r' p', cappedPartition.fetchRaw 0 (-1) 1000 = (.ok r, p') ∧ r.records.length = 68 ∧
      cappedPartition.fetchRawRanges 0 (-1) 1000 true = (r', p') ∧
      SameFetch cappedPartition (.ok r) r' := by
  obtain ⟨r, p', hr, hlen⟩ := fetched_of (x := cappedPartition.fetchRaw 0 (-1) 1000)
    (P := fun r => r.records.length = 68) (by decide +kernel)
  obtain ⟨a, r', q, ha, hr', hsame⟩ := fetch_paths_agree
    (Log.newLog_nil crc32c Log.roomyConfig .none) 1 cappedRun cappedRun_undisturbed 0 (-1) 1000
  obtain ⟨rfl, rfl⟩ := Prod.mk.inj (ha.symm.trans hr)
  exact ⟨r, r', q, hr, hlen, hr', hsame⟩

/-! ## What is handed out -/

section Serve

variable {crc : Checksum} {p : Partition}

/-- The end of `FetchRawRanges`: of the batches that were read, those up to the
watermark go to a consumer, and all to a follower. -/
theorem capped_batches {s : Segment} {offset : Nat} {maxBytes : Int32}
    {pre cs rest : List ByteString} (hread : Log.ReadFrom crc p.log s offset maxBytes pre cs rest)
    {q : Partition} (hq : q.log = p.log) (consumer : Bool) (logStart upTo : Nat) :
    ∃ r kept dropped,
      (if consumer = true ∧ q.highWatermark < upTo then
        match capRanges q.log q.highWatermark
            [⟨s.baseOffset, pre.flatten.length, cs.flatten.length⟩] offset with
        | .error e =>
            ((.error (.capping e), q) : Except PartitionError FetchRawRangeResult × Partition)
        | .ok (ranges, size, upTo) => (.ok ⟨ranges, size, q.highWatermark, logStart, upTo⟩, q)
      else (.ok ⟨[⟨s.baseOffset, pre.flatten.length, cs.flatten.length⟩], cs.flatten.length,
        q.highWatermark, logStart, upTo⟩, q)) = (.ok r, q) ∧
      cs = kept ++ dropped ∧ (∀ d ∈ dropped, consumer = true ∧ q.highWatermark < endOffset d) ∧
      p.rangeBytes r.ranges = kept.flatten ∧ r.recordsSize = kept.flatten.length := by
  have hdrop := hread.drop_file
  by_cases hcap : consumer = true ∧ q.highWatermark < upTo
  · obtain ⟨kept, dropped, hcs, -, hdropped, hto⟩ := capToHW_read hread.rep hdrop
      q.highWatermark offset
    rw [if_pos hcap, hq, capRanges_single (by rw [hread.file]; exact hto)]
    by_cases hpos : 0 < kept.flatten.length
    · rw [if_pos hpos]
      exact ⟨_, kept, dropped, rfl, hcs, fun d hd => ⟨hcap.1, hdropped d hd⟩,
        rangeBytes_kept hread hcs, rfl⟩
    · have hnil : kept.flatten = [] := List.length_eq_zero_iff.mp (by omega)
      rw [if_neg hpos]
      exact ⟨_, kept, dropped, rfl, hcs, fun d hd => ⟨hcap.1, hdropped d hd⟩, hnil.symm,
        by rw [hnil]; rfl⟩
  · rw [if_neg hcap]
    exact ⟨_, cs, [], rfl, (List.append_nil cs).symm, fun d hd => absurd hd List.not_mem_nil,
      rangeBytes_kept hread (List.append_nil cs).symm, rfl⟩

/-- What `FetchRawRanges` makes of the batches that were read. -/
theorem fetchRawRanges_of_read {s : Segment} {offset upTo : Nat} {replicaID maxBytes : Int32}
    {pre cs rest : List ByteString} (allow : Bool)
    (h : p.log.Apart crc) (hopen : p.closed = false) (hleader : p.isLeader = true)
    (hlow : replicaID < 0 → offset < p.highWatermark)
    (hread : Log.ReadFrom crc p.log s offset maxBytes pre cs rest)
    (he : p.log.readRawRanges offset maxBytes =
      .ok ⟨[⟨s.baseOffset, pre.flatten.length, cs.flatten.length⟩], cs.flatten.length, upTo⟩) :
    ∃ r q, p.fetchRawRanges offset replicaID maxBytes allow = (.ok r, q) ∧
      ((allow = false ∧ maxBytes.toInt < cs.flatten.length ∧ r.ranges = [] ∧ r.recordsSize = 0) ∨
        ∃ kept dropped, ¬ (allow = false ∧ maxBytes.toInt < cs.flatten.length) ∧
          cs = kept ++ dropped ∧
          (∀ d ∈ dropped, replicaID < 0 ∧ p.highWatermark < endOffset d) ∧
          p.rangeBytes r.ranges = kept.flatten ∧ r.recordsSize = kept.flatten.length) := by
  -- the batch over the offset puts it between the ends of the log
  obtain ⟨c, hhead, hlo, hhi⟩ := hread.start
  have hmem := hread.mem_batches (List.mem_of_mem_head? hhead)
  have hold := h.oldest_le_of_over hmem hlo
  have hlt : offset < p.leo := lt_of_lt_of_le hhi (h.endOffset_le hmem)
  unfold Partition.fetchRawRanges
  simp only [hopen, hleader, Bool.false_eq_true, Bool.not_true, if_false]
  rw [if_neg (by omega), if_neg ?consumer, if_neg ?follower, he]
  case consumer =>
    rintro ⟨hc, hle⟩
    have := hlow (by simpa using hc)
    omega
  case follower => omega
  simp only
  by_cases hover : (!allow) = true ∧ maxBytes.toInt < cs.flatten.length
  · rw [if_pos hover]
    exact ⟨_, _, rfl, .inl ⟨by simpa using hover.1, hover.2, rfl, rfl⟩⟩
  · rw [if_neg hover]
    generalize hq : (if decide (0 ≤ replicaID) = true then p.updateFollowerLEO replicaID offset
      else p) = q
    have hlog := log_of_noted hq
    obtain ⟨r, kept, dropped, hr, hcs, hdropped, hbytes, hsize⟩ :=
      capped_batches hread hlog (!decide (0 ≤ replicaID)) p.log.oldestOffset upTo
    refine ⟨r, q, hr, .inr ⟨kept, dropped, by simpa using hover, hcs, fun d hd => ?_, hbytes,
      hsize⟩⟩
    obtain ⟨hconsumer, hhw⟩ := hdropped d hd
    have hneg : ¬ 0 ≤ replicaID := by simpa using hconsumer
    rw [← hq, if_neg (by simpa using hneg)] at hhw
    exact ⟨not_le.mp hneg, hhw⟩

/-- A successful `FetchRawRanges` hands out nothing, or the first of the batches that
were read at the offset. -/
theorem fetchRawRanges_served (h : p.log.Apart crc) {offset : Nat} {replicaID maxBytes : Int32}
    {allow : Bool} {r : FetchRawRangeResult} {q : Partition}
    (hr : p.fetchRawRanges offset replicaID maxBytes allow = (.ok r, q)) :
    (r.ranges = [] ∧ r.recordsSize = 0) ∨
    ∃ s pre kept dropped rest,
      Log.ReadFrom crc p.log s offset maxBytes pre (kept ++ dropped) rest ∧
      ¬ (allow = false ∧ maxBytes.toInt < (kept ++ dropped).flatten.length) ∧
      p.rangeBytes r.ranges = kept.flatten ∧ r.recordsSize = kept.flatten.length := by
  have hr' := hr
  unfold Partition.fetchRawRanges at hr
  simp only at hr
  split at hr
  · cases hr
  rename_i hopen
  split at hr
  · cases hr
  rename_i hleader
  split at hr
  · cases hr
  rename_i hin
  split at hr
  · cases hr
    exact .inl ⟨rfl, rfl⟩
  rename_i hlow
  split at hr
  · cases hr
    exact .inl ⟨rfl, rfl⟩
  rcases h.reads (show p.log.oldestOffset ≤ offset by omega) maxBytes with
    ⟨e, -, he, -⟩ | ⟨s, pre, cs, rest, upTo, hread, -, he, -⟩
  · rw [he] at hr
    cases hr
  have hbelow : replicaID < 0 → offset < p.highWatermark := by
    intro hneg
    by_contra hle
    exact hlow ⟨by simpa using hneg, by omega⟩
  obtain ⟨r', q', hr₂, hcase⟩ := fetchRawRanges_of_read allow h (by simpa using hopen)
    (by simpa using hleader) hbelow hread he
  obtain ⟨rfl, rfl⟩ : r' = r ∧ q' = q := by
    rw [hr'] at hr₂
    cases hr₂
    exact ⟨rfl, rfl⟩
  rcases hcase with ⟨-, -, hranges, hsize⟩ | ⟨kept, dropped, hallow, rfl, -, hbytes, hsize⟩
  · exact .inl ⟨hranges, hsize⟩
  · exact .inr ⟨s, pre, kept, dropped, rest, hread, hallow, hbytes, hsize⟩

end Serve

end MessageBroker.Broker
