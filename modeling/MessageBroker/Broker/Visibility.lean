import MessageBroker.Broker.Operations
import MessageBroker.Storage.Ranges

/-!
# What consumers see

A consumer's fetch is capped at the high watermark by a second pass over the
batches that were read. The pass keeps the longest part of them that is
committed. This holds in every log whose segments hold consecutive batches, gaps
between segments or not; a segment that was recovered over the remains of a
failed write need not be one.
-/
namespace MessageBroker.Broker

open Lib.Bytes Lib.Tiling Lib Storage

/-! ## Capping -/

/-- The loop of `capToHW` over stored batches keeps those before the first one that
reaches beyond the watermark. -/
theorem capLoop_stored {crc : Checksum} {file tail : ByteString} (pos hw : Nat) :
    ∀ (cs : List ByteString) (fuel consumed upTo : Nat), cs.length < fuel →
    (∀ c ∈ cs, Stored crc c ∧ endOffset c < 2 ^ 64) →
    file.drop (pos + consumed) = cs.flatten ++ tail →
    ∃ kept dropped, cs = kept ++ dropped ∧ (∀ c ∈ kept, endOffset c ≤ hw) ∧
      (∀ d ∈ dropped.head?, hw < endOffset d) ∧
      capLoop file pos (consumed + cs.flatten.length) hw fuel consumed upTo =
        .ok (consumed + kept.flatten.length, (kept.getLast?.map endOffset).getD upTo)
  | [], fuel, consumed, upTo, hfuel, _, _ => by
      obtain ⟨fuel, rfl⟩ : ∃ k, fuel = k + 1 := ⟨fuel - 1, by simp at hfuel; omega⟩
      refine ⟨[], [], rfl, fun _ hc => absurd hc List.not_mem_nil, fun _ hd => (by cases hd), ?_⟩
      rw [capLoop, if_neg (by simp)]
      rfl
  | c :: cs, fuel, consumed, upTo, hfuel, hall, hfile => by
      obtain ⟨fuel, rfl⟩ : ∃ k, fuel = k + 1 := ⟨fuel - 1, by simp at hfuel; omega⟩
      obtain ⟨hc, hend⟩ := hall c List.mem_cons_self
      have h61 := hc.length_ge
      have hlen : (c :: cs).flatten.length = c.length + cs.flatten.length := by simp
      have hlong : pos + consumed + c.length ≤ file.length := by
        have := congrArg List.length hfile
        rw [List.length_drop, List.length_append, hlen] at this
        omega
      have hhead : (file.drop (pos + consumed)).take 27 = c.take 27 := by
        rw [hfile, List.flatten_cons, List.append_assoc, List.take_append_of_le_length (by omega)]
      have hsize : declaredSize (c.take 27) = c.length := by
        rw [← hc.size_eq, declaredSize, declaredSize, batchLength, batchLength,
          field_take (by omega)]
      have hbatch : (baseOffset (c.take 27) + lastOffsetDelta (c.take 27) + 1) % 2 ^ 64 =
          endOffset c := by
        rw [baseOffset, lastOffsetDelta, field_take (by omega), field_take (by omega)]
        exact Nat.mod_eq_of_lt hend
      rw [capLoop, if_pos (by omega), if_neg (by omega), readAt_of_le (by omega), hhead]
      simp only [hsize, hbatch]
      rw [if_neg (by simp only [recordBatchOverhead]; omega), if_neg (by omega)]
      by_cases hover : hw < endOffset c
      · refine ⟨[], c :: cs, rfl, fun _ hc => absurd hc List.not_mem_nil, fun d hd => ?_, ?_⟩
        · cases hd
          exact hover
        · rw [if_pos hover]
          rfl
      · rw [if_neg hover]
        have hrest : file.drop (pos + (consumed + c.length)) = cs.flatten ++ tail := by
          rw [← Nat.add_assoc, ← List.drop_drop, hfile, List.flatten_cons, List.append_assoc,
            List.drop_left]
        obtain ⟨kept, dropped, rfl, hkept, hdrop, he⟩ := capLoop_stored pos hw cs fuel
          (consumed + c.length) (endOffset c) (by simp at hfuel; omega)
          (fun d hd => hall d (List.mem_cons_of_mem _ hd)) hrest
        refine ⟨c :: kept, dropped, rfl, fun d hd => ?_, hdrop, ?_⟩
        · rcases List.mem_cons.mp hd with rfl | hd
          · exact not_lt.mp hover
          · exact hkept d hd
        · rw [hlen, ← Nat.add_assoc, he, List.flatten_cons, List.length_append, ← Nat.add_assoc]
          cases kept with
          | nil => rfl
          | cons k ks =>
            rw [List.getLast?_cons_cons, List.getLast?_eq_some_getLast (List.cons_ne_nil k ks)]
            rfl

/-- The range of the first batches of a read holds their bytes. -/
theorem rangeBytes_kept {crc : Checksum} {p : Partition} {s : Segment} {offset : Nat}
    {maxBytes : Int32} {pre cs rest kept dropped : List ByteString}
    (h : Log.ReadFrom crc p.log s offset maxBytes pre cs rest) (hcs : cs = kept ++ dropped) :
    p.rangeBytes [⟨s.baseOffset, pre.flatten.length, kept.flatten.length⟩] = kept.flatten := by
  subst hcs
  rw [Partition.rangeBytes_single, h.file, h.drop_file, List.flatten_append, List.append_assoc,
    List.take_left]

/-- Of the batches of a segment, `capToHW` keeps exactly the committed ones. -/
theorem capToHW_read {crc : Checksum} {s : Segment} {pre cs rest : List ByteString}
    (hrep : s.Rep crc (pre ++ cs ++ rest)) {file tail : ByteString} {pos : Nat}
    (hfile : file.drop pos = cs.flatten ++ tail) (hw fallback : Nat) :
    ∃ kept dropped, cs = kept ++ dropped ∧ (∀ c ∈ kept, endOffset c ≤ hw) ∧
      (∀ d ∈ dropped, hw < endOffset d) ∧
      capToHW file pos cs.flatten.length hw fallback =
        .ok (kept.flatten.length, (kept.getLast?.map endOffset).getD fallback) := by
  have hall : ∀ c ∈ cs, Stored crc c ∧ endOffset c < 2 ^ 64 := fun c hc =>
    have hmem : c ∈ pre ++ cs ++ rest := by simp [hc]
    ⟨hrep.stored c hmem, hrep.endOffset_lt hmem⟩
  have hlen := length_le_flatten fun c hc => (hall c hc).1
  obtain ⟨kept, dropped, rfl, hkept, hdrop, he⟩ :=
    capLoop_stored pos hw cs (cs.flatten.length + 1) 0 fallback (by omega) hall
      (by simpa using hfile)
  refine ⟨kept, dropped, rfl, hkept, fun d hd => ?_, by simpa [capToHW] using he⟩
  -- later batches end later
  cases dropped with
  | nil => exact absurd hd List.not_mem_nil
  | cons x xs =>
    have hx := hdrop x rfl
    rcases List.mem_cons.mp hd with rfl | hd
    · exact hx
    · have ht := hrep.tiles
      rw [show pre ++ (kept ++ x :: xs) ++ rest = (pre ++ kept) ++ x :: (xs ++ rest) by simp] at ht
      obtain ⟨m, -, -, -, htail⟩ := tiles_append.mp ht
      have := htail.mem (List.mem_append_left rest hd)
      omega

/-- The capping loop over the one range of a read. -/
theorem capRanges_single {l : Log} {hw : Nat} {rg : RawRange} {fallback n u : Nat}
    (hcap : capToHW (l.fileAt rg.file) rg.offset rg.length hw fallback = .ok (n, u)) :
    capRanges l hw [rg] fallback =
      .ok (if 0 < n then ([{ rg with length := n }], n, u) else ([], 0, fallback)) := by
  unfold capRanges
  rw [hcap]
  simp only
  by_cases hlt : n < rg.length
  · rw [if_pos hlt]
  · rw [if_neg hlt]
    unfold capRanges
    by_cases hpos : 0 < n
    · simp only [if_pos hpos, Nat.add_zero]
    · simp only [if_neg hpos]

/-! ## A consumer's fetch -/

/-- Whole stored batches, consecutive from the one over the offset, that are all
committed, while the others that fitted the budget are not. -/
def Visible (crc : Checksum) (l : Log) (offset : Nat) (maxBytes : Int32) (hw : Nat)
    (records : ByteString) (fetchedUpTo : Nat) : Prop :=
  ∃ s pre cs dropped rest, Log.ReadFrom crc l s offset maxBytes pre (cs ++ dropped) rest ∧
    records = cs.flatten ∧ (∀ c ∈ cs, endOffset c ≤ hw) ∧ (∀ d ∈ dropped, hw < endOffset d) ∧
    ∀ c, cs.getLast? = some c → fetchedUpTo = endOffset c

theorem upTo_eq_last {a upTo : Nat} {pre cs : List ByteString}
    (ht : BatchTiles a upTo (pre ++ cs)) (c : ByteString) (hc : cs.getLast? = some c) :
    upTo = endOffset c := by
  obtain ⟨ys, rfl⟩ := List.getLast?_eq_some_iff.mp hc
  rw [← List.append_assoc] at ht
  obtain ⟨m, -, -, -, hend⟩ := tiles_append.mp ht
  exact hend.symm

theorem getD_last {cs : List ByteString} {fallback : Nat} (c : ByteString)
    (hc : cs.getLast? = some c) : (cs.getLast?.map endOffset).getD fallback = endOffset c := by
  rw [hc]
  rfl

section Consumer

variable {crc : Checksum} {p : Partition} (h : p.log.Apart crc) {offset : Nat}
  {replicaID maxBytes : Int32} (hid : replicaID < 0)

include h hid

theorem fetchRaw_visible {r : FetchRawResult} {p' : Partition}
    (hr : p.fetchRaw offset replicaID maxBytes = (.ok r, p')) :
    r.highWatermark = p.highWatermark ∧
      (r.records = [] ∧ p.highWatermark ≤ offset ∨
        Visible crc p.log offset maxBytes p.highWatermark r.records r.fetchedUpTo) := by
  have hconsumer : decide (0 ≤ replicaID) = false := decide_eq_false (not_le.mpr hid)
  unfold Partition.fetchRaw at hr
  simp only [hconsumer, Bool.not_false, true_and, Bool.false_eq_true, false_and, if_false] at hr
  split at hr
  · cases hr
  split at hr
  · cases hr
  split at hr
  · cases hr
  rename_i hin
  split at hr
  · rename_i hlow
    cases hr
    exact ⟨rfl, .inl ⟨rfl, hlow⟩⟩
  rcases h.reads (show p.log.oldestOffset ≤ offset by omega) maxBytes with
    ⟨-, e, -, he⟩ | ⟨s, pre, cs, rest, upTo, hread, ht, -, he⟩
  · rw [he] at hr
    cases hr
  rw [he] at hr
  simp only at hr
  split at hr
  · -- the read passes the watermark
    obtain ⟨kept, dropped, rfl, hkept, hdrop, hcap⟩ := capToHW_read hread.rep
      (show cs.flatten.drop 0 = cs.flatten ++ [] by simp) p.highWatermark offset
    rw [hcap] at hr
    cases hr
    refine ⟨rfl, .inr ⟨s, pre, kept, dropped, rest, hread, ?_, hkept, hdrop, getD_last⟩⟩
    rw [List.flatten_append, List.take_left]
  · rename_i hbelow
    cases hr
    refine ⟨rfl, .inr ⟨s, pre, cs, [], rest, by rwa [List.append_nil], rfl, fun c hc => ?_,
      fun d hd => absurd hd List.not_mem_nil, upTo_eq_last ht⟩⟩
    have := (ht.mem (List.mem_append_right pre hc)).2.2
    omega

theorem fetchRawRanges_visible {allowOversizedFirstBatch : Bool} {r : FetchRawRangeResult}
    {p' : Partition}
    (hr : p.fetchRawRanges offset replicaID maxBytes allowOversizedFirstBatch = (.ok r, p')) :
    r.highWatermark = p.highWatermark ∧
      (r.ranges = [] ∧ (p.highWatermark ≤ offset ∨ allowOversizedFirstBatch = false ∧
          ∃ c ∈ p.log.batches, baseOffset c ≤ offset ∧ offset < endOffset c ∧
            maxBytes.toInt < c.length) ∨
        Visible crc p.log offset maxBytes p.highWatermark (p.rangeBytes r.ranges)
          r.fetchedUpTo) := by
  have hconsumer : decide (0 ≤ replicaID) = false := decide_eq_false (not_le.mpr hid)
  unfold Partition.fetchRawRanges at hr
  simp only [hconsumer, Bool.not_false, true_and, Bool.false_eq_true, false_and, if_false] at hr
  split at hr
  · cases hr
  split at hr
  · cases hr
  split at hr
  · cases hr
  rename_i hin
  split at hr
  · rename_i hlow
    cases hr
    exact ⟨rfl, .inl ⟨rfl, .inl hlow⟩⟩
  rcases h.reads (show p.log.oldestOffset ≤ offset by omega) maxBytes with
    ⟨e, -, he, -⟩ | ⟨s, pre, cs, rest, upTo, hread, ht, he, -⟩
  · rw [he] at hr
    cases hr
  rw [he] at hr
  simp only at hr
  have hdrop := hread.drop_file
  split at hr
  · -- a first batch beyond the budget is not taken
    rename_i hover
    cases hr
    refine ⟨rfl, .inl ⟨rfl, .inr ⟨by simpa using hover.1, ?_⟩⟩⟩
    obtain ⟨c, hc, hlo, hhi⟩ := hread.start
    have hone : cs = [c] := by
      rcases hread.fits with hone | hfit
      · obtain ⟨x, rfl⟩ := List.length_eq_one_iff.mp hone
        cases hc
        rfl
      · exact absurd hfit (not_le.mpr hover.2)
    subst hone
    exact ⟨c, hread.mem_batches (by simp), hlo, hhi, by simpa using hover.2⟩
  split at hr
  · obtain ⟨kept, dropped, hcs, hkept, hdropped, hcap⟩ := capToHW_read hread.rep hdrop
      p.highWatermark offset
    rw [capRanges_single (by rw [hread.file]; exact hcap)] at hr
    by_cases hpos : 0 < kept.flatten.length
    · rw [if_pos hpos] at hr
      cases hr
      exact ⟨rfl, .inr ⟨s, pre, kept, dropped, rest, hcs ▸ hread, rangeBytes_kept hread hcs, hkept,
        hdropped, getD_last⟩⟩
    · rw [if_neg hpos] at hr
      cases hr
      have hnil : kept.flatten = [] := List.length_eq_zero_iff.mp (by omega)
      refine ⟨rfl, .inr ⟨s, pre, kept, dropped, rest, hcs ▸ hread, hnil.symm, hkept,
        hdropped, fun c hc => ?_⟩⟩
      -- a batch has bytes
      have hmem := List.mem_of_getLast? hc
      have h61 := (hread.rep.stored c (by rw [hcs]; simp [hmem])).length_ge
      rw [List.flatten_eq_nil_iff.mp hnil c hmem] at h61
      simp at h61
  · rename_i hbelow
    cases hr
    refine ⟨rfl, .inr ⟨s, pre, cs, [], rest, by rwa [List.append_nil],
      rangeBytes_kept hread (List.append_nil cs).symm, fun c hc => ?_,
      fun d hd => absurd hd List.not_mem_nil, upTo_eq_last ht⟩⟩
    have := (ht.mem (List.mem_append_right pre hc)).2.2
    omega

end Consumer

/-! ## Runs with restarts -/

inductive ReplicaEvent
  | operation (op : Operation)
  /-- `Close`, and `NewLog` and `NewPartition` on the directory -/
  | restart (config : LogConfig)

namespace Partition

def live (crc : Checksum) (p : Partition) (x : ReplicaEvent × Faults) :
    Option PartitionError × Partition :=
  match x.1 with
  | .operation op => p.perform crc (op, x.2)
  | .restart config =>
      match p.log.reopen crc config x.2 with
      | .ok l => (none, newPartition p.localBrokerID l)
      | .error e => (some (.log e), p.close)

/-- No segment write or file removal fails, and an internal append encodes to less
than 4 GiB. -/
def Undisturbed (p : Partition) (x : ReplicaEvent × Faults) : Prop :=
  x.2.Harmless ∧
    match x.1 with
    | .operation (.append batch _) => encodedBatchSize batch < 2 ^ 32 + 12 ∧
        p.log.nextOffset + batch.messages.length < 2 ^ 64
    | _ => True

@[simp] theorem followHW_log (p : Partition) (oldLEO leaderHW : Nat) :
    (p.followHW oldLEO leaderHW).log = p.log := by
  obtain ⟨_, h, -⟩ := p.followHW_cases oldLEO leaderHW
  rw [h]

@[simp] theorem close_log (p : Partition) : p.close.log = p.log := by
  unfold close
  split <;> rfl

theorem makeLeader_log (p : Partition) (epoch : Int32) (initialISR : List Int32) (initialHW : Nat)
    (io : Faults) : (p.makeLeader epoch initialISR initialHW io).2.log = p.log ∨
      (p.makeLeader epoch initialISR initialHW io).2.log =
        (p.log.assignLeaderEpoch epoch p.leo io).2 := by
  have hgo : (p.becomeLeader epoch initialISR initialHW io).2.log =
      (p.log.assignLeaderEpoch epoch p.leo io).2 := by
    unfold becomeLeader
    rcases p.log.assignLeaderEpoch epoch p.leo io with ⟨_ | _, l⟩ <;> rfl
  unfold makeLeader
  split
  · split
    · exact .inl rfl
    · exact .inr hgo
  · exact .inr hgo

/-- The call that an operation makes to the log. -/
def logCall (p : Partition) : Operation → Option Call
  | .append batch _ => some (.append batch)
  | .appendRaw data _ => some (.appendRaw data p.leaderEpoch)
  | .appendFromLeader data fetchEpoch _ => some (.appendReplicaRaw data fetchEpoch)
  | .truncateTo offset => some (.truncateTo offset)
  | _ => none

/-- What an operation does to the log: nothing, an epoch at its end, or one call. -/
theorem perform_log (crc : Checksum) (p : Partition) (op : Operation) (io : Faults) :
    (p.perform crc (op, io)).2.log = p.log ∨
    (∃ epoch, (p.perform crc (op, io)).2.log = (p.log.assignLeaderEpoch epoch p.leo io).2) ∨
    ∃ c, p.logCall op = some c ∧ (p.perform crc (op, io)).2.log = (p.log.exec crc (c, io)).2 := by
  cases op with
  | makeLeader epoch initialISR initialHW =>
    rcases p.makeLeader_log epoch initialISR initialHW io with h | h
    · exact .inl (by simpa [perform] using h)
    · exact .inr (.inl ⟨epoch, by simpa [perform] using h⟩)
  | makeFollower epoch leaderID => exact .inl rfl
  | makeUnassigned => exact .inl rfl
  | updateLeaderISR epoch ids =>
    left
    rcases p.updateLeaderISR_cases epoch ids with ⟨e, he⟩ | ⟨isr, he⟩
    · simp [perform, he]
    · simp [perform, he]
  | append batch acks =>
    rcases p.append_cases crc io batch acks with ⟨⟨e, he⟩, -⟩ | ⟨-, -, r, l, hl, hcase⟩
    · exact .inl (by simp [perform, he])
    · refine .inr (.inr ⟨_, rfl, ?_⟩)
      rcases hcase with ⟨e, e', rfl, he⟩ | ⟨x, rfl, ⟨value, e, -, he⟩ | ⟨-, y, q, n, he⟩⟩
      · simp [perform, he, Log.exec, hl]
      · simp [perform, he, Log.exec, hl]
      · simp [perform, he, Log.exec, hl]
  | appendRaw data acks =>
    rcases p.appendRaw_cases crc io data acks with ⟨e, he⟩ | ⟨-, -, r, l, hl, hcase⟩
    · exact .inl (by simp [perform, he])
    · refine .inr (.inr ⟨_, rfl, ?_⟩)
      rcases hcase with ⟨e, e', rfl, he⟩ | ⟨x, y, q, n, rfl, he⟩
      · simp [perform, he, Log.exec, hl]
      · simp [perform, he, Log.exec, hl]
  | appendFromLeader data fetchEpoch leaderHW =>
    rcases p.appendFromLeader_cases crc io data fetchEpoch leaderHW with
      ⟨e, he⟩ | ⟨-, he | ⟨r, l, hl, hcase⟩⟩
    · exact .inl (by simp [perform, he])
    · exact .inl (by simp [perform, he])
    · refine .inr (.inr ⟨_, rfl, ?_⟩)
      rcases hcase with ⟨e, e', rfl, he⟩ | ⟨n, rfl, he⟩
      · simp [perform, he, Log.exec, hl]
      · simp [perform, he, Log.exec, hl]
  | truncateTo offset =>
    rcases p.truncateTo_cases io offset with ⟨-, e, he⟩ | ⟨-, r, l, hl, r', n, he, -⟩
    · exact .inl (by simp [perform, he])
    · refine .inr (.inr ⟨_, rfl, ?_⟩)
      cases r <;> simp [perform, he, Log.exec, hl]
  | fetchRaw fetchOffset replicaID maxBytes =>
    left
    obtain ⟨r, p', he, rfl | rfl⟩ := p.fetchRaw_cases fetchOffset replicaID maxBytes
    · simp [perform, he]
    · simp [perform, he, updateFollowerLEO]
  | fetchRawRanges fetchOffset replicaID maxBytes allowOversizedFirstBatch =>
    left
    obtain ⟨r, p', he, rfl | rfl⟩ :=
      p.fetchRawRanges_cases fetchOffset replicaID maxBytes allowOversizedFirstBatch
    · simp [perform, he]
    · simp [perform, he, updateFollowerLEO]
  | close => exact .inl (close_log p)

end Partition

theorem apart_live {crc : Checksum} {p : Partition} (h : p.log.Apart crc)
    {x : ReplicaEvent × Faults} (hx : p.Undisturbed x) : (p.live crc x).2.log.Apart crc := by
  obtain ⟨hio, hx⟩ := hx
  obtain ⟨e, io⟩ := x
  cases e with
  | operation op =>
    simp only [Partition.live]
    rcases p.perform_log crc op io with he | ⟨epoch, he⟩ | ⟨c, hc, he⟩
    · exact he ▸ h
    · exact he ▸ h.assignLeaderEpoch epoch p.leo io
    · rw [he]
      refine h.exec ⟨hio, ?_⟩
      cases op <;> cases hc
      · exact hx
      · trivial
      · trivial
      · trivial
  | restart config =>
    simp only [Partition.live]
    cases he : p.log.reopen crc config io with
    | error e => simpa using h
    | ok l => exact h.reopen he

theorem apart_run {crc : Checksum} {config : LogConfig} {io : Faults} {l : Log}
    (hnew : newLog crc config [] none io = .ok l) (id : Int32)
    (run : List (ReplicaEvent × Faults))
    (hg : Runs.Guarded (Partition.live crc) Partition.Undisturbed (newPartition id l) run) :
    (Runs.final (Partition.live crc) (newPartition id l) run).log.Apart crc :=
  Runs.invariant_guarded (Partition.live crc) (P := fun p => p.log.Apart crc)
    (G := Partition.Undisturbed) (fun _ _ h hx => apart_live h hx)
    ((Log.newLog_ok hnew).1.apart (Log.newLog_increasing hnew)) run hg

/-- In every run whose steps are undisturbed, a consumer's fetch that succeeds
returns the longest committed part of what fits the budget. -/
theorem consumers_see_committed {crc : Checksum} {config : LogConfig} {io : Faults} {l : Log}
    (hnew : newLog crc config [] none io = .ok l) (id : Int32)
    (run : List (ReplicaEvent × Faults))
    (hg : Runs.Guarded (Partition.live crc) Partition.Undisturbed (newPartition id l) run)
    (offset : Nat) {replicaID : Int32} (hid : replicaID < 0) (maxBytes : Int32) :
    let p := Runs.final (Partition.live crc) (newPartition id l) run
    (∀ r p', p.fetchRaw offset replicaID maxBytes = (.ok r, p') →
      r.highWatermark = p.highWatermark ∧
        (r.records = [] ∧ p.highWatermark ≤ offset ∨
          Visible crc p.log offset maxBytes p.highWatermark r.records r.fetchedUpTo)) ∧
    ∀ allowOversizedFirstBatch r p',
      p.fetchRawRanges offset replicaID maxBytes allowOversizedFirstBatch = (.ok r, p') →
      r.highWatermark = p.highWatermark ∧
        (r.ranges = [] ∧ (p.highWatermark ≤ offset ∨ allowOversizedFirstBatch = false ∧
            ∃ c ∈ p.log.batches, baseOffset c ≤ offset ∧ offset < endOffset c ∧
              maxBytes.toInt < c.length) ∨
          Visible crc p.log offset maxBytes p.highWatermark (p.rangeBytes r.ranges)
            r.fetchedUpTo) := by
  have hinv := apart_run hnew id run hg
  exact ⟨fun r p' hr => fetchRaw_visible hinv hid hr,
    fun allow r p' hr => fetchRawRanges_visible hinv hid hr⟩

/-! ## Samples -/

/-- A batch of the messages with these values. -/
def batchOf (values : List (Option ByteString)) : ByteString :=
  encodeBatch crc32c ⟨0, 0, 0, 0, values.length - 1, values.map fun v => ⟨none, v, 0⟩⟩ 0

theorem fetched_of {x : Except PartitionError FetchRawResult × Partition}
    {P : FetchRawResult → Prop} [DecidablePred P]
    (h : (match x.1 with
      | .ok r => decide (P r)
      | .error _ => false) = true) : ∃ r p', x = (.ok r, p') ∧ P r := by
  obtain ⟨_ | r, p'⟩ := x
  · cases h
  · exact ⟨r, p', rfl, of_decide_eq_true h⟩

/-- Two records, of which the other replica has the first. -/
def cappedRun : List (ReplicaEvent × Faults) :=
  [(.operation (.makeLeader 1 [1, 2] 0), .none),
    (.operation (.appendRaw (batchOf [none]) .leader), .none),
    (.operation (.appendRaw (batchOf [none, none]) .leader), .none),
    (.restart Log.roomyConfig, .none),
    (.operation (.makeLeader 2 [1, 2] 0), .none),
    (.operation (.fetchRaw 2 2 1000), .none)]

def cappedPartition : Partition :=
  Runs.final (Partition.live crc32c) (newPartition 1 (Log.fresh Log.roomyConfig)) cappedRun

theorem cappedRun_undisturbed : Runs.Guarded (Partition.live crc32c) Partition.Undisturbed
    (newPartition 1 (Log.fresh Log.roomyConfig)) cappedRun :=
  ⟨⟨Faults.none_harmless, trivial⟩, ⟨Faults.none_harmless, trivial⟩,
    ⟨Faults.none_harmless, trivial⟩, ⟨Faults.none_harmless, trivial⟩,
    ⟨Faults.none_harmless, trivial⟩, ⟨Faults.none_harmless, trivial⟩, trivial⟩

/-- The watermark lies inside the second batch, and only the first one is seen. -/
theorem consumers_see_committed_capped :
    cappedPartition.highWatermark = 2 ∧
      ∃ r p', cappedPartition.fetchRaw 0 (-1) 1000 = (.ok r, p') ∧ r.records.length = 68 ∧
        r.fetchedUpTo = 1 ∧
        Visible crc32c cappedPartition.log 0 1000 2 r.records r.fetchedUpTo := by
  have hhw : cappedPartition.highWatermark = 2 := by decide +kernel
  obtain ⟨r, p', hr, hlen, hupTo⟩ := fetched_of (x := cappedPartition.fetchRaw 0 (-1) 1000)
    (P := fun r => r.records.length = 68 ∧ r.fetchedUpTo = 1) (by decide +kernel)
  refine ⟨hhw, r, p', hr, hlen, hupTo, ?_⟩
  have hsee := (consumers_see_committed (Log.newLog_nil crc32c Log.roomyConfig .none) 1 cappedRun
    cappedRun_undisturbed 0 (show (-1 : Int32) < 0 by decide) 1000).1 r p' hr
  rcases hsee.2 with ⟨hnil, -⟩ | hsee
  · rw [hnil] at hlen
    cases hlen
  · exact hhw ▸ hsee

/-- Of the second request two batches are written when the write fails. A batch of three
records takes the place of the first, and the restart finds the other. -/
def residueRun : List (ReplicaEvent × Faults) :=
  [(.operation (.makeLeader 1 [1] 0), .none),
    (.operation (.appendRaw (batchOf [none]) .leader), .none),
    (.operation (.appendRaw (batchOf [some (List.replicate 14 7)] ++ batchOf [none] ++
      batchOf [none]) .leader), { Faults.none with writeFails := some 150 }),
    (.operation (.appendRaw (batchOf [none, none, none]) .leader), .none),
    (.restart Log.roomyConfig, .none),
    (.operation (.makeLeader 2 [1, 2] 0), .none),
    (.operation (.fetchRaw 3 2 1000), .none)]

def residuePartition : Partition :=
  Runs.final (Partition.live crc32c) (newPartition 1 (Log.fresh Log.roomyConfig)) residueRun

/-- The high watermark is 3, and a consumer is given a batch of offsets 1 to 3. -/
theorem uncommitted_seen :
    (residuePartition.log.batches.map fun c => (baseOffset c, endOffset c)) =
        [(0, 1), (1, 4), (2, 3)] ∧
      residuePartition.isLeader = true ∧ residuePartition.highWatermark = 3 ∧
      ∃ r p', residuePartition.fetchRaw 0 (-1) 1000 = (.ok r, p') ∧ r.highWatermark = 3 ∧
        r.records = residuePartition.log.batches.flatten ∧ r.fetchedUpTo = 3 :=
  ⟨by decide +kernel, by decide +kernel, by decide +kernel,
    fetched_of (x := residuePartition.fetchRaw 0 (-1) 1000)
      (P := fun r => r.highWatermark = 3 ∧ r.records = residuePartition.log.batches.flatten ∧
        r.fetchedUpTo = 3) (by decide +kernel)⟩

end MessageBroker.Broker
