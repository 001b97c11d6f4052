import MessageBroker.Storage.Growth

/-!
# Reopening a log

`NewLog` on the files of a well-formed log recovers the same batches under the
same offsets. Two pairs share a file only if the earlier one is empty, so
nothing is lost when the directory has one file for both.
-/
namespace MessageBroker.Storage

open Lib.Bytes Lib.Tiling Lib

/-- The pairs whose files the directory has. -/
theorem lastOfEach_pairs {crc : Checksum} {b : Nat} {ps : List SegmentPair} :
    ∀ {a : Nat}, Connected a b ps → (∀ p ∈ ps, p.Ok crc) →
      ∃ qs, Log.lastOfEach (ps.map SegmentPair.fileEntry) = qs.map SegmentPair.fileEntry ∧
        Connected a b qs ∧ (∀ q ∈ qs, q ∈ ps) ∧ (ps ≠ [] → qs ≠ []) ∧
        (qs.flatMap fun p => p.segment.batches) = ps.flatMap (fun p => p.segment.batches) ∧
        ((∀ p ∈ ps.dropLast, p.segment.batches ≠ []) → qs = ps) := by
  induction ps with
  | nil => exact fun h _ => ⟨[], rfl, h, fun _ hq => hq, id, rfl, fun _ => rfl⟩
  | cons p ps ih =>
    intro a h hok
    cases ps with
    | nil => exact ⟨[p], rfl, h, fun _ hq => hq, fun _ => by simp, rfl, fun _ => rfl⟩
    | cons q rest =>
      obtain ⟨hbase, hle, hrest⟩ := h
      obtain ⟨qs, hl, hc, hsub, hne, hflat, hall⟩ :=
        ih hrest fun x hx => hok x (List.mem_cons_of_mem _ hx)
      have hrep := (hok p List.mem_cons_self).rep
      have hnext : q.segment.baseOffset = p.segment.nextOffset := hrest.1
      simp only [List.map_cons] at hl ⊢
      by_cases hsame : p.segment.baseOffset = q.segment.baseOffset
      · -- the file is the later pair's; the earlier pair is empty
        have hnil : p.segment.batches = [] := hrep.eq_nil_iff_next.mpr (by omega)
        refine ⟨qs, ?_, ?_, fun x hx => List.mem_cons_of_mem _ (hsub x hx), fun _ => hne (by simp),
          ?_, fun hf => ?_⟩
        · rw [Log.lastOfEach, if_pos (show p.fileEntry.1 = q.fileEntry.1 from hsame)]
          exact hl
        · have ha : p.segment.nextOffset = a := by
            rw [← hnext, ← hsame]
            exact hbase
          simpa only [ha] using hc
        · rw [hflat]
          simp [hnil]
        · exact absurd hnil (hf p (by simp))
      · refine ⟨p :: qs, ?_, ⟨hbase, hle, hc⟩, ?_, fun _ => by simp, ?_, fun hf => ?_⟩
        · rw [Log.lastOfEach, if_neg (show ¬ p.fileEntry.1 = q.fileEntry.1 from hsame), hl]
          rfl
        · intro x hx
          rcases List.mem_cons.mp hx with rfl | hx
          · exact List.mem_cons_self
          · exact List.mem_cons_of_mem _ (hsub x hx)
        · rw [List.flatMap_cons, List.flatMap_cons, hflat]
        · rw [hall fun x hx => hf x (by
            rw [List.dropLast_cons_of_ne_nil (by simp)]
            exact List.mem_cons_of_mem _ hx)]

/-- The directory of a well-formed log, by the pairs whose files it has. -/
theorem Log.Ok.directory {crc : Checksum} {l : Log} (h : l.Ok crc) :
    ∃ qs, l.directory = qs.map SegmentPair.fileEntry ∧
      Connected l.oldestOffset l.nextOffset qs ∧ (∀ q ∈ qs, q.Ok crc) ∧ qs ≠ [] ∧
      (qs.flatMap fun p => p.segment.batches) = l.batches ∧
      ((∀ p ∈ l.sealedPairs, p.segment.batches ≠ []) → qs = l.pairs) := by
  have hsorted : (l.pairs.map SegmentPair.fileEntry).Pairwise fun a b => a.1 ≤ b.1 := by
    rw [List.pairwise_map]
    refine List.Pairwise.imp_of_mem (fun {p q} hp _ hpq => ?_) h.linked.pairwise
    exact (h.linked.mem hp).2.1.trans hpq
  obtain ⟨qs, hl, hc, hsub, hne, hflat, hall⟩ := lastOfEach_pairs h.linked h.pair
  refine ⟨qs, ?_, hc, fun q hq => h.pair q (hsub q hq), hne (by simp [Log.pairs]), hflat, ?_⟩
  · unfold Log.directory
    rw [h.strays, List.nil_append, ← hl]
    exact congrArg Log.lastOfEach hsorted.insertionSort_eq
  · intro hf
    have hdrop : l.pairs.dropLast = l.sealedPairs := by simp [Log.pairs]
    exact hall (by rwa [hdrop])

/-! ## Opening the files -/

theorem newSegmentPair_rep {crc : Checksum} {config : LogConfig} {p q : SegmentPair}
    (h : q.Ok crc)
    (hp : newSegmentPair crc config q.segment.file q.segment.baseOffset = .ok p) :
    p.Ok crc ∧ p.segment.baseOffset = q.segment.baseOffset ∧
      p.segment.nextOffset = q.segment.nextOffset ∧ p.segment.batches = q.segment.batches ∧
      p.index.maxBytes = config.maxIndexBytes ∧ p.segment.maxSize = config.maxSegmentBytes := by
  unfold newSegmentPair at hp
  rw [newSegment_rep h.rep] at hp
  simp only at hp
  have hrep : Segment.Rep crc { q.segment with maxSize := config.maxSegmentBytes }
      q.segment.batches :=
    ⟨h.rep.file_eq, h.rep.size_eq, h.rep.stored, h.rep.tiles, h.rep.next_lt⟩
  have hidx : (⟨[], q.segment.baseOffset, config.maxIndexBytes⟩ : Index).baseOffset =
      Segment.baseOffset { q.segment with maxSize := config.maxSegmentBytes } := rfl
  obtain ⟨hpts, hmax, -⟩ := rebuildIndexFromSegment_points hrep hidx config.indexIntervalBytes
  split at hp
  · cases hp
  rename_i bytes idx hrb
  cases hp
  rw [hrb] at hpts hmax
  exact ⟨.of_rep hrep hpts, rfl, rfl, rfl, hmax, rfl⟩

theorem openPairs_ok {crc : Checksum} {config : LogConfig} {b : Nat} {qs : List SegmentPair} :
    ∀ {a : Nat} {ps : List SegmentPair}, Connected a b qs → (∀ q ∈ qs, q.Ok crc) →
      openPairs crc config (qs.map SegmentPair.fileEntry) = .ok ps →
      Connected a b ps ∧ (∀ p ∈ ps, p.Ok crc) ∧
      (∀ p ∈ ps, p.index.maxBytes = config.maxIndexBytes ∧
        p.segment.maxSize = config.maxSegmentBytes) ∧
      (ps.map fun p => p.segment.batches) = qs.map fun p => p.segment.batches := by
  induction qs with
  | nil =>
    intro a ps h _ hp
    cases hp
    exact ⟨h, by simp, by simp, rfl⟩
  | cons q qs ih =>
    intro a ps ⟨hbase, hle, hrest⟩ hok hp
    simp only [List.map_cons, SegmentPair.fileEntry, Segment.fileEntry, openPairs] at hp
    cases hnew : newSegmentPair crc config q.segment.file q.segment.baseOffset with
    | error e =>
      rw [hnew] at hp
      cases hp
    | ok p =>
      rw [hnew] at hp
      simp only at hp
      split at hp
      · cases hp
      rename_i more hmore
      cases hp
      obtain ⟨hpok, hpb, hpn, hpbs, hlim⟩ := newSegmentPair_rep (hok q List.mem_cons_self) hnew
      obtain ⟨hc, hoks, hlims, hbs⟩ :=
        ih hrest (fun x hx => hok x (List.mem_cons_of_mem _ hx)) hmore
      have hlink : Connected a b (p :: more) :=
        ⟨hpb.trans hbase, hle.trans (Nat.le_of_eq hpn.symm), by simpa only [hpn] using hc⟩
      refine ⟨hlink, List.forall_mem_cons.mpr ⟨hpok, hoks⟩,
        List.forall_mem_cons.mpr ⟨hlim, hlims⟩, ?_⟩
      rw [List.map_cons, List.map_cons, hbs, hpbs]

/-! ## The reopened log -/

/-- The log `l'` has the batches of `l`, under the same offsets. -/
structure Log.Reopened (crc : Checksum) (l l' : Log) (cfg : LogConfig) : Prop where
  ok : l'.Ok crc
  batches : l'.batches = l.batches
  oldest : l'.oldestOffset = l.oldestOffset
  next : l'.nextOffset = l.nextOffset
  config : l'.config = applyDefaults cfg
  roomy : (indexEntrySize : Int) ≤ (applyDefaults cfg).maxIndexBytes.toInt → l.Roomy → l'.Roomy

theorem applyDefaults_segmentBytes (config : LogConfig) :
    0 < (applyDefaults config).maxSegmentBytes.toInt := by
  unfold applyDefaults
  simp only
  split
  · decide
  · rename_i h
    rw [Int64.le_iff_toInt_le] at h
    simpa using h

theorem Log.Ok.reopen {crc : Checksum} {l l' : Log} (h : l.Ok crc) {config : LogConfig}
    {io : Faults} (hre : l.reopen crc config io = .ok l') : Log.Reopened crc l l' config := by
  obtain ⟨qs, hdir, hc, hok, hne, hflat, hsealed⟩ := h.directory
  unfold Log.reopen newLog openActive at hre
  simp only [hdir] at hre
  cases hopen : openPairs crc (applyDefaults config) (qs.map SegmentPair.fileEntry) with
  | error e =>
    rw [hopen] at hre
    cases hre
  | ok ps =>
    obtain ⟨hlink, hoks, hlims, hbs⟩ := openPairs_ok hc hok hopen
    have hps : ps ≠ [] := by
      rintro rfl
      exact hne (List.map_eq_nil_iff.mp hbs.symm)
    rw [hopen] at hre
    simp only [List.getLast?_eq_some_getLast hps] at hre
    split at hre
    · cases hre
    rename_i cache file hrec
    cases hre
    have hpairs : Log.pairs ⟨applyDefaults config, ps.dropLast, ps.getLast hps, cache, file, false,
        []⟩ = ps := List.dropLast_append_getLast hps
    have hends := Log.ends_of (hpairs.symm ▸ hlink)
    refine ⟨⟨?_, Log.linked_of (hpairs.symm ▸ hlink), rfl⟩, ?_, hends.1, hends.2, rfl, ?_⟩
    · rw [hpairs]
      exact hoks
    · rw [Log.batches, hpairs, ← hflat, List.flatMap_def, List.flatMap_def, hbs]
    · intro hroom hr
      refine ⟨hroom, applyDefaults_segmentBytes config, ?_, ?_⟩
      · rw [hpairs]
        exact hlims
      · intro p hp
        have hmem : p.segment.batches ∈ qs.dropLast.map fun q => q.segment.batches := by
          rw [List.map_dropLast, ← hbs, ← List.map_dropLast]
          exact List.mem_map_of_mem hp
        obtain ⟨q, hq, he⟩ := List.mem_map.mp hmem
        have hq' : q ∈ l.sealedPairs := by
          rw [hsealed hr.nonempty] at hq
          simpa [Log.pairs] using hq
        rw [← he]
        exact hr.nonempty q hq'

end MessageBroker.Storage
