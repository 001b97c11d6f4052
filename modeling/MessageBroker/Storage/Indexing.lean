import MessageBroker.Storage.Layout

/-!
# What a sparse index points to

Every entry of an index names the file position of a batch of its segment, and
the first entry names the first batch. Which batches get an entry depends on how
the index came about (one append at a time, or rebuilt from the file), but a
lookup only needs that much: it lands on a batch boundary, and before the target
as long as the segment spans less than `2^32` offsets.
-/
namespace MessageBroker.Storage

open Lib.Bytes Lib.Tiling Lib

structure Index.Points (idx : Index) (base : Nat) (cs : List ByteString) : Prop where
  base_eq : idx.baseOffset = base
  entry : ∀ e ∈ idx.entries, ∃ pre c post, cs = pre ++ c :: post ∧
    e.filePos = pre.flatten.length ∧ e.relOffset = idx.relative (Storage.baseOffset c)
  head : ∀ e, idx.entries.head? = some e → e.filePos = 0
  covered : cs ≠ [] → indexEntrySize ≤ idx.maxBytes.toInt → idx.entries ≠ []

namespace Index.Points

variable {idx : Index} {base : Nat} {cs : List ByteString}

theorem empty (base : Nat) (maxBytes : Int64) : Index.Points ⟨[], base, maxBytes⟩ base [] where
  base_eq := rfl
  entry _ he := absurd he List.not_mem_nil
  head e he := by cases he
  covered h := absurd rfl h

/-- More batches at the end keep the entries valid. -/
theorem append (h : idx.Points base cs) (ds : List ByteString)
    (hc : cs ++ ds ≠ [] → indexEntrySize ≤ idx.maxBytes.toInt → idx.entries ≠ []) :
    idx.Points base (cs ++ ds) where
  base_eq := h.base_eq
  entry e he := by
    obtain ⟨pre, c, post, rfl, hpos, hrel⟩ := h.entry e he
    exact ⟨pre, c, post ++ ds, by simp, hpos, hrel⟩
  head := h.head
  covered := hc

end Index.Points

theorem Index.not_isFull {idx : Index} (h : idx.isFull = false) :
    (idx.size + indexEntrySize : Nat) ≤ idx.maxBytes.toInt := by
  unfold Index.isFull at h
  simp only [decide_eq_false_iff_not] at h
  push_cast
  omega

/-- A new entry for a batch that the index may point to. -/
theorem Index.write_points {idx : Index} {base : Nat} {pre post : List ByteString}
    {c : ByteString}
    (hentry : ∀ e ∈ idx.entries, ∃ pre' c' post', pre ++ c :: post = pre' ++ c' :: post' ∧
      e.filePos = pre'.flatten.length ∧ e.relOffset = idx.relative (Storage.baseOffset c'))
    (hbase : idx.baseOffset = base) (hhead : ∀ e, idx.entries.head? = some e → e.filePos = 0)
    (hfirst : idx.entries = [] → pre = []) (hnot : idx.isFull = false) :
    ∃ idx', idx.write (Storage.baseOffset c) pre.flatten.length = (.ok (), idx') ∧
      idx'.Points base (pre ++ c :: post) ∧ idx'.maxBytes = idx.maxBytes ∧
      idx'.entries.length = idx.entries.length + 1 := by
  refine ⟨{ idx with entries := idx.entries ++ [⟨idx.relative (Storage.baseOffset c),
    pre.flatten.length⟩] }, ?_, ⟨hbase, ?_, ?_, ?_⟩, rfl, by simp⟩
  · rw [Index.write, hnot]
    rfl
  · intro e he
    rcases List.mem_append.mp he with he | he
    · exact hentry e he
    · rw [List.mem_singleton] at he
      subst he
      exact ⟨pre, c, post, rfl, rfl, rfl⟩
  · intro e he
    cases hents : idx.entries with
    | nil =>
      simp only [hents, List.nil_append, List.head?_cons, Option.some.injEq] at he
      subst he
      rw [hfirst hents]
      rfl
    | cons x xs =>
      rw [hents] at hhead
      simp only [hents, List.cons_append, List.head?_cons] at he
      exact hhead e he
  · intro _ _
    simp

/-! ## Rebuilding -/

/-- The entries that `rebuildIndexFromSegment` needs for the batches from here
on, with the bytes since the last entry. -/
def entriesNeeded (interval : Int64) : Bool → Nat → List ByteString → Nat
  | _, _, [] => 0
  | first, bytes, c :: cs =>
      if first = true ∨ interval.toInt ≤ (bytes + c.length : Nat) then
        entriesNeeded interval false 0 cs + 1
      else entriesNeeded interval false (bytes + c.length) cs

/-- What the loop leaves of the index, whether or not it ran out of space. -/
theorem rebuildLoop_points {crc : Checksum} {s : Segment} {interval : Int64}
    {post : List ByteString} :
    ∀ (pre : List ByteString) (fuel bytes : Nat) {idx : Index}, s.Rep crc (pre ++ post) →
      post.length < fuel → idx.baseOffset = s.baseOffset →
      (∀ e ∈ idx.entries, ∃ pre' c post', pre ++ post = pre' ++ c :: post' ∧
        e.filePos = pre'.flatten.length ∧ e.relOffset = idx.relative (Storage.baseOffset c)) →
      (∀ e, idx.entries.head? = some e → e.filePos = 0) →
      (pre ≠ [] → idx.entries ≠ []) →
      let r := rebuildLoop s interval fuel pre.flatten.length bytes idx
      r.2.Points s.baseOffset (pre ++ post) ∧ r.2.maxBytes = idx.maxBytes ∧
        ((indexEntrySize * (idx.entries.length +
            entriesNeeded interval (decide (pre = [])) bytes post) : Nat) ≤ idx.maxBytes.toInt ↔
          (indexEntrySize * idx.entries.length : Nat) ≤ idx.maxBytes.toInt ∧
            ∃ n, r.1 = .ok n) := by
  induction post with
  | nil =>
    intro pre fuel bytes idx h hfuel hbase hentry hhead hne
    obtain ⟨fuel, rfl⟩ : ∃ k, fuel = k + 1 := ⟨fuel - 1, by simp at hfuel; omega⟩
    have hend : ¬ pre.flatten.length < s.currentSize := by
      rw [h.size_flatten, List.append_nil]
      omega
    rw [rebuildLoop, if_neg hend]
    exact ⟨⟨hbase, hentry, hhead, fun hcs _ => hne (by simpa using hcs)⟩, rfl,
      fun hfit => ⟨hfit, bytes, rfl⟩, fun hfit => hfit.1⟩
  | cons c post ih =>
    intro pre fuel bytes idx h hfuel hbase hentry hhead hne
    obtain ⟨fuel, rfl⟩ : ∃ k, fuel = k + 1 := ⟨fuel - 1, by simp at hfuel; omega⟩
    have hend := h.end_le
    have h61 := (h.stored c (by simp)).length_ge
    have hzero : pre.flatten.length = 0 ↔ pre = [] := by
      constructor
      · intro h0
        cases pre with
        | nil => rfl
        | cons x xs =>
          have := (h.stored x (by simp)).length_ge
          rw [List.flatten_cons, List.length_append] at h0
          omega
      · rintro rfl
        rfl
    have happ : pre ++ c :: post = (pre ++ [c]) ++ post := by simp
    have h' : s.Rep crc ((pre ++ [c]) ++ post) := happ ▸ h
    rw [rebuildLoop, if_pos (by omega), h.readBatchMetaAt]
    simp only
    rw [if_neg (by omega), if_neg (by omega)]
    by_cases hidx : pre.flatten.length = 0 ∨ interval.toInt ≤ (bytes + c.length : Nat)
    · rw [if_pos hidx]
      have hneed : entriesNeeded interval (decide (pre = [])) bytes (c :: post) =
          entriesNeeded interval false 0 post + 1 := by
        rw [entriesNeeded, if_pos (by rwa [decide_eq_true_iff, ← hzero])]
      cases hfull : idx.isFull with
      | true =>
        -- the loop stops here with the entries it has
        have hwrite : idx.write (Storage.baseOffset c) pre.flatten.length =
            (.error (.full idx.size idx.maxBytes), idx) := by rw [Index.write, hfull]; rfl
        rw [hwrite]
        simp only
        unfold Index.isFull at hfull
        simp only [decide_eq_true_eq] at hfull
        refine ⟨⟨hbase, hentry, hhead, fun _ hcap he => ?_⟩, trivial, fun hfit => ?_, ?_⟩
        · rw [Index.size, he] at hfull
          simp only [List.length_nil, Nat.mul_zero] at hfull
          omega
        · rw [hneed] at hfit
          unfold Index.size indexEntrySize at *
          omega
        · rintro ⟨-, n, hn⟩
          cases hn
      | false =>
        obtain ⟨idx', hw, hp, hmax, hlen⟩ := Index.write_points hentry hbase hhead
          (fun he => by
            by_contra hpre
            exact hne hpre he) hfull
        rw [hw, happ]
        rw [happ] at hp
        simp only
        rw [Segment.Rep.next_pos]
        have hne' : idx'.entries ≠ [] := by
          intro he
          rw [he] at hlen
          simp at hlen
        obtain ⟨h1, h2, h3⟩ := ih (pre ++ [c]) fuel 0 h' (by simp at hfuel; omega) hp.base_eq
          hp.entry hp.head (fun _ => hne')
        refine ⟨h1, h2.trans hmax, ?_⟩
        have hfalse : decide (pre ++ [c] = []) = false := by simp
        have hroom := Index.not_isFull hfull
        rw [hfalse, hmax, hlen] at h3
        rw [hneed]
        unfold Index.size indexEntrySize at *
        constructor
        · intro hfit
          exact ⟨by omega, (h3.mp (by omega)).2⟩
        · rintro ⟨-, hok⟩
          have := h3.mpr ⟨by omega, hok⟩
          omega
    · rw [if_neg hidx]
      have hpre : pre ≠ [] := fun hp => hidx (.inl (hzero.mpr hp))
      have hneed : entriesNeeded interval (decide (pre = [])) bytes (c :: post) =
          entriesNeeded interval false (bytes + c.length) post := by
        rw [entriesNeeded, if_neg (by rwa [decide_eq_true_iff, ← hzero])]
      rw [happ] at hentry
      rw [happ, Segment.Rep.next_pos]
      obtain ⟨h1, h2, h3⟩ := ih (pre ++ [c]) fuel (bytes + c.length) h' (by simp at hfuel; omega)
        hbase hentry hhead (fun _ => hne hpre)
      have hfalse : decide (pre ++ [c] = []) = false := by simp
      rw [hfalse] at h3
      rw [hneed]
      exact ⟨h1, h2, h3⟩

/-- A rebuilt index points into its segment; it is complete exactly if its entries
fit. -/
theorem rebuildIndexFromSegment_points {crc : Checksum} {s : Segment} {cs : List ByteString}
    (h : s.Rep crc cs) {idx : Index} (hbase : idx.baseOffset = s.baseOffset) (interval : Int64) :
    let r := rebuildIndexFromSegment s idx interval
    r.2.Points s.baseOffset cs ∧ r.2.maxBytes = idx.maxBytes ∧
      ((indexEntrySize * entriesNeeded interval true 0 cs : Nat) ≤ idx.maxBytes.toInt ↔
        0 ≤ idx.maxBytes.toInt ∧ ∃ n, r.1 = .ok n) := by
  have hlen := h.length_le
  have hreset : idx.reset.baseOffset = s.baseOffset := hbase
  obtain ⟨h1, h2, h3⟩ := rebuildLoop_points [] (s.currentSize + 1) 0 h (by omega) hreset
    (fun e he => absurd he List.not_mem_nil) (fun e he => by cases he) (fun hne => absurd rfl hne)
  exact ⟨h1, h2, by simpa [Index.reset, rebuildIndexFromSegment] using h3⟩

end MessageBroker.Storage
