import MessageBroker.Storage.History

/-!
# Two logs with epoch histories

A follower's log and a leader's agree up to the end of their last common epoch.
The file says when a shortened log is a first part of another one, by looking at
the cached epochs only, and names the pattern of four epochs by which truncating
to the leader's answers can miss that point.
-/
namespace MessageBroker.Storage

open Lib.Bytes Lib.Tiling EpochCache

namespace Log

/-- The cached epochs start with the log and know the epoch of every batch. -/
structure Faithful (l : Log) : Prop where
  increasing : l.epochCache.Increasing
  first : ∀ e, l.epochCache.head? = some e → e.startOffset = l.oldestOffset
  stamped : l.Stamped

/-- Epochs start with batches, as far as the log reaches. -/
def Anchored (l : Log) : Prop :=
  ∀ e ∈ l.epochCache, e.startOffset < l.nextOffset → ∃ c ∈ l.batches, baseOffset c = e.startOffset

def batchesBelow (l : Log) (offset : Nat) : List ByteString :=
  l.batches.filter fun c => decide (baseOffset c < offset)

def batchesOf (l : Log) (epoch : Int32) : List ByteString :=
  l.batches.filter fun c => decide (partitionLeaderEpoch c = epoch)

/-- Epochs in both logs start alike over the same batches, and one log has a
first part of the other's batches of the epoch. -/
def Matches (l m : Log) : Prop :=
  ∀ x ∈ l.epochCache, ∀ y ∈ m.epochCache, x.epoch = y.epoch →
    x.startOffset = y.startOffset ∧
      l.batchesBelow x.startOffset = m.batchesBelow x.startOffset ∧
      (l.batchesOf x.epoch <+: m.batchesOf x.epoch ∨ m.batchesOf x.epoch <+: l.batchesOf x.epoch)

instance (l m : Log) : Decidable (l.Matches m) :=
  inferInstanceAs (Decidable (∀ x ∈ l.epochCache, ∀ y ∈ m.epochCache, _ → _ ∧ _ ∧ (_ ∨ _)))

section Faithful

variable {l : Log} (h : l.Faithful)

include h

/-- The epoch of a batch is cached. -/
theorem Faithful.cached {c : ByteString} (hc : c ∈ l.batches) :
    ∃ y ∈ l.epochCache, y.epoch = partitionLeaderEpoch c ∧ y.startOffset ≤ baseOffset c := by
  obtain ⟨y, ⟨hy, hle, -⟩, he⟩ := (epochForOffset_eq_some h.increasing).mp (h.stamped c hc)
  exact ⟨y, hy, he, hle⟩

/-- Batches are ordered among the cached epochs by their offsets. -/
theorem Faithful.le_epoch_iff {c : ByteString} (hc : c ∈ l.batches) {x : EpochEntry}
    (hx : x ∈ l.epochCache) :
    x.epoch ≤ partitionLeaderEpoch c ↔ x.startOffset ≤ baseOffset c := by
  obtain ⟨y, ⟨hy, hle, hmax⟩, he⟩ := (epochForOffset_eq_some h.increasing).mp (h.stamped c hc)
  rw [← he]
  constructor
  · intro hxy
    exact ((h.increasing.le_iff hx hy).mp hxy).trans hle
  · intro hxo
    exact (h.increasing.le_iff hx hy).mpr (hmax x hx hxo)

/-- No cached epoch starts before the log. -/
theorem Faithful.oldest_le {x : EpochEntry} (hx : x ∈ l.epochCache) :
    l.oldestOffset ≤ x.startOffset := by
  cases hc : l.epochCache with
  | nil =>
    rw [hc] at hx
    exact absurd hx List.not_mem_nil
  | cons first rest =>
    have hinc := h.increasing
    rw [hc] at hx hinc
    have hf := h.first first (by rw [hc]; rfl)
    rcases List.mem_cons.mp hx with rfl | hx
    · exact Nat.le_of_eq hf.symm
    · have := (hinc.head_lt hx).2
      omega

/-- The first epoch is cached with the start of the log. -/
theorem Faithful.exists_first {x : EpochEntry} (hx : x ∈ l.epochCache) :
    ∃ y ∈ l.epochCache, y.startOffset = l.oldestOffset := by
  cases hc : l.epochCache with
  | nil =>
    rw [hc] at hx
    exact absurd hx List.not_mem_nil
  | cons first rest => exact ⟨first, List.mem_cons_self, h.first first (by rw [hc]; rfl)⟩

/-- Without cached epochs there are no batches. -/
theorem Faithful.batches_nil (hnil : l.epochCache = []) : l.batches = [] := by
  apply List.eq_nil_iff_forall_not_mem.mpr
  intro c hc
  obtain ⟨y, hy, -⟩ := h.cached hc
  rw [hnil] at hy
  exact absurd hy List.not_mem_nil

end Faithful

/-- Batches before the end of a cached epoch. -/
def upToEpoch (x : EpochEntry) (c : ByteString) : Bool :=
  decide (baseOffset c < x.startOffset) || decide (partitionLeaderEpoch c = x.epoch)

section Epoch

variable {crc : Checksum} {l : Log} (hok : l.Ok crc) (h : l.Faithful) {x : EpochEntry}
  (hx : x ∈ l.epochCache)

include hok h hx

/-- The batches up to the end of an epoch are those below it and those of it. -/
theorem Faithful.filter_upToEpoch :
    l.batches.filter (upToEpoch x) = l.batchesBelow x.startOffset ++ l.batchesOf x.epoch := by
  refine filter_or (hok.tiles.pairwise.imp_of_mem ?_) ?_
  · intro c d hc hd hcd hb
    have := hok.tiles.mem hc
    simp only [decide_eq_true_eq] at hb ⊢
    omega
  · intro c hc he
    have hle := (h.le_epoch_iff hc hx).mp (of_decide_eq_true he).ge
    simpa using hle

/-- They come first in the log. -/
theorem Faithful.upToEpoch_initial :
    l.batches.Pairwise fun c d => upToEpoch x d = true → upToEpoch x c = true := by
  refine hok.tiles.pairwise.imp_of_mem ?_
  intro c d hc hd hcd hb
  have hlt := hok.tiles.mem hc
  simp only [upToEpoch, Bool.or_eq_true, decide_eq_true_eq] at hb ⊢
  rcases hb with hb | hb
  · exact .inl (by omega)
  · rcases Nat.lt_or_ge (baseOffset c) x.startOffset with hlow | hge
    · exact .inl hlow
    · right
      obtain ⟨y, hy, he, hyc⟩ := h.cached hc
      refine le_antisymm ?_ ((h.le_epoch_iff hc hx).mpr hge)
      rw [← he, ← hb]
      exact (h.le_epoch_iff hd hy).mpr (by omega)

end Epoch

/-- A first part of one log that ends before any epoch newer than a common one
starts, in either log, is a first part of the other. -/
theorem Matches.firstPart {crc : Checksum} {l m : Log} (hm : l.Matches m) (hl : l.Ok crc)
    (hmok : m.Ok crc) (hstart : l.oldestOffset = m.oldestOffset) (hfl : l.Faithful)
    (hfm : m.Faithful) {x y : EpochEntry} (hx : x ∈ l.epochCache) (hy : y ∈ m.epochCache)
    (hxy : x.epoch = y.epoch) {cs : List ByteString} {t : Nat} (hcs : cs <+: l.batches)
    (ht : BatchTiles l.oldestOffset t cs)
    (hxt : ∀ z ∈ l.epochCache, x.epoch < z.epoch → t ≤ z.startOffset)
    (hyt : ∀ z ∈ m.epochCache, y.epoch < z.epoch → t ≤ z.startOffset)
    (hend : t ≤ m.nextOffset) : cs <+: m.batches := by
  obtain ⟨hs, hbelow, hof⟩ := hm x hx y hy hxy
  have hself : cs.filter (upToEpoch x) = cs := by
    refine List.filter_eq_self.mpr fun c hc => ?_
    obtain ⟨z, hz, he, hzc⟩ := hfl.cached (hcs.subset hc)
    have hlt := ht.mem hc
    simp only [upToEpoch, Bool.or_eq_true, decide_eq_true_eq]
    rcases Nat.lt_or_ge (baseOffset c) x.startOffset with hlow | hge
    · exact .inl hlow
    · right
      refine le_antisymm ?_ ((hfl.le_epoch_iff (hcs.subset hc) hx).mpr hge)
      rw [← he]
      refine not_lt.mp fun hnew => ?_
      have := hxt z hz hnew
      omega
  have hleft : cs <+: l.batchesBelow x.startOffset ++ l.batchesOf x.epoch := by
    rw [← hfl.filter_upToEpoch hl hx, ← hself]
    exact hcs.filter _
  have hright := filter_append_filter_not (hfm.upToEpoch_initial hmok hy)
  rw [hfm.filter_upToEpoch hmok hy, ← hs, ← hxy, ← hbelow] at hright
  have hpart : l.batchesBelow x.startOffset ++ m.batchesOf x.epoch <+: m.batches := ⟨_, hright⟩
  rcases hof with hof | hof
  · exact (hleft.trans ((List.prefix_append_right_inj _).mpr hof)).trans hpart
  · -- the other log's part reaches at least as far
    have htm := hmok.tiles
    rw [← hright] at htm
    obtain ⟨z, hz, htail⟩ := tiles_append.mp htm
    have htz : t ≤ z := by
      cases hrest : m.batches.filter (fun c => !upToEpoch y c) with
      | nil =>
        rw [hrest] at htail
        exact htail ▸ hend
      | cons d rest =>
        obtain ⟨hd, hnot⟩ := List.mem_filter.mp
          (hrest ▸ List.mem_cons_self : d ∈ m.batches.filter _)
        rw [hrest] at htail
        simp only [Bool.not_eq_true'] at hnot
        simp only [upToEpoch, Bool.or_eq_false_iff, decide_eq_false_iff_not, not_lt] at hnot
        obtain ⟨w, hw, he, hwd⟩ := hfm.cached hd
        have hnew : y.epoch < w.epoch := by
          rw [he]
          exact lt_of_le_of_ne ((hfm.le_epoch_iff hd hy).mpr hnot.1) (Ne.symm hnot.2)
        have := hyt w hw hnew
        have := htail.1
        omega
    refine (ht.prefix_of_le (hstart ▸ hz) hleft ?_ htz).trans hpart
    exact (List.prefix_append_right_inj _).mpr hof

/-! ## Shortened logs -/

/-- The log `l'` is `l` after truncations: cut at its end together with its
cached epochs, or untouched. -/
structure CutOf (crc : Checksum) (l l' : Log) : Prop where
  ok : l'.Ok crc
  oldest : l'.oldestOffset = l.oldestOffset
  batches : l'.batches <+: l.batches
  increasing : l'.epochCache.Increasing
  kept : (l'.epochCache = l.epochCache ∧ l'.nextOffset = l.nextOffset) ∨
    (l'.nextOffset < l.nextOffset ∧
      ∀ x, x ∈ l'.epochCache ↔ x ∈ l.epochCache ∧ x.startOffset < l'.nextOffset)

theorem CutOf.refl {crc : Checksum} {l : Log} (hok : l.Ok crc) (h : l.epochCache.Increasing) :
    CutOf crc l l :=
  ⟨hok, rfl, List.prefix_refl _, h, .inl ⟨rfl, rfl⟩⟩

section CutOf

variable {crc : Checksum} {l l' : Log} (h : CutOf crc l l')

include h

theorem CutOf.next_le : l'.nextOffset ≤ l.nextOffset := by
  rcases h.kept with ⟨-, hn⟩ | ⟨hn, -⟩ <;> omega

theorem CutOf.mem {x : EpochEntry} (hx : x ∈ l'.epochCache) : x ∈ l.epochCache := by
  rcases h.kept with ⟨hc, -⟩ | ⟨-, hc⟩
  · exact hc ▸ hx
  · exact ((hc x).mp hx).1

/-- The cached epochs below the end are still there. -/
theorem CutOf.mem_of_lt {x : EpochEntry} (hx : x ∈ l.epochCache)
    (hlt : x.startOffset < l'.nextOffset) : x ∈ l'.epochCache := by
  rcases h.kept with ⟨hc, -⟩ | ⟨-, hc⟩
  · exact hc ▸ hx
  · exact (hc x).mpr ⟨hx, hlt⟩

/-- An epoch is there if a newer one is. -/
theorem CutOf.mem_of_le (hinc : l.epochCache.Increasing) {x y : EpochEntry}
    (hx : x ∈ l.epochCache) (hy : y ∈ l'.epochCache) (hxy : x.epoch ≤ y.epoch) :
    x ∈ l'.epochCache := by
  rcases h.kept with ⟨hc, -⟩ | ⟨-, hc⟩
  · exact hc ▸ hx
  · have hys := (hc y).mp hy
    exact (hc x).mpr ⟨hx, ((hinc.le_iff hx hys.1).mp hxy).trans_lt hys.2⟩

/-- An epoch that is gone starts at the end or later. -/
theorem CutOf.le_of_not_mem {x : EpochEntry} (hx : x ∈ l.epochCache) (hnot : x ∉ l'.epochCache) :
    l'.nextOffset ≤ x.startOffset :=
  Nat.le_of_not_lt fun hlt => hnot (h.mem_of_lt hx hlt)

/-- Truncating once more. -/
theorem CutOf.cutAt {l₂ : Log} {offset : Nat} (hlt : offset < l'.nextOffset)
    (hcut : Log.CutAt crc l' l₂ offset)
    (hcache : l₂.epochCache = l'.epochCache.truncateFromEnd offset) : CutOf crc l l₂ where
  ok := hcut.ok
  oldest := hcut.oldest.trans h.oldest
  batches := by
    obtain ⟨cut, hb⟩ := hcut.batches
    exact List.IsPrefix.trans ⟨cut, hb.symm⟩ h.batches
  increasing := hcache ▸ h.increasing.takeWhile _
  kept := by
    right
    have hle := h.next_le
    refine ⟨by rw [hcut.next]; omega, fun x => ?_⟩
    rw [hcache, mem_truncateFromEnd h.increasing, hcut.next]
    constructor
    · exact fun hx => ⟨h.mem hx.1, hx.2⟩
    · exact fun hx => ⟨h.mem_of_lt hx.1 (by omega), hx.2⟩

theorem CutOf.batches_nil (hle : l'.nextOffset ≤ l.oldestOffset) : l'.batches = [] := by
  by_contra hne
  have := h.ok.tiles.lt_of_ne_nil hne
  rw [h.oldest] at this
  omega

end CutOf

/-! ## The pattern that hides a divergence -/

/-- Four epochs that alternate between a leader's log `m` and a follower's log
`l`, above every common one, such that the leader's answer for `u` cuts away all
epochs of the follower from `e` on. -/
structure Interleaving (l m : Log) (e g a u : EpochEntry) : Prop where
  older : e ∈ m.epochCache
  between : g ∈ l.epochCache
  newer : a ∈ m.epochCache
  latest : u ∈ l.epochCache
  order : e.epoch < g.epoch ∧ g.epoch < a.epoch ∧ a.epoch < u.epoch
  common : ∀ x ∈ m.epochCache, ∀ y ∈ l.epochCache, x.epoch = y.epoch → x.epoch < e.epoch
  ends : ∃ r s, m.endOffsetForLeaderEpoch u.epoch = some r ∧
    l.endOffsetForLeaderEpoch e.epoch = some s ∧ r.endOffset ≤ s.endOffset ∧
      r.endOffset < l.nextOffset

def Interleaved (l m : Log) : Prop := ∃ e g a u, Interleaving l m e g a u

section Leader

variable {m : Log} (hfm : m.Faithful) (hlead : ∀ x ∈ m.epochCache, x.startOffset ≤ m.nextOffset)
  {f : Int32} {r : EpochEndOffset} (hr : m.endOffsetForLeaderEpoch f = some r)

include hfm hr

theorem Faithful.answers : m.epochCache.Answers m.nextOffset f r ∧ 0 ≤ f ∧
    ∃ x ∈ m.epochCache, f ≤ x.epoch :=
  answers_of_endOffsetFor hfm.increasing hr

include hlead

/-- An answer lies within the log. -/
theorem Faithful.answer_le : r.endOffset ≤ m.nextOffset := by
  rcases (hfm.answers hr).1.attained with ⟨x, hx, -, he⟩ | ⟨he, -⟩
  · exact he ▸ hlead x hx
  · exact Nat.le_of_eq he

/-- Epochs that are not newer than the requested one start before the answer. -/
theorem Faithful.start_le_answer {x : EpochEntry} (hx : x ∈ m.epochCache) (hle : x.epoch ≤ f) :
    x.startOffset ≤ r.endOffset := by
  rcases (hfm.answers hr).1.attained with ⟨y, hy, hlt, he⟩ | ⟨he, -⟩
  · exact he ▸ Nat.le_of_lt ((hfm.increasing.lt_iff hx hy).mp (hle.trans_lt hlt))
  · exact he ▸ hlead x hx

omit hlead in
/-- Properly so if there are newer ones. -/
theorem Faithful.start_lt_answer {x y : EpochEntry} (hx : x ∈ m.epochCache) (hle : x.epoch ≤ f)
    (hy : y ∈ m.epochCache) (hlt : f < y.epoch) : x.startOffset < r.endOffset := by
  rcases (hfm.answers hr).1.attained with ⟨z, hz, hfz, he⟩ | ⟨-, hall⟩
  · exact he ▸ (hfm.increasing.lt_iff hx hz).mp (hle.trans_lt hfz)
  · exact absurd (hall y hy) (not_le.mpr hlt)

end Leader

section Diverged

variable {crc : Checksum} {l l' m : Log} (hm : l.Matches m) (hfl : l.Faithful) (hfm : m.Faithful)
  (hlead : ∀ x ∈ m.epochCache, x.startOffset ≤ m.nextOffset) (hcut : CutOf crc l l')
  {g a u x : EpochEntry} {r s : EpochEndOffset}

include hm hfl hfm hlead hcut

/-- The leader's answer for `u` cut the log at `l'`; if the leader's epoch for the
next request `g` is then newer than all that is left, the logs interleave. -/
theorem CutOf.interleaving (hg : g ∈ l.epochCache) (ha : a ∈ m.epochCache)
    (hu : u ∈ l.epochCache) (hga : g.epoch < a.epoch) (hau : a.epoch < u.epoch)
    (hs : m.endOffsetForLeaderEpoch u.epoch = some s) (hend : s.endOffset = l'.nextOffset)
    (hshort : l'.nextOffset < l.nextOffset)
    (hcommon : ∀ x ∈ m.epochCache, ∀ y ∈ l.epochCache, x.epoch = y.epoch → x.epoch ≤ g.epoch)
    (hr : m.endOffsetForLeaderEpoch g.epoch = some r) (hx : x ∈ m.epochCache)
    (hxr : x.epoch = r.epoch) (h0 : 0 ≤ r.epoch) (hleft : ∀ z ∈ l'.epochCache, z.epoch < r.epoch) :
    Interleaving l m x g a u := by
  obtain ⟨hans, -, -⟩ := hfm.answers hr
  have hfloor : x.epoch ≤ g.epoch ∧ ∀ z ∈ m.epochCache, z.epoch ≤ g.epoch → z.epoch ≤ x.epoch := by
    rcases hans.epoch with ⟨e, he, her, hle, hmax⟩ | ⟨her, hall⟩
    · rw [hxr, ← her]
      exact ⟨hle, hmax⟩
    · exact absurd (hall x hx) (by rw [hxr, her]; exact lt_irrefl _)
  have hgap : x.startOffset < l'.nextOffset := by
    have h1 := (hfm.increasing.lt_iff hx ha).mp (hfloor.1.trans_lt hga)
    have h2 := hfm.start_le_answer hlead hs ha hau.le
    omega
  -- an epoch as old as the answer would still be cached if both logs had it
  have hnot : ∀ y ∈ l.epochCache, x.epoch ≠ y.epoch := by
    intro y hy hxy
    have hstart := (hm y hy x hx hxy.symm).1
    have := hleft y (hcut.mem_of_lt hy (by omega))
    rw [← hxr, hxy] at this
    exact lt_irrefl _ this
  have hxg : x.epoch < g.epoch := lt_of_le_of_ne hfloor.1 (hnot g hg)
  refine ⟨hx, hg, ha, hu, ⟨hxg, hga, hau⟩, fun z hz y hy hzy => ?_, ?_⟩
  · have hle := hfloor.2 z hz (hcommon z hz y hy hzy)
    refine lt_of_le_of_ne hle fun heq => hnot y hy (heq ▸ hzy)
  · rcases endOffsetFor_cases hfl.increasing x.epoch l.nextOffset with
      ⟨-, hneg | hall⟩ | ⟨e, he, hans', -⟩
    · exact absurd (hxr ▸ h0) (not_le.mpr hneg)
    · exact absurd (hall g hg) (not_lt.mpr hxg.le)
    · refine ⟨s, e, hs, he, ?_, by omega⟩
      rcases hans'.attained with ⟨z, hz, hlt, hze⟩ | ⟨-, hall⟩
      · have hgone : z ∉ l'.epochCache := fun hz' =>
          absurd (hleft z hz') (not_lt.mpr (hxr ▸ hlt.le))
        have := hcut.le_of_not_mem hz hgone
        omega
      · exact absurd (hall g hg) (not_le.mpr hxg)

omit hm hlead in
/-- A log cut at the end of a leader's epoch, with older epochs only, is not a
first part of the leader's. -/
theorem CutOf.not_firstPart (hmok : m.Ok crc) (hanch : m.Anchored)
    (hr : m.endOffsetForLeaderEpoch g.epoch = some r) (hx : x ∈ m.epochCache)
    (hxr : x.epoch = r.epoch) (hxg : x.epoch ≤ g.epoch) (ha : a ∈ m.epochCache)
    (hga : g.epoch < a.epoch) (hrm : r.endOffset ≤ m.nextOffset)
    (hstart : l.oldestOffset = m.oldestOffset) (hnext : l'.nextOffset = r.endOffset)
    (hold : ∀ z ∈ l.epochCache, z.startOffset < r.endOffset → z.epoch < r.epoch) :
    ¬ l'.batches <+: m.batches := by
  intro hpre
  have hlt := hfm.start_lt_answer hr hx hxg ha hga
  have ht := hcut.ok.tiles
  have hne : l'.batches ≠ [] := by
    intro hnil
    rw [hnil] at ht
    have h1 : l'.oldestOffset = l'.nextOffset := ht
    have h2 := hfm.oldest_le hx
    have h3 := hcut.oldest
    omega
  have hlast := ht.end_eq_getLast hne
  have hmem := List.getLast_mem hne
  generalize l'.batches.getLast hne = c at hlast hmem
  have hcb := ht.mem hmem
  -- the leader has a batch at the start of its epoch, so the last one is not before it
  obtain ⟨d, hd, hdb⟩ := hanch x hx (by omega)
  have hxc : x.startOffset ≤ baseOffset c := by
    rcases hmok.tiles.trichotomy hd (hpre.subset hmem) with rfl | hdc | hcd
    · omega
    · have := (hmok.tiles.mem hd).2.1
      omega
    · omega
  have hge := (hfm.le_epoch_iff (hpre.subset hmem) hx).mpr hxc
  obtain ⟨z, hz, hze, hzc⟩ := hfl.cached (hcut.batches.subset hmem)
  have hless := hold z hz (by omega)
  rw [hze, ← hxr] at hless
  exact absurd hge (not_le.mpr hless)

end Diverged

/-- In an interleaving the answer for the latest epoch lies inside both logs, and
the follower's epochs from the older one on start after it. -/
theorem Interleaving.answer {l m : Log} {e g a u : EpochEntry} (h : Interleaving l m e g a u)
    (hfl : l.Faithful) (hfm : m.Faithful)
    (hlead : ∀ x ∈ m.epochCache, x.startOffset ≤ m.nextOffset) :
    ∃ r, m.endOffsetForLeaderEpoch u.epoch = some r ∧ r.endOffset < l.nextOffset ∧
      m.oldestOffset < r.endOffset ∧
      ∀ y ∈ l.epochCache, e.epoch ≤ y.epoch → r.endOffset ≤ y.startOffset := by
  obtain ⟨r, s, hr, hs, hle, hlt⟩ := h.ends
  obtain ⟨heg, hga, hau⟩ := h.order
  obtain ⟨hans, -, -⟩ := answers_of_endOffsetFor hfl.increasing hs
  refine ⟨r, hr, hlt, ?_, fun y hy hey => ?_⟩
  · have h1 := hfm.oldest_le h.older
    have h2 := (hfm.increasing.lt_iff h.older h.newer).mp (heg.trans hga)
    have h3 := hfm.start_le_answer hlead hr h.newer hau.le
    omega
  · -- the older epoch itself is not the follower's
    have hne : e.epoch ≠ y.epoch := fun heq => lt_irrefl _ (h.common e h.older y hy heq)
    exact hle.trans (hans.upper y hy (lt_of_le_of_ne hey hne))

end Log

end MessageBroker.Storage
