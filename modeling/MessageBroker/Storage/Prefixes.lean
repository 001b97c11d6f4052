import MessageBroker.Storage.Ranges
import MessageBroker.Storage.Replication

/-!
# A log that is the beginning of another

A follower's log is the leader's up to the follower's end offset. It stays so while the
leader appends, and while the follower appends consecutive batches of the leader's log:
a replica append is accepted at the end offset only, and the batches of a log are in the
order of their offsets, so that the accepted ones are those that come next.
-/
namespace MessageBroker.Storage

open Lib.Bytes Lib.Tiling Lib

namespace Log

/-- The log `f` is `l` up to the end offset of `f`. -/
structure PrefixOf (f l : Log) : Prop where
  split : ∃ rest, l.batches = f.batches ++ rest ∧ ∀ c ∈ rest, f.nextOffset ≤ baseOffset c
  le : f.nextOffset ≤ l.nextOffset

/-- The longer log grows. -/
theorem PrefixOf.extend {f l l' : Log} {ds : List ByteString} (h : PrefixOf f l)
    (ha : Adds l l' ds) : PrefixOf f l' := by
  obtain ⟨rest, hrest, hlow⟩ := h.split
  have hnext := ha.tiles.le
  refine ⟨⟨rest ++ ds, ?_, fun c hc => ?_⟩, h.le.trans hnext⟩
  · rw [ha.batches, hrest, List.append_assoc]
  · rcases List.mem_append.mp hc with hc | hc
    · exact hlow c hc
    · exact h.le.trans (ha.tiles.mem hc).1

/-- A batch at the end offset of the shorter log is the next one of the longer log. -/
theorem PrefixOf.next {crc : Checksum} {f l : Log} (h : PrefixOf f l) (hf : f.Apart crc)
    (hl : l.Apart crc) {before after : List ByteString} {c : ByteString}
    (hat : l.batches = before ++ c :: after) (hc : baseOffset c = f.nextOffset) :
    before = f.batches := by
  obtain ⟨rest, hrest, hlow⟩ := h.split
  have hlt := hl.base_lt (show c ∈ l.batches by rw [hat]; simp)
  have hord := hl.pairwise
  rw [hat] at hord
  obtain ⟨-, hafter, hbefore⟩ := List.pairwise_append.mp hord
  -- `before` holds what ends at or below the offset, as the shorter log does
  have hfilter : ∀ xs ys : List ByteString, l.batches = xs ++ ys →
      (∀ x ∈ xs, endOffset x ≤ f.nextOffset) → (∀ y ∈ ys, f.nextOffset < endOffset y) →
      l.batches.filter (fun x => decide (endOffset x ≤ f.nextOffset)) = xs := by
    intro xs ys hxs hin hout
    rw [hxs, List.filter_append, List.filter_eq_self.mpr fun x hx => decide_eq_true (hin x hx),
      List.filter_eq_nil_iff.mpr fun y hy => by simpa using hout y hy, List.append_nil]
  rw [← hfilter before (c :: after) hat, ← hfilter f.batches rest hrest]
  · exact fun x hx => hf.endOffset_le hx
  · intro y hy
    have hy' := hl.base_lt (show y ∈ l.batches by rw [hrest]; simp [hy])
    exact lt_of_le_of_lt (hlow y hy) hy'
  · intro x hx
    have hle := hbefore x hx c List.mem_cons_self
    omega
  · intro y hy
    rcases List.mem_cons.mp hy with rfl | hy'
    · omega
    · have hle := (List.pairwise_cons.mp hafter).1 y hy'
      have hylt := hl.base_lt (show y ∈ l.batches by rw [hat]; simp [hy'])
      omega

/-- The shorter log takes the first of some consecutive batches of the longer one. -/
theorem PrefixOf.follow {crc : Checksum} {f f' l : Log} {cs acc : List ByteString}
    (h : PrefixOf f l) (hf : f.Apart crc) (hl : l.Apart crc) (hcs : cs <:+: l.batches)
    (hacc : acc <+: cs) (ha : Adds f f' acc) : PrefixOf f' l := by
  cases acc with
  | nil =>
    obtain ⟨hbatches, hnext⟩ := ha.nil
    obtain ⟨rest, hrest, hlow⟩ := h.split
    refine ⟨⟨rest, ?_, ?_⟩, ?_⟩
    · rw [hbatches]
      exact hrest
    · rw [hnext]
      exact hlow
    · rw [hnext]
      exact h.le
  | cons c acc =>
    obtain ⟨before, after, hwithin⟩ := hcs
    obtain ⟨tail, rfl⟩ := hacc
    have hat : l.batches = before ++ c :: (acc ++ tail ++ after) := by
      rw [← hwithin]
      simp
    have hbefore := h.next hf hl hat ha.tiles.1
    have hsplit : l.batches = f'.batches ++ (tail ++ after) := by
      rw [hat, ha.batches, hbefore]
      simp
    have hlast : f'.nextOffset = endOffset ((c :: acc).getLast (List.cons_ne_nil c acc)) :=
      ha.tiles.end_eq_getLast (List.cons_ne_nil c acc)
    have hmem : (c :: acc).getLast (List.cons_ne_nil c acc) ∈ f'.batches := by
      rw [ha.batches]
      exact List.mem_append_right _ (List.getLast_mem _)
    refine ⟨⟨tail ++ after, hsplit, fun d hd => ?_⟩, ?_⟩
    · have hord := hl.pairwise
      rw [hsplit] at hord
      rw [hlast]
      exact (List.pairwise_append.mp hord).2.2 _ hmem d hd
    · rw [hlast]
      exact hl.endOffset_le (by rw [hsplit]; exact List.mem_append_left _ hmem)

theorem Adds.consecutive {l l' : Log} {ds cs : List ByteString} (ha : Adds l l' ds)
    (hcs : cs <:+: l.batches) : cs <:+: l'.batches := by
  rw [ha.batches]
  exact hcs.trans (List.prefix_append _ _).isInfix

/-- What is read from a log are consecutive batches of it. -/
theorem ReadFrom.consecutive {crc : Checksum} {l : Log} {s : Segment} {offset : Nat}
    {maxBytes : Int32} {pre cs rest : List ByteString}
    (h : ReadFrom crc l s offset maxBytes pre cs rest) : cs <:+: l.batches := by
  obtain ⟨p, hp, rfl⟩ := List.mem_map.mp h.segment
  obtain ⟨before, after, hsplit⟩ := List.append_of_mem hp
  refine ⟨before.flatMap (fun q => q.segment.batches) ++ pre,
    rest ++ after.flatMap (fun q => q.segment.batches), ?_⟩
  rw [Log.batches, hsplit, List.flatMap_append, List.flatMap_cons, h.rep.batches_eq]
  simp

end Log

end MessageBroker.Storage
