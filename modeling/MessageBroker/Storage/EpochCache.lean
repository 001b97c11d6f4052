import Mathlib

/-!
# Leader epoch cache

The cache lists, for each leader epoch the log has seen, the offset at which the
epoch starts. The operations are those of `LeaderEpochCache`, on its entries;
the checkpoint file is modelled by the entries it holds.
-/
namespace MessageBroker.Storage

/-- Epochs are 32-bit words compared as signed numbers. -/
instance instLinearOrderInt32 : LinearOrder Int32 where
  le_refl a := Int32.le_refl a
  le_trans a b c := Int32.le_trans
  le_antisymm a b := Int32.le_antisymm
  le_total a b := Int32.le_total a b
  lt_iff_le_not_ge a b := by
    rw [Int32.lt_iff_toInt_lt, Int32.le_iff_toInt_le, Int32.le_iff_toInt_le]
    omega
  toDecidableLE := inferInstance
  toDecidableEq := inferInstance
  toDecidableLT := inferInstance
  compare_eq_compareOfLessAndEq _ _ := rfl
  min_def _ _ := rfl
  max_def _ _ := rfl

structure EpochEntry where
  epoch : Int32
  startOffset : Nat
  deriving DecidableEq

structure EpochEndOffset where
  epoch : Int32
  endOffset : Nat
  deriving DecidableEq

/-- `LeaderEpochCache.entries`. -/
abbrev EpochCache := List EpochEntry

inductive EpochError
  | negativeEpoch (epoch : Int32)
  | checkpointNegativeEpoch (i : Nat) (epoch : Int32)
  | checkpointStartTooLarge (i start : Nat)
  | checkpointEpochOrder (i : Nat) (epoch prev : Int32)
  | checkpointStartOrder (i start prev : Nat)
  | checkpointWrite
  deriving DecidableEq

/-- `Assign`: whether the entries changed, and the entries. -/
def EpochCache.assign (c : EpochCache) (epoch : Int32) (startOffset : Nat) :
    Except EpochError (Bool × EpochCache) :=
  if epoch < 0 then .error (.negativeEpoch epoch)
  else match c.getLast? with
    | none => .ok (true, [⟨epoch, startOffset⟩])
    | some last =>
      if epoch = last.epoch ∧ last.startOffset ≤ startOffset then .ok (false, c)
      else if last.epoch < epoch ∧ last.startOffset < startOffset then
        .ok (true, c ++ [⟨epoch, startOffset⟩])
      else
        .ok (true, c.takeWhile (fun e => !(decide (epoch ≤ e.epoch) ||
          decide (startOffset ≤ e.startOffset))) ++ [⟨epoch, startOffset⟩])

/-- The entries `TruncateFromEnd` keeps. -/
def EpochCache.truncateFromEnd (c : EpochCache) (offset : Nat) : EpochCache :=
  c.takeWhile fun e => decide (e.startOffset < offset)

/-- The entries `TruncateAfter` keeps. -/
def EpochCache.truncateAfter (c : EpochCache) (offset : Nat) : EpochCache :=
  c.takeWhile fun e => decide (e.startOffset ≤ offset)

/-- The loop of `EpochForOffset` with the epoch found so far. -/
def EpochCache.epochLoop (offset : Nat) : Option Int32 → EpochCache → Option Int32
  | acc, [] => acc
  | acc, e :: es => if offset < e.startOffset then acc else epochLoop offset (some e.epoch) es

def EpochCache.epochForOffset (c : EpochCache) (offset : Nat) : Option Int32 :=
  epochLoop offset none c

/-- The downward loop of `EndOffsetFor`: the last entry whose epoch is not above
the requested one, with the start of the entry after it. -/
def EpochCache.floorLoop (requestedEpoch : Int32) : EpochCache → Option EpochEndOffset
  | e :: e' :: es =>
      match floorLoop requestedEpoch (e' :: es) with
      | some r => some r
      | none => if e.epoch ≤ requestedEpoch then some ⟨e.epoch, e'.startOffset⟩ else none
  | _ => none

def EpochCache.endOffsetFor (c : EpochCache) (requestedEpoch : Int32) (leo : Nat) :
    Option EpochEndOffset :=
  match c.head?, c.getLast? with
  | some first, some last =>
      if requestedEpoch < 0 then none
      else if requestedEpoch < first.epoch then some ⟨requestedEpoch, first.startOffset⟩
      else if requestedEpoch = last.epoch then some ⟨last.epoch, leo⟩
      else if last.epoch < requestedEpoch then none
      else floorLoop requestedEpoch c
  | _, _ => none

/-- The checks of `EpochCheckpoint.Write` from entry `i` on, after `prev`. -/
def checkpointCheck : Nat → Option EpochEntry → List EpochEntry → Except EpochError Unit
  | _, _, [] => .ok ()
  | i, prev, e :: es =>
      if e.epoch < 0 then .error (.checkpointNegativeEpoch i e.epoch)
      else if 2 ^ 63 - 1 < e.startOffset then .error (.checkpointStartTooLarge i e.startOffset)
      else match prev with
        | none => checkpointCheck (i + 1) (some e) es
        | some p =>
          if e.epoch ≤ p.epoch then .error (.checkpointEpochOrder i e.epoch p.epoch)
          else if e.startOffset ≤ p.startOffset then
            .error (.checkpointStartOrder i e.startOffset p.startOffset)
          else checkpointCheck (i + 1) (some e) es

/-- `EpochCheckpoint.Write` over the old file contents; `fault` stands for a
failing file operation before the rename (after it: `CheckpointFiles.write`). -/
def writeCheckpoint (old : Option EpochCache) (entries : EpochCache) (fault : Bool) :
    Except EpochError Unit × Option EpochCache :=
  match checkpointCheck 0 none entries with
  | .error e => (.error e, old)
  | .ok () => if fault then (.error .checkpointWrite, old) else (.ok (), some entries)

/-- `replayEpochEntries`. -/
def replayEpochEntries : EpochCache → List EpochEntry → Except EpochError EpochCache
  | cache, [] => .ok cache
  | cache, e :: es =>
      match cache.assign e.epoch e.startOffset with
      | .error err => .error err
      | .ok (_, cache) => replayEpochEntries cache es

end MessageBroker.Storage
