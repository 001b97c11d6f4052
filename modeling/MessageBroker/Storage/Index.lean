import MessageBroker.Storage.Segment
import MessageBroker.Lib.Search

/-!
# Sparse offset index

An index maps some offsets of its segment to file positions, twelve bytes an
entry, the offset kept relative to the segment's base in 32 bits. The mapped
file is modelled by its entries; it is rebuilt whenever a segment is opened or
truncated, so what an older process left in it is never read.
-/
namespace MessageBroker.Storage

open Lib

/-- `indexEntrySize`. -/
def indexEntrySize : Nat := 12

structure IndexEntry where
  relOffset : Nat
  filePos : Nat
  deriving DecidableEq

structure Index where
  entries : List IndexEntry
  baseOffset : Nat
  maxBytes : Int64
  deriving DecidableEq

def Index.size (idx : Index) : Nat := indexEntrySize * idx.entries.length

def Index.isFull (idx : Index) : Bool := decide (idx.maxBytes.toInt < idx.size + indexEntrySize)

def Index.reset (idx : Index) : Index := { idx with entries := [] }

inductive IndexError
  | full (size : Nat) (maxBytes : Int64)
  | belowBase (offset base : Nat)
  deriving DecidableEq

/-- `uint32(offset - idx.baseOffset)`. -/
def Index.relative (idx : Index) (offset : Nat) : Nat :=
  ((offset + 2 ^ 64 - idx.baseOffset) % 2 ^ 64) % 2 ^ 32

def Index.write (idx : Index) (offset filePos : Nat) : Except IndexError Unit × Index :=
  if idx.isFull then (.error (.full idx.size idx.maxBytes), idx)
  else (.ok (), { idx with entries := idx.entries ++ [⟨idx.relative offset, filePos⟩] })

def Index.lookup (idx : Index) (offset : Nat) : Except IndexError Nat :=
  if idx.entries = [] then .ok 0
  else if offset < idx.baseOffset then .error (.belowBase offset idx.baseOffset)
  else
    let result := Search.lastLE (fun i => (idx.entries.getD i ⟨0, 0⟩).relOffset)
      (idx.relative offset) idx.entries.length
    .ok (idx.entries.getD result ⟨0, 0⟩).filePos

inductive RebuildError
  | segment (e : SegmentError)
  | index (pos : Nat) (e : IndexError)
  deriving DecidableEq

/-- The loop of `rebuildIndexFromSegment`: the bytes since the last entry, and
the index as far as it got. -/
def rebuildLoop (seg : Segment) (interval : Int64) :
    Nat → Nat → Nat → Index → Except RebuildError Nat × Index
  | 0, _, bytes, idx => (.ok bytes, idx)
  | fuel + 1, pos, bytes, idx =>
      if pos < seg.currentSize then
        match seg.readBatchMetaAt pos with
        | .error e => (.error (.segment e), idx)
        | .ok (firstOffset, _, onDiskSize) =>
          if onDiskSize = 0 then (.error (.segment (.invalidSize onDiskSize pos)), idx)
          else if seg.currentSize < pos + onDiskSize then
            (.error (.segment (.pastEnd pos seg.currentSize)), idx)
          else
            let bytes := bytes + onDiskSize
            if pos = 0 ∨ interval.toInt ≤ bytes then
              match idx.write firstOffset pos with
              | (.error e, idx) => (.error (.index pos e), idx)
              | (.ok (), idx) => rebuildLoop seg interval fuel (pos + onDiskSize) 0 idx
            else rebuildLoop seg interval fuel (pos + onDiskSize) bytes idx
      else (.ok bytes, idx)

def rebuildIndexFromSegment (seg : Segment) (idx : Index) (interval : Int64) :
    Except RebuildError Nat × Index :=
  rebuildLoop seg interval (seg.currentSize + 1) 0 0 idx.reset

end MessageBroker.Storage
