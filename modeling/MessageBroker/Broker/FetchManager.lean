import MessageBroker.Broker.FetchWorker
import MessageBroker.Controller.Metadata

/-!
# The fetch manager

A broker has one worker for every leader it follows. `Reassign` starts and stops workers
until they agree with what the controller lists, and `Stop` takes them all away. Each
section under the manager's mutex is a step. The file accounts for every worker that was
started: it is in the map, in the hands of `Stop`, or was stopped once. To stop it again
would close a closed channel. It then says which workers a reassignment leaves.
-/
namespace MessageBroker.Broker

open Std Lib
open Controller (PartitionMetadata BrokerEndpoint BrokerInfo securityProtocolPlaintext)

def plaintextEndpoint (endpoints : List BrokerEndpoint) : Option BrokerEndpoint :=
  endpoints.find? fun e =>
    e.name == "PLAINTEXT" && e.securityProtocol == securityProtocolPlaintext

/-- `net.JoinHostPort`, which puts a host with colons in brackets. -/
def joinHostPort (host : String) (port : UInt16) : String :=
  (if host.contains ':' then "[" ++ host ++ "]" else host) ++ ":" ++ toString port.toNat

/-- What `Reassign` reads: the listing for the broker, the brokers that the controller
knows, and the partition objects. -/
structure Assigned where
  assignments : List PartitionMetadata
  broker : Int32 → Option BrokerInfo
  getPartition : String → Int32 → Option Nat

namespace Assigned

/-- Where a leader is reached, if it is available. -/
def address (v : Assigned) (leaderID : Int32) : Option String :=
  match v.broker leaderID with
  | none => none
  | some info =>
      if info.fenced then none
      else (plaintextEndpoint info.endpoints).map fun ep => joinHostPort ep.host ep.port

/-- The leaders in `byLeader`, in one of the orders a map may have; the lemmas are about
any. -/
def leaders (v : Assigned) (brokerID : Int32) : List Int32 :=
  ((v.assignments.map (·.leaderBrokerId)).filter (· != brokerID)).dedup

/-- `resolvePartitions` for one leader. -/
def resolvePartitions (v : Assigned) (leaderID : Int32) : KeyMap AssignedPartition :=
  ExtTreeMap.ofList ((v.assignments.filter (·.leaderBrokerId == leaderID)).filterMap fun pm =>
    (v.getPartition pm.topic pm.partition).map fun p => (pm.key, ⟨p, pm.leaderEpoch⟩)) _

end Assigned

/-- A worker that was started; `id` is the object. -/
structure StartedWorker where
  id : Nat
  leaderID : Int32
  addr : String
  partitions : KeyMap AssignedPartition

/-- `taken` are the workers that `Stop` has still to stop; `created` and `stops` count the
objects and list those that were stopped. -/
structure FetchManager where
  workers : List StartedWorker
  started : Bool
  stopped : Bool
  taken : List StartedWorker
  created : Nat
  stops : List Nat

def newFetchManager : FetchManager := ⟨[], false, false, [], 0, []⟩

inductive WorkersEvent
  | reassign (v : Assigned)
  /-- the section of `Start` after its refresh -/
  | start
  /-- the section of `Stop` -/
  | stop
  /-- `Stop` stops the next of the workers it has taken -/
  | stopNext

namespace FetchManager

/-- Workers are stopped and deleted from the map. -/
def stopWorkers (fm : FetchManager) (needless : StartedWorker → Bool) : FetchManager :=
  { fm with
    workers := fm.workers.filter fun w => !needless w
    stops := fm.stops ++ (fm.workers.filter needless).map (·.id) }

/-- `setPartitions` on the worker of a leader. -/
def setPartitions (fm : FetchManager) (leaderID : Int32) (parts : KeyMap AssignedPartition) :
    FetchManager :=
  { fm with
    workers := fm.workers.map fun w =>
      { w with partitions := if w.leaderID = leaderID then parts else w.partitions } }

/-- `Reassign` for one leader of `byLeader`. -/
def serveLeader (v : Assigned) (fm : FetchManager) (leaderID : Int32) : FetchManager :=
  match v.address leaderID with
  | none => fm.stopWorkers fun w => w.leaderID == leaderID
  | some addr =>
    let fm := fm.stopWorkers fun w => w.leaderID == leaderID && w.addr != addr
    let fm := if fm.workers.any (·.leaderID == leaderID) then fm else { fm with
      workers := fm.workers ++ [⟨fm.created, leaderID, addr, ∅⟩]
      created := fm.created + 1 }
    fm.setPartitions leaderID (v.resolvePartitions leaderID)

/-- `Reassign`, which fails on a stopped manager. -/
def reassign (brokerID : Int32) (v : Assigned) (fm : FetchManager) : Bool × FetchManager :=
  if fm.stopped then (false, fm)
  else
    let needed := v.leaders brokerID
    (true, needed.foldl (serveLeader v) (fm.stopWorkers fun w => !needed.contains w.leaderID))

def step (brokerID : Int32) (fm : FetchManager) : WorkersEvent → Bool × FetchManager
  | .reassign v => fm.reassign brokerID v
  -- a second start leaves the flag as it is
  | .start =>
      if fm.stopped then (false, fm) else (true, { fm with started := true })
  | .stop =>
      if fm.stopped then (true, fm)
      else (true, { fm with stopped := true, workers := [], taken := fm.taken ++ fm.workers })
  | .stopNext =>
      match fm.taken with
      | [] => (true, fm)
      | w :: ws => (true, { fm with taken := ws, stops := fm.stops ++ [w.id] })

/-! ## Every worker is accounted for -/

/-- Every worker is in one place, and no two are for the same leader. -/
structure Accounted (fm : FetchManager) : Prop where
  once : ((fm.workers ++ fm.taken).map (·.id) ++ fm.stops).Perm (List.range fm.created)
  leaders : (fm.workers.map (·.leaderID)).Nodup

section Accounted

variable {fm : FetchManager} (h : fm.Accounted)

include h

theorem Accounted.stopWorkers (needless : StartedWorker → Bool) :
    (fm.stopWorkers needless).Accounted := by
  refine ⟨List.perm_iff_count.mpr fun a => ?_, h.leaders.sublist (List.filter_sublist.map _)⟩
  have hsplit := ((List.filter_append_perm needless fm.workers).map (·.id)).count_eq a
  have honce := h.once.count_eq a
  simp only [FetchManager.stopWorkers, List.map_append, List.count_append] at hsplit honce ⊢
  omega

theorem Accounted.setPartitions (leaderID : Int32) (parts : KeyMap AssignedPartition) :
    (fm.setPartitions leaderID parts).Accounted := by
  obtain ⟨honce, hleaders⟩ := h
  constructor
  · rw [List.map_append] at honce ⊢
    rw [FetchManager.setPartitions, List.map_map]
    exact honce
  · rw [FetchManager.setPartitions, List.map_map]
    exact hleaders

theorem Accounted.serveLeader (v : Assigned) (leaderID : Int32) :
    (fm.serveLeader v leaderID).Accounted := by
  unfold FetchManager.serveLeader
  split
  · exact h.stopWorkers _
  · rename_i addr _
    have hleft := h.stopWorkers fun w => w.leaderID == leaderID && w.addr != addr
    refine Accounted.setPartitions ?_ _ _
    split
    · exact hleft
    · rename_i hnone
      refine ⟨List.perm_iff_count.mpr fun a => ?_, ?_⟩
      · have honce := hleft.once.count_eq a
        simp only [List.map_append, List.count_append, List.range_succ, List.map_cons,
          List.map_nil] at honce ⊢
        omega
      · rw [List.map_append, List.nodup_append]
        refine ⟨hleft.leaders, List.nodup_singleton _, fun x hx y hy heq => hnone ?_⟩
        obtain ⟨w, hw, rfl⟩ := List.mem_map.mp hx
        rw [List.mem_singleton.mp hy] at heq
        exact List.any_eq_true.mpr ⟨w, hw, beq_iff_eq.mpr heq⟩

theorem Accounted.foldl (v : Assigned) (ls : List Int32) :
    (ls.foldl (FetchManager.serveLeader v) fm).Accounted := by
  induction ls generalizing fm with
  | nil => exact h
  | cons l ls ih => exact ih (h.serveLeader v l)

theorem Accounted.step (brokerID : Int32) (e : WorkersEvent) :
    (fm.step brokerID e).2.Accounted := by
  cases e with
  | reassign v =>
    simp only [FetchManager.step, FetchManager.reassign]
    split
    · exact h
    · exact (h.stopWorkers _).foldl v _
  | start =>
    simp only [FetchManager.step]
    split
    · exact h
    · exact ⟨h.once, h.leaders⟩
  | stop =>
    simp only [FetchManager.step]
    split
    · exact h
    · refine ⟨List.Perm.trans (List.Perm.append_right _ ?_) h.once, List.nodup_nil⟩
      show ((fm.taken ++ fm.workers).map _).Perm _
      exact List.perm_append_comm.map _
  | stopNext =>
    simp only [FetchManager.step]
    split
    · exact h
    · rename_i w ws htaken
      refine ⟨List.perm_iff_count.mpr fun a => ?_, h.leaders⟩
      have honce := h.once.count_eq a
      rw [htaken] at honce
      simp only [List.map_append, List.count_append, List.map_cons, List.count_cons,
        List.count_nil] at honce ⊢
      omega

end Accounted

theorem foldl_stopped (v : Assigned) (ls : List Int32) (fm : FetchManager) :
    (ls.foldl (serveLeader v) fm).stopped = fm.stopped := by
  induction ls generalizing fm with
  | nil => rfl
  | cons l ls ih =>
    refine (ih _).trans ?_
    unfold serveLeader
    split
    · rfl
    · simp only [setPartitions]
      split <;> rfl

theorem step_stopped {fm : FetchManager} (h : fm.stopped = true → fm.workers = [])
    (brokerID : Int32) (e : WorkersEvent) :
    (fm.step brokerID e).2.stopped = true → (fm.step brokerID e).2.workers = [] := by
  cases hs : fm.stopped with
  | true =>
    cases e with
    | stopNext => cases ht : fm.taken <;> simpa [step, ht, hs] using h hs
    | _ => simpa [step, reassign, hs] using h hs
  | false =>
    cases e with
    | reassign v => simp [step, reassign, hs, foldl_stopped, stopWorkers]
    | stopNext => cases ht : fm.taken <;> simp [step, ht, hs]
    | _ => simp [step, hs]

/-- However `Start`, `Stop` and the refreshes of any goroutines interleave, every worker
that was started is in the map, is waiting for `Stop` to stop it, or was stopped, once; no
leader has two; and a stopped manager has none. -/
theorem workers_accounted (brokerID : Int32) (run : List WorkersEvent) :
    let fm := Runs.final (step brokerID) newFetchManager run
    fm.Accounted ∧ (fm.stopped = true → fm.workers = []) :=
  Runs.invariant (step brokerID) (s := newFetchManager)
    (P := fun fm => fm.Accounted ∧ (fm.stopped = true → fm.workers = []))
    (fun _ e h => ⟨h.1.step brokerID e, step_stopped h.2 brokerID e⟩)
    ⟨⟨.refl _, List.nodup_nil⟩, fun _ => rfl⟩ run

/-! ## What a reassignment leaves -/

/-- A worker fetches these partitions from the leader at the address. -/
def Fetches (fm : FetchManager) (leaderID : Int32) (addr : String)
    (parts : KeyMap AssignedPartition) : Prop :=
  ∃ w ∈ fm.workers, w.leaderID = leaderID ∧ w.addr = addr ∧ w.partitions = parts

section Fetches

variable {v : Assigned} {l : Int32} {addr : String} {parts : KeyMap AssignedPartition}

theorem serveLeader_fetches {fm : FetchManager} {leaderID : Int32} :
    (fm.serveLeader v leaderID).Fetches l addr parts ↔
      if l = leaderID then v.address l = some addr ∧ parts = v.resolvePartitions l
      else fm.Fetches l addr parts := by
  unfold serveLeader Fetches
  cases ha : v.address leaderID with
  | none =>
    simp only [stopWorkers, List.mem_filter]
    grind
  | some a =>
    simp only [setPartitions, List.mem_map, exists_exists_and_eq_and]
    by_cases hany : (fm.stopWorkers fun w => w.leaderID == leaderID && w.addr != a).workers.any
        (·.leaderID == leaderID)
    · rw [if_pos hany]
      simp only [stopWorkers, List.mem_filter] at hany ⊢
      grind
    · rw [if_neg hany]
      simp only [stopWorkers, List.mem_filter, List.mem_append, List.mem_singleton, or_and_right,
        exists_or, exists_eq_left] at hany ⊢
      grind

theorem foldl_fetches (ls : List Int32) (fm : FetchManager) :
    (ls.foldl (serveLeader v) fm).Fetches l addr parts ↔
      if l ∈ ls then v.address l = some addr ∧ parts = v.resolvePartitions l
      else fm.Fetches l addr parts := by
  induction ls generalizing fm with
  | nil => simp
  | cons x ls ih =>
    rw [List.foldl_cons, ih, serveLeader_fetches]
    grind

/-- Whatever workers there were, those after `Reassign` are one for each listed leader that
is available, at its address, with the partitions that have an object. -/
theorem reassign_exact {fm : FetchManager} (h : fm.stopped = false) (brokerID : Int32)
    (v : Assigned) (l : Int32) (addr : String) (parts : KeyMap AssignedPartition) :
    (fm.reassign brokerID v).2.Fetches l addr parts ↔
      l ∈ v.leaders brokerID ∧ v.address l = some addr ∧ parts = v.resolvePartitions l := by
  rw [reassign, if_neg (by rw [h]; decide)]
  simp only [foldl_fetches]
  split
  · rename_i hl
    exact (and_iff_right hl).symm
  · rename_i hl
    refine ⟨?_, fun h => absurd h.1 hl⟩
    rintro ⟨w, hw, rfl, -⟩
    have hneeded := (List.mem_filter.mp hw).2
    rw [Bool.not_not, List.contains_iff_mem] at hneeded
    exact absurd hneeded hl

/-- A broker that is listed as a follower of another. -/
theorem reassign_exact_follower :
    let v : Assigned := ⟨[⟨"t", 0, 2, 5, 1, [1, 2], [2]⟩],
      fun _ => some ⟨2, "i", 1, [⟨"PLAINTEXT", "b", 9092, 0⟩], false⟩, fun _ _ => some 0⟩
    (newFetchManager.reassign 1 v).2.Fetches 2 (joinHostPort "b" 9092) (v.resolvePartitions 2) :=
  (reassign_exact rfl 1 _ 2 _ _).mpr ⟨by decide, rfl, rfl⟩

end Fetches

end FetchManager

end MessageBroker.Broker
