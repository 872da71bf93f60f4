import Mathlib.Data.Finset.Lattice.Lemmas
import Mathlib.Logic.Function.Basic

/-! # The resource manager

Clients ask the manager for permits and wait in a queue while all are in use. A guard that is dropped tells the manager
through its control queue, by which limits are changed as well and the manager reminds itself to go on with a queue. A
guard that cannot be handed over is dropped at once.
-/

namespace Superseedr

def permitGrantBatchSize : ℕ := 64

inductive ResourceType where
  | reserve
  | peerConnection
  | diskRead
  | diskWrite
deriving DecidableEq, Repr

structure ResourceLimitUpdate where
  limit : ℕ
  maxQueueSize : Option ℕ

/-- The commands that name one resource. -/
inductive Notice where
  | release
  | processQueue
deriving DecidableEq, Repr

inductive ControlCommand where
  | notice (resource : ResourceType) (notice : Notice)
  | updateLimits (limits : List (ResourceType × ResourceLimitUpdate))

/-- The waiters are numbered. With the state stand how many of its guards are alive and its largest limit so far. -/
structure ResourceState where
  limit : ℕ
  inUse : ℕ := 0
  maxQueueSize : ℕ
  waitQueue : List ℕ := []
  live : ℕ := 0
  largest : ℕ := limit

namespace ResourceState

variable (state : ResourceState) (closed gone : Finset ℕ)

/-- A permit is taken and its guard is sent. -/
def grant (received : Bool) : ResourceState × List Notice :=
  ({ state with inUse := state.inUse + 1, live := state.live + received.toNat }, if received then [] else [.release])

def handleAcquire (waiter : ℕ) : ResourceState × List Notice :=
  if state.inUse < state.limit then state.grant (waiter ∉ closed)
  else if state.waitQueue.length < state.maxQueueSize then
    ({ state with waitQueue := state.waitQueue ++ [waiter] }, [])
  else (state, [])

def handleRelease : ResourceState × List Notice := ({ state with inUse := state.inUse - 1 }, [.processQueue])

def trimWaitQueue : ResourceState := { state with waitQueue := state.waitQueue.take state.maxQueueSize }

/-- One round of `handle_update_limits`. -/
def updateLimit (update : ResourceLimitUpdate) : ResourceState × List Notice :=
  let state := { state with limit := update.limit, largest := max state.largest update.limit }
  (match update.maxQueueSize with
    | some maxQueueSize => { state with maxQueueSize }.trimWaitQueue
    | none => state, [.processQueue])

/-- The waiters in `gone` give up between the check and the moment they are sent the guard. -/
def grantRounds : ℕ → ResourceState → ResourceState × List Notice
  | 0, state => (state, if state.inUse < state.limit ∧ state.waitQueue ≠ [] then [.processQueue] else [])
  | rounds + 1, state =>
    if state.limit ≤ state.inUse then (state, [])
    else match state.waitQueue with
      | [] => (state, [])
      | nextInLine :: waitQueue =>
        if nextInLine ∈ closed then grantRounds rounds { state with waitQueue }
        else
          let (state, dropped) := { state with waitQueue }.grant (nextInLine ∉ gone)
          let (state, sent) := grantRounds rounds
            { state with inUse := if nextInLine ∈ gone then state.inUse - 1 else state.inUse }
          (state, dropped ++ sent)

def handleProcessQueue : ResourceState × List Notice := grantRounds closed gone permitGrantBatchSize state

def handle : Notice → ResourceState × List Notice
  | .release => state.handleRelease
  | .processQueue => state.handleProcessQueue closed gone

/-- A client drops a guard. -/
def drop : ResourceState × List Notice := ({ state with live := state.live - 1 }, [.release])

end ResourceState

/-- The manager and the waiters that have given up. -/
structure ResourceManager where
  resources : ResourceType → Option ResourceState
  control : List ControlCommand := []
  closed : Finset ℕ := ∅

namespace ResourceManager

def new (limits : ResourceType → Option (ℕ × ℕ)) : ResourceManager where
  resources resource := (limits resource).map fun (limit, maxQueueSize) => { limit, maxQueueSize }

variable (m : ResourceManager) (resource : ResourceType)

/-- The notices about a resource that wait in the control queue. -/
def pending : List Notice :=
  m.control.filterMap fun
    | .notice other notice => if other = resource then some notice else none
    | .updateLimits _ => none

def act (handler : ResourceState → ResourceState × List Notice) : Option ResourceManager :=
  (m.resources resource).map fun state => { m with
    resources := Function.update m.resources resource (some (handler state).1)
    control := m.control ++ (handler state).2.map (.notice resource) }

def handleUpdateLimits (limits : List (ResourceType × ResourceLimitUpdate)) : ResourceManager :=
  limits.foldl (fun m entry => (m.act entry.1 (·.updateLimit entry.2)).getD m) m

/-- The manager takes a request or a command, or a client gives up, drops a guard or changes limits. -/
inductive Event where
  | acquire (resource : ResourceType) (waiter : ℕ)
  | control (gone : Finset ℕ)
  | cancel (waiter : ℕ)
  | drop (resource : ResourceType)
  | updateLimits (limits : List (ResourceType × ResourceLimitUpdate))

def next : Event → Option ResourceManager
  | .acquire resource waiter => if resource = .reserve then none else m.act resource (·.handleAcquire m.closed waiter)
  | .control gone =>
    match m.control with
    | [] => none
    | .notice resource notice :: control =>
      { m with control, closed := m.closed ∪ gone }.act resource (·.handle m.closed gone notice)
    | .updateLimits limits :: control => some ({ m with control }.handleUpdateLimits limits)
  | .cancel waiter => some { m with closed := insert waiter m.closed }
  | .drop resource => if (m.resources resource).any (0 < ·.live) then m.act resource (·.drop) else none
  | .updateLimits limits => some { m with control := m.control ++ [.updateLimits limits] }

end ResourceManager

end Superseedr
