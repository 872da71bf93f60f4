import Superseedr.Model.Basic

/-! # Persistence of the peer policy

The service numbers the revisions of its policy and hands the latest to a writer, through a channel that keeps one
value. The writer saves one policy after another and answers every request. The policy is of any type: the reducer says
when it has changed.
-/

namespace Superseedr

variable {Policy : Type*}

structure PolicyPersistenceRequest (Policy : Type*) where
  revision : ℕ
  policy : Policy

structure PolicyPersistenceResult where
  revision : ℕ
  succeeded : Bool

/-- The sender is there or not. -/
structure PolicyPersistenceState where
  tx : Bool
  dirty : Bool
  revision : ℕ
  queuedRevision : Option ℕ := none

namespace PolicyPersistenceState

variable (p : PolicyPersistenceState)

def markDirty : PolicyPersistenceState := { p with revision := satAdd64 p.revision 1, dirty := true }

def applyResult (result : PolicyPersistenceResult) : PolicyPersistenceState :=
  if result.revision ≠ p.revision then p else { p with queuedRevision := none, dirty := !result.succeeded }

end PolicyPersistenceState

structure PolicyService (Policy : Type*) where
  policy : Policy
  persistence : PolicyPersistenceState
  request : Option (PolicyPersistenceRequest Policy) := none
  writing : Option (PolicyPersistenceRequest Policy) := none
  results : List PolicyPersistenceResult := []
  closed : Bool := false
  saved : Option Policy := none

namespace PolicyService

/-- A service that has loaded its policy, which may have to be saved again. -/
def new (policy : Policy) (tx dirty : Bool) : PolicyService Policy where
  policy
  persistence := { tx, dirty, revision := dirty.toNat }

variable (s : PolicyService Policy)

def queueIfDirty : PolicyService Policy :=
  if !s.persistence.dirty || s.persistence.queuedRevision = some s.persistence.revision || !s.persistence.tx then s
  else
    let s := { s with request := some ⟨s.persistence.revision, s.policy⟩ }
    if s.closed then s
    else { s with persistence := { s.persistence with queuedRevision := some s.persistence.revision } }

/-- The policy changes, a request is queued, a result is received; the writer takes a request, has written it or failed
to, or ends. -/
inductive Event (Policy : Type*) where
  | change (policy : Policy)
  | queue
  | receive
  | take
  | finish (succeeded : Bool)
  | close

def next : Event Policy → Option (PolicyService Policy)
  | .change policy => some { s with policy, persistence := s.persistence.markDirty }
  | .queue => some s.queueIfDirty
  | .receive =>
    match s.results with
    | result :: results => some { s with results, persistence := s.persistence.applyResult result }
    | [] => if s.closed then some { s with persistence := { s.persistence with tx := false } } else none
  | .take =>
    if s.closed || s.writing.isSome then none
    else s.request.map fun request => { s with request := none, writing := some request }
  | .finish succeeded =>
    s.writing.map fun request => { s with
      writing := none
      results := if s.closed then s.results else s.results ++ [⟨request.revision, succeeded⟩]
      saved := if succeeded then some request.policy else s.saved }
  | .close => some { s with closed := true }

end PolicyService

end Superseedr
