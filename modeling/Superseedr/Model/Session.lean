import Mathlib.Data.Finset.Card
import Superseedr.Model.Protocol
import Superseedr.Model.HashExchange

/-! # A peer session

The session stands between the wire and the manager. It turns the messages of its peer into commands for the
manager, and carries out what the manager commands. Requests are sent by tasks of their own, each of which
waits for a permit; the number of permits is the window of the session, which grows and shrinks with the speed
of the peer. A block is tracked from the moment its request is sent until it arrives, is cancelled, or the peer
chokes. Metadata, peer exchange, the flood gate and the timers that end a session are left out; how the speed
compares with the last second is left to the world.
-/

namespace Superseedr

/-- The commands by which a session tells the manager of the messages of its peer. -/
inductive SessionCommand where
  | choke
  | unchoke
  | peerInterested
  | havePiece (index : ℕ)
  | peerBitfield (bitfield : Bytes)
  | requestUpload (index begin length : ℕ)
  | cancelUpload (index begin length : ℕ)
  | block (index begin : ℕ) (data : Bytes)
  | getHashes (fileRoot : Bytes) (baseLayer index length proofLayers : ℕ)
  | merkleHashData (root : Bytes) (pieceIndex baseLayer : ℕ) (proof : Bytes)
deriving DecidableEq, Repr

def Message.command (expected : Bool) : Message → Option SessionCommand
  | .piece index begin data => if expected then some (.block index.toNat begin.toNat data) else none
  | .choke => some .choke
  | .unchoke => some .unchoke
  | .interested => some .peerInterested
  | .notInterested => none
  | .havePiece index => some (.havePiece index.toNat)
  | .bitfield bits => some (.peerBitfield bits)
  | .request index begin length => some (.requestUpload index.toNat begin.toNat length.toNat)
  | .cancel index begin length => some (.cancelUpload index.toNat begin.toNat length.toNat)
  | .hashRequest root base offset length proofLayers =>
    some (.getHashes root base.toNat offset.toNat length.toNat proofLayers.toNat)
  | .hashPiece root base offset proof => some (.merkleHashData root offset.toNat base.toNat proof)
  | .extended _ _ | .keepAlive | .port _ | .handshake _ _ | .extendedHandshake _ | .hashReject _ _ _ _ _ => none

def SessionCommand.actions (s : TorrentState) (peerId : PeerId) : SessionCommand → Option (List Action)
  | .choke => some [.peerChoked peerId]
  | .unchoke => some [.peerUnchoked peerId]
  | .peerInterested => some [.peerInterested peerId]
  | .havePiece index => some [.peerHavePiece peerId index]
  | .peerBitfield bits => some [.peerBitfieldReceived peerId bits]
  | .requestUpload index begin length => some [.requestUpload peerId index begin length]
  | .cancelUpload index begin length => some [.cancelUpload peerId index begin length]
  | .block index begin data => some [.incomingBlock peerId index begin data]
  | .getHashes _ _ _ _ _ => some []
  | .merkleHashData root pieceIndex _ proof => s.merkleHashData peerId root pieceIndex proof

/-- The block a piece message answers. -/
def blockOf (index begin : ℕ) (data : Bytes) : BlockRequest := (index, begin, u32 data.length)

/-- Where a task stands that was spawned for a `BulkRequest`. -/
inductive RequestTask where
  /-- It waits for a permit for the first of its requests. -/
  | waiting (requests : List BlockRequest)
  /-- It has a permit. -/
  | granted (request : BlockRequest) (rest : List BlockRequest)
  /-- It has put its request into the tracker and waits for the writer. -/
  | sending (request : BlockRequest) (rest : List BlockRequest)
  /-- The writer is gone. -/
  | failed (request : BlockRequest)
  | finished
deriving DecidableEq, Repr

/-- What can happen to a task. -/
inductive Progress where
  | acquire
  /-- Ten seconds pass without a permit, or the client shuts down. -/
  | expire
  | track
  | sent
  | fail
  | untrack
deriving DecidableEq, Repr

/-- How the blocks of the last second compare with those of the second before. -/
inductive SpeedChange where
  | faster
  | similar
  | slower
deriving DecidableEq, Repr

structure PeerSession where
  availablePermits : ℕ
  blockTracker : Finset BlockRequest
  requestTasks : List RequestTask
  /-- The tasks that were spawned for a `BulkCancel`. -/
  cancelTasks : List (List BlockRequest)
  currentWindowSize : ℕ
  pendingWindowShrink : ℕ
deriving DecidableEq

namespace PeerSession

variable (session : PeerSession)

def peerBlockInFlightLimit : ℕ := 8
def maxWindow : ℕ := maxPipelineDepth

def new : PeerSession := ⟨peerBlockInFlightLimit, ∅, [], [], peerBlockInFlightLimit, 0⟩

/-- The part of `process_manager_command` that concerns requests. -/
def processManagerCommand : TorrentCommand → PeerSession
  | .bulkRequest requests => { session with requestTasks := session.requestTasks ++ [.waiting requests] }
  | .bulkCancel cancels => { session with cancelTasks := session.cancelTasks ++ [cancels] }
  | .peerChoke | .peerUnchoke | .clientInterested | .notInterested => session

/-- One step of a task with what it does to the session, if it is at the place for it. -/
def advance : RequestTask → Progress → Option (PeerSession × RequestTask)
  | .waiting (request :: rest), .acquire =>
    if session.availablePermits = 0 then none
    else some ({ session with availablePermits := session.availablePermits - 1 }, .granted request rest)
  | .waiting (_ :: rest), .expire => some (session, .waiting rest)
  | .granted request rest, .track =>
    some ({ session with blockTracker := insert request session.blockTracker }, .sending request rest)
  | .sending _ rest, .sent => some (session, .waiting rest)
  | .sending request _, .fail => some (session, .failed request)
  | .failed request, .untrack =>
    some
      ({ session with
          blockTracker := session.blockTracker.erase request
          availablePermits := session.availablePermits + 1 },
        .finished)
  | _, _ => none

/-- A task goes on. -/
def advanceTask (i : ℕ) (progress : Progress) : Option PeerSession :=
  session.requestTasks[i]?.bind fun task =>
    (session.advance task progress).map fun (session, task) =>
      { session with requestTasks := session.requestTasks.set i task }

/-- A cancel task runs: what was tracked gives back its permit. -/
def runCancel (cancels : List BlockRequest) : PeerSession :=
  let removed := cancels.toFinset ∩ session.blockTracker
  { session with
    blockTracker := session.blockTracker \ removed
    availablePermits := session.availablePermits + removed.card }

/-- A block arrives that was expected; a pending shrink swallows its permit. -/
def takeBlock (block : BlockRequest) : PeerSession :=
  let session := { session with blockTracker := session.blockTracker.erase block }
  if session.pendingWindowShrink > 0 then { session with pendingWindowShrink := session.pendingWindowShrink - 1 }
  else { session with availablePermits := session.availablePermits + 1 }

/-- The peer chokes us. -/
def reset : PeerSession :=
  { session with
    blockTracker := ∅
    pendingWindowShrink := 0
    currentWindowSize := peerBlockInFlightLimit
    availablePermits := max session.availablePermits peerBlockInFlightLimit }

def receive (message : Message) : PeerSession × Option SessionCommand :=
  match message with
  | .piece index begin data =>
    let block := blockOf index.toNat begin.toNat data
    let expected := decide (block ∈ session.blockTracker)
    (if expected then session.takeBlock block else session, message.command expected)
  | .choke => (session.reset, message.command false)
  | _ => (session, message.command false)

def shrinkWindow : PeerSession :=
  if session.currentWindowSize > peerBlockInFlightLimit then
    let session := { session with currentWindowSize := session.currentWindowSize - 1 }
    if session.availablePermits = 0 then { session with pendingWindowShrink := session.pendingWindowShrink + 1 }
    else { session with availablePermits := session.availablePermits - 1 }
  else session

def adjustWindowSize (change : SpeedChange) : PeerSession :=
  if session.availablePermits ≤ 2 then
    match change with
    | .faster =>
      if session.currentWindowSize < maxWindow then
        { session with
          currentWindowSize := session.currentWindowSize + 1
          availablePermits := session.availablePermits + 1 }
      else session
    | .slower => session.shrinkWindow
    | .similar => session
  else if session.availablePermits > session.currentWindowSize / 2 then session.shrinkWindow
  else session

/-- What happens in a session. -/
inductive Event where
  | command (command : TorrentCommand)
  | message (message : Message)
  | task (i : ℕ) (progress : Progress)
  | cancel (i : ℕ)
  | adjust (change : SpeedChange)

/-- What an event leads to, with what the manager is told, if it is possible. -/
def next : Event → Option (PeerSession × Option SessionCommand)
  | .command command => some (session.processManagerCommand command, none)
  | .message message => some (session.receive message)
  | .task i progress => (session.advanceTask i progress).map fun session => (session, none)
  | .cancel i => session.cancelTasks[i]?.map fun cancels =>
    ({ session.runCancel cancels with cancelTasks := session.cancelTasks.eraseIdx i }, none)
  | .adjust change => some (session.adjustWindowSize change, none)

end PeerSession

end Superseedr
