import Superseedr.Model.Update
import Superseedr.Model.Validation

/-! # Effects carried out by a torrent manager

The manager carries out the effects of its torrent. An effect to start validation, and the start of the
manager itself, spawn a task with copies of the metadata, the file layout and the persisted flag as they
are at that moment. The task works on the disk as it finds it and sends its progress and its result back,
in this order, where they wait to be received among all other events. An effect to read a block for a peer
is turned into a range of the payload, which is sent if it can be read as a whole. The answer of a tracker
is handed to the torrent with its signed numbers taken as unsigned ones.
-/

namespace Superseedr

/-- What a spawned validation works on. -/
structure ValidationTask where
  torrent : Torrent
  layout : MultiFileInfo
  skipHashing : Bool

/-- The commands a validation sends, in order. -/
def ValidationRun.messages (run : ValidationRun) : List Action :=
  run.progress.map .validationProgress ++ (run.outcome.map fun completed => [.validationComplete completed]).getD []

/-- A torrent with the validations that are running and the messages that are not received yet. -/
structure Manager where
  state : TorrentState
  tasks : List ValidationTask
  inbox : List (List Action)

namespace Manager

/-- The validation that can be spawned, if metadata and layout are known. -/
def spawn (s : TorrentState) : List ValidationTask :=
  match s.torrent, s.multiFileInfo with
  | some torrent, some layout => [⟨torrent, layout, s.torrentValidationStatus⟩]
  | _, _ => []

/-- Carry out the effects of an update as far as they start validations. -/
def handleEffects (m : Manager) (t : TorrentState) (effects : List Effect) : Manager :=
  { m with
    state := t
    tasks := m.tasks ++ effects.flatMap fun effect => if effect = .startValidation then spawn t else [] }

def applyAction (m : Manager) (host : Host) (a : Action) : Option Manager :=
  (update host m.state a).map fun (t, effects) => m.handleEffects t effects

/-- What happens to a manager: an action is handled or the rarity timer fires, the manager starts, a validation runs,
or the next message of a validation is received. -/
inductive Occurrence where
  | action (host : Host) (a : Action)
  | recountRarity
  | validateLocalFile
  | validate (i : ℕ) (order : Arrangement) (disk : Disk)
  | receive (host : Host) (i : ℕ)

/-- What an occurrence leads to, if it is possible. -/
def occur (sha1 : Bytes → Bytes) (sha : Sha256) (m : Manager) : Occurrence → Option Manager
  | .action host a => m.applyAction host a
  | .recountRarity => some { m with state := updateRarity m.state }
  | .validateLocalFile => some { m with tasks := m.tasks ++ spawn m.state }
  | .validate i order disk =>
    m.tasks[i]?.map fun task =>
      let run := performValidation sha1 sha order disk task.layout task.torrent task.skipHashing
      { m with
        tasks := m.tasks.eraseIdx i
        inbox := m.inbox ++ [run.messages] }
  | .receive host i =>
    match m.inbox[i]? with
    | some (message :: rest) => { m with inbox := m.inbox.set i rest }.applyAction host message
    | _ => none

end Manager

/-- The decoded answer of a tracker, as far as the manager reads it. -/
structure TrackerResponse where
  interval : Int64
  minInterval : Option Int64
  peers : List SocketAddr

/-- What the manager makes of `TorrentCommand::AnnounceResponse`. -/
def TrackerResponse.announceResponse (response : TrackerResponse) (url : String) : Action :=
  .trackerResponse url response.peers (asU64 response.interval.toInt)
    (response.minInterval.map fun i => asU64 i.toInt)

/-- The first byte of a requested block in the payload. -/
def BlockInfo.globalOffset (info : BlockInfo) (torrent : Torrent) : ℕ :=
  u64 (u64 (info.pieceIndex * torrent.pieceLen) + info.offset)

def TorrentState.readBlock (s : TorrentState) (disk : Disk) (peerId : PeerId) (info : BlockInfo) : Option Bytes := do
  let _ ← s.peers.lookup peerId
  let layout ← s.multiFileInfo
  let torrent ← s.torrent
  readDataFromDisk disk layout (info.globalOffset torrent) info.length

end Superseedr
