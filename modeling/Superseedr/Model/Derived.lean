import Superseedr.Model.State

/-! # What the state derives from metadata and configuration

Piece sizes, the version 2 piece space, the file layout and the priority of each piece are computed
from the metadata and the user's configuration. Where the program divides by the piece length it
panics on zero, and the function here returns `none`.
-/

namespace Superseedr

/-- What is left of a file from the start of a piece on. -/
def remainingInFile (torrent : Torrent) (root : V2RootInfo) (pieceIndex : ℕ) : ℕ :=
  root.length - (u64 (pieceIndex * torrent.pieceLen) - root.fileOffset)

/-- The size of a piece as the metadata has it: cut off at the end of its file, or at the end of the
stream. -/
def pieceSizeOf (torrent : Torrent) (roots : ℕ → Option (List V2RootInfo)) (pieceIndex : ℕ) : ℕ :=
  match roots pieceIndex with
  | some (root :: _) => min torrent.pieceLen (remainingInFile torrent root pieceIndex)
  | _ => min torrent.pieceLen (torrent.streamLength - u64 (pieceIndex * torrent.pieceLen))

/-- The lengths of the short last pieces of files, by piece. -/
def tailOverrides (torrent : Torrent) : ℕ → Option ℕ :=
  if torrent.info.metaVersion = some 2 then
    (torrent.sortedV2Roots.foldl
      (fun (acc : (ℕ → Option ℕ) × ℕ) (file : Bytes × ℕ × Bytes) =>
        let (overrides, currentIdx) := acc
        let (_, length, _) := file
        if length > 0 ∧ torrent.pieceLen > 0 then
          let filePieces := divCeil length torrent.pieceLen
          let tailLen := u32 (length % torrent.pieceLen)
          let tailIdx := u32 (u64 (currentIdx + filePieces - 1))
          (if tailLen > 0 then Function.update overrides tailIdx (some tailLen) else overrides,
            u64 (currentIdx + filePieces))
        else acc)
      (fun _ => none, 0)).1
  else fun _ => none

def paintPiece (priority : FilePriority) (piece : EffectivePiecePriority) : EffectivePiecePriority :=
  match priority with
  | .high => .high
  | .normal | .mixed => if piece ≠ .high then .normal else piece
  | .skip => piece

def paintFile (pieceLen : ℕ) (filePriorities : ℕ → Option FilePriority) (acc : List EffectivePiecePriority × ℕ)
    (entry : ℤ × ℕ) : List EffectivePiecePriority × ℕ :=
  let (pieces, fileStart) := acc
  let (length, fileIdx) := entry
  let fileEnd := u64 (fileStart + asU64 length)
  let startPiece := fileStart / pieceLen
  let endPiece := (fileEnd - 1) / pieceLen
  let priority := (filePriorities fileIdx).getD .normal
  (pieces.mapIdx fun i piece =>
    if startPiece ≤ i ∧ i < endPiece + 1 then paintPiece priority piece else piece, fileEnd)

namespace TorrentState

variable (s : TorrentState)

def new (infoHash : Bytes) (trackers : AList fun _ : String => TrackerState) (torrentValidationStatus : Bool)
    (containerName : Option String) (now : ℕ) : TorrentState where
  infoHash := infoHash
  torrent := none
  torrentMetadataLength := none
  isPaused := false
  torrentStatus := .awaitingMetadata
  torrentValidationStatus := torrentValidationStatus
  lastActivity := .initializing
  hasMadeFirstConnection := false
  sessionTotalUploaded := 0
  sessionTotalDownloaded := 0
  bytesDownloadedInInterval := 0
  bytesUploadedInInterval := 0
  numberOfSuccessfullyConnectedPeers := 0
  peers := ∅
  book := .empty
  pieceManager := .new
  trackers := trackers
  timedOutPeers := fun _ => none
  lastKnownPeers := []
  knownSeeders := fun _ => none
  optimisticUnchokeTimer := some (if 31000 ≤ now then now - 31000 else now)
  validationPiecesFound := 0
  now := now
  hasStartedAnnounceSent := false
  v2Proofs := fun _ => none
  v2PendingData := ∅
  pieceToRoots := fun _ => none
  verifyingPieces := ∅
  writingPieces := ∅
  torrentDataPath := none
  containerName := containerName
  multiFileInfo := none
  filePriorities := ∅
  dataAvailable := true
  pendingDisconnects := []
  pendingFailures := []
  acceptingNewPeers := true
  peerPolicy := ⟨fun _ => none⟩

def canConnectToPeer (host : Host) (addr : SocketAddr) : Bool :=
  !s.peerPolicy.blocksIp addr.ip host.systemNow

def canRegisterPeer (host : Host) (peerId : PeerId) (peerAddr : Option SocketAddr) : Bool :=
  (peerId ∉ s.peers || peerId ∈ s.pendingDisconnects) && peerAddr.all (s.canConnectToPeer host)

def getPieceSize (pieceIndex : ℕ) : ℕ :=
  match s.torrent with
  | some torrent => pieceSizeOf torrent s.pieceToRoots pieceIndex
  | none => 0

/-- The number of bytes of a piece that count, its index inside its file, and the length that the
hash tree of the file or piece is padded to. -/
def calculateV2VerifyParams (pieceIndex dataLen : ℕ) : Option (ℕ × ℕ × ℕ) :=
  match s.pieceToRoots pieceIndex with
  | some (root :: _) =>
    let pieceLen := (s.torrent.map (·.pieceLen)).getD 0
    let offsetInFile := u64 (pieceIndex * pieceLen) - root.fileOffset
    if pieceLen = 0 then none
    else some
      (min dataLen (root.length - offsetInFile), u32 (offsetInFile / pieceLen),
        if root.length ≤ pieceLen then root.length else pieceLen)
  | _ => some (dataLen, 0, dataLen)

/-- Lay the files out again for the current path, container and priorities. -/
def rebuildMultiFileInfo : TorrentState :=
  match s.torrent, s.torrentDataPath with
  | some torrent, some path =>
    if path = "" then s
    else
      let uniqueName := torrent.info.name ++ " [" ++ hexEncode s.infoHash ++ "]"
      let containerName :=
        match s.containerName with
        | some name => some name
        | none => if torrent.info.files ≠ [] then some uniqueName else none
      let effectivePath :=
        match containerName with
        | some name => if name ≠ "" then pathPush path name else path
        | none => path
      { s with
        containerName
        multiFileInfo := some
          (.new effectivePath torrent.info.name torrent.info.files (asU64 torrent.info.length)
            s.filePriorities.lookup) }
  | _, _ => s

def calculatePiecePriorities : Option (List EffectivePiecePriority) :=
  match s.torrent with
  | none => some []
  | some torrent =>
    let numPieces := s.pieceManager.bitfield.length
    if numPieces = 0 then some []
    else if torrent.pieceLen = 0 then none
    else
      let lengths :=
        if torrent.info.files ≠ [] then torrent.info.files.map (·.length) else [torrent.info.length]
      some (lengths.zipIdx.foldl (paintFile torrent.pieceLen s.filePriorities.lookup)
        (List.replicate numPieces .skip, 0)).1

def peerAdmissionQualityThreshold : ℕ := 400

def refreshPeerAdmissionGuard : TorrentState :=
  let connected := s.numberOfSuccessfullyConnectedPeers
  { s with
    acceptingNewPeers :=
      if s.acceptingNewPeers then decide (connected < peerAdmissionQualityThreshold)
      else decide (connected ≤ peerAdmissionQualityThreshold * 50 / 100) }

end TorrentState

end Superseedr
