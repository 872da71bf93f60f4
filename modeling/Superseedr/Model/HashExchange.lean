import Superseedr.Model.Update

/-! # Asking a peer for the hash of a piece

The client that lacks a hash sends a request; the other client looks the hash up and sends it back or
rejects the request; the first client attributes the answer to the pieces of all files with the root of the
answer. The session that carries the messages hands their fields on unchanged, except that it cuts off a
leading count from hashes of an odd length.
-/

namespace Superseedr

/-- The messages about hashes that two clients exchange. -/
inductive HashMessage where
  | request (root : Bytes) (base index length proofLayers : ℕ)
  | piece (root : Bytes) (base index : ℕ) (proof : Bytes)
  | reject (root : Bytes) (base index length proofLayers : ℕ)

namespace TorrentState

variable (s : TorrentState) (peerId : PeerId)

/-- `Effect::RequestHashes`: the request goes to the peer if it is registered. -/
def sendHashRequest : Effect → List HashMessage
  | .requestHashes peerId fileRoot pieceIndex length proofLayers baseLayer =>
    if peerId ∈ s.peers then [.request fileRoot baseLayer pieceIndex length proofLayers] else []
  | _ => []

/-- The loop over the files of a piece: the first one with the root asked for and a known hash answers. -/
def serveHashes (torrent : Torrent) (registered : Bool) (fileRoot : Bytes) (baseLayer index length : ℕ) :
    List V2RootInfo → Option (Option HashMessage)
  | [] => some none
  | root :: rest =>
    if fileRoot ≠ [] ∧ root.rootHash ≠ fileRoot then
      serveHashes torrent registered fileRoot baseLayer index length rest
    else
      (torrent.getV2HashLayer index root.fileOffset root.length length root.rootHash).bind fun
        | some proof =>
          if registered then some (some (.piece root.rootHash baseLayer index proof))
          else serveHashes torrent registered fileRoot baseLayer index length rest
        | none => serveHashes torrent registered fileRoot baseLayer index length rest

/-- `TorrentCommand::GetHashes`. -/
def getHashes (fileRoot : Bytes) (baseLayer index length : ℕ) : Option (List HashMessage) :=
  let registered : Bool := peerId ∈ s.peers
  let served :=
    match s.torrent, s.pieceToRoots index with
    | some torrent, some roots => serveHashes torrent registered fileRoot baseLayer index length roots
    | _, _ => some none
  served.map fun
    | some answer => [answer]
    | none => if registered then [.reject fileRoot baseLayer index length 0] else []

/-- The hashes of an answer, without a count in front of them. -/
def trimProof (proof : Bytes) : Bytes :=
  if proof.length % 32 = 4 then proof.drop 4
  else if proof.length % 32 = 8 then proof.drop 8
  else proof

/-- The loop over all files: the pieces at an index in the files with a root, given where the next file starts. -/
def attributedPieces (pieceLen : ℕ) (root : Bytes) (pieceIndex : ℕ) : ℕ → List (Bytes × ℕ × Bytes) → List ℕ
  | _, [] => []
  | fileStart, (_, length, rootHash) :: rest =>
    (if rootHash = root then [u32 (u32 (fileStart / pieceLen) + pieceIndex)] else []) ++
      attributedPieces pieceLen root pieceIndex (u64 (fileStart + u64 (divCeil length pieceLen * pieceLen))) rest

/-- `TorrentCommand::MerkleHashData`: the actions that follow an answer; a file without piece length panics. -/
def merkleHashData (root : Bytes) (pieceIndex : ℕ) (proof : Bytes) : Option (List Action) :=
  match s.torrent with
  | none => some []
  | some torrent =>
    if torrent.pieceLen = 0 ∧ torrent.sortedV2Roots ≠ [] then none
    else some
      ((attributedPieces torrent.pieceLen root pieceIndex 0 torrent.sortedV2Roots).map fun p =>
        .merkleProofReceived peerId p proof)

/-- What a client does with a message of its peer. -/
def receiveHashes : HashMessage → Option (List Action)
  | .piece root _ index proof => s.merkleHashData peerId root index (trimProof proof)
  | .request _ _ _ _ _ | .reject _ _ _ _ _ => some []

def answerHashes : HashMessage → Option (List HashMessage)
  | .request root base index length _ => s.getHashes peerId root base index length
  | .piece _ _ _ _ | .reject _ _ _ _ _ => some []

end TorrentState

/-- The request for the hash of a piece, its answer by the other client, and the actions that follow; each client
knows the other under a name of its own. -/
def hashExchange (requester responder : TorrentState) (responderId requesterId : PeerId) (p : ℕ) :
    Option (List Action) := do
  let requests := (requester.hashRequest responderId p).flatMap requester.sendHashRequest
  let answers ← requests.mapM (responder.answerHashes requesterId)
  let actions ← answers.flatten.mapM (requester.receiveHashes responderId)
  some actions.flatten

end Superseedr
