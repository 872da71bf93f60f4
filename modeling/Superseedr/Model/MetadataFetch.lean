import Superseedr.Model.Torrent

/-! # Metadata of a peer

A session without metadata asks its peer for one piece of the metadata after the other and takes the end of
every `ut_metadata` message as the piece it waits for. The parser is a parameter.
-/

namespace Superseedr

/-- What is sent to the peer or to the manager. -/
inductive MetadataOutput where
  | request (piece : ℕ)
  | metadataTorrent (torrent : Torrent) (length : Int64)

/-- The size is that of the peer's handshake, if there was one that tells it. -/
structure MetadataFetch where
  peerSessionEstablished : Bool := false
  metadataSize : Option Int64
  peerTorrentMetadataPieces : Bytes := []
  peerTorrentMetadataPieceCount : ℕ := 0

namespace MetadataFetch

/-- How many bytes the next message is expected to end with. -/
def expectedDataLen (s : MetadataFetch) (size : Int64) : ℕ :=
  min 16384 (asU64 size.toInt - s.peerTorrentMetadataPieceCount * 16384)

/-- A message with the identifier of `ut_metadata`. -/
def handleExtendedMessage (fromInfoBytes : Bytes → Option Torrent) (s : MetadataFetch) (payload : Bytes) :
    MetadataFetch × List MetadataOutput :=
  match s.metadataSize with
  | some size =>
    if s.peerSessionEstablished = false ∧ s.expectedDataLen size ≤ payload.length then
      let pieces := s.peerTorrentMetadataPieces ++ payload.drop (payload.length - s.expectedDataLen size)
      if asU64 size.toInt = pieces.length then
        ({ s with peerTorrentMetadataPieces := pieces }, (fromInfoBytes pieces).toList.map (.metadataTorrent · size))
      else
        ({ s with
            peerTorrentMetadataPieces := pieces
            peerTorrentMetadataPieceCount := s.peerTorrentMetadataPieceCount + 1 },
          [.request (s.peerTorrentMetadataPieceCount + 1)])
    else (s, [])
  | none => (s, [])

end MetadataFetch

end Superseedr
