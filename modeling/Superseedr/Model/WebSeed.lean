import Superseedr.Model.Peer

/-! # The worker of a web seed

The worker fetches the blocks of a batch over HTTP, one request after the other. It ends when a request fails, when the
status is no success, when the body breaks off, and when it is told to shut down or the manager is gone.
-/

namespace Superseedr

/-- What comes of a request. When an answer has come to its end, the manager may listen or be gone. -/
inductive HttpResponse where
  | failed
  | answered (status : ℕ) (chunks : List Bytes) (broken listening : Bool)
  | shutdown

/-- What the worker does then. -/
inductive WebSeedReply where
  | block (data : Bytes)
  | nothing
  | disconnect
  | stop
deriving DecidableEq, Repr

def WebSeedReply.ends : WebSeedReply → Bool
  | .block _ | .nothing => false
  | .disconnect | .stop => true

namespace WebSeed

/-- The bounds in the header of the request. -/
def range (pieceLength : ℕ) : BlockRequest → ℕ × ℕ
  | (index, begin, length) =>
    let start := u64 (index * pieceLength + begin)
    (start, u64 (start + length + (2 ^ 64 - 1)))

def fetch : HttpResponse → WebSeedReply
  | .failed => .disconnect
  | .shutdown => .stop
  | .answered status chunks broken listening =>
    if 200 ≤ status ∧ status < 300 ∧ !broken then
      let buffer := chunks.flatten
      if buffer.isEmpty then .nothing else if listening then .block buffer else .stop
    else .disconnect

/-- A batch, up to the request at which the worker ends. The server answers requests as it likes. -/
def bulkRequest (pieceLength : ℕ) (server : ℕ → ℕ × ℕ → HttpResponse) :
    ℕ → List BlockRequest → List (BlockRequest × WebSeedReply)
  | _, [] => []
  | n, request :: rest =>
    let reply := fetch (server n (range pieceLength request))
    (request, reply) :: if reply.ends then [] else bulkRequest pieceLength server (n + 1) rest

end WebSeed

end Superseedr
