import Superseedr.Model.WebSeed

/-! # Blocks of a web seed

The worker does not compare the body with the range it asked for. A block is what was requested exactly if the server
sends as many bytes.
-/

namespace Superseedr

/-- The body, if the status is a success, the body comes to its end and nobody misses its block. -/
def HttpResponse.body : HttpResponse → Option Bytes
  | .answered status chunks broken listening =>
    if 200 ≤ status ∧ status < 300 ∧ !broken then
      if chunks.flatten.isEmpty || listening then some chunks.flatten else none
    else none
  | _ => none

namespace WebSeed

variable (pieceLength : ℕ) (server : ℕ → ℕ × ℕ → HttpResponse)

/-- The bodies that come to their end before the worker ends. -/
def bodies : ℕ → List BlockRequest → List (BlockRequest × Bytes)
  | _, [] => []
  | n, request :: rest =>
    match (server n (range pieceLength request)).body with
    | some body => (request, body) :: bodies (n + 1) rest
    | none => []

/-- The request is answered by its block, or the worker ends. -/
def Served (request : BlockRequest) (reply : WebSeedReply) : Prop :=
  reply.ends = true ∨ ∃ data, reply = .block data ∧ data.length = request.2.2

theorem served_fetch_iff (request : BlockRequest) (response : HttpResponse) :
    Served request (fetch response) ↔ ∀ body, response.body = some body → body.length = request.2.2 ∧ body ≠ [] := by
  cases response with
  | failed | shutdown => simp [Served, fetch, HttpResponse.body, WebSeedReply.ends]
  | answered status chunks broken listening =>
    simp only [fetch, HttpResponse.body]
    generalize chunks.flatten = buffer
    split_ifs <;> simp_all [Served, WebSeedReply.ends]

theorem ends_fetch (response : HttpResponse) : (fetch response).ends = true ↔ response.body = none := by
  cases response with
  | failed | shutdown => simp [fetch, HttpResponse.body, WebSeedReply.ends]
  | answered status chunks broken listening =>
    simp only [fetch, HttpResponse.body]
    generalize chunks.flatten = buffer
    split_ifs <;> simp_all [WebSeedReply.ends]

/-- Each request of a batch is answered by its block or ends the worker exactly if the bodies have the lengths that were
asked for, and some bytes. -/
theorem web_seed_blocks_iff (n : ℕ) (requests : List BlockRequest) :
    (∀ entry ∈ bulkRequest pieceLength server n requests, Served entry.1 entry.2) ∧
      ((bulkRequest pieceLength server n requests).map (·.1) = requests ∨
        ∃ entry ∈ bulkRequest pieceLength server n requests, entry.2.ends = true) ↔
    ∀ entry ∈ bodies pieceLength server n requests, entry.2.length = entry.1.2.2 ∧ entry.2 ≠ [] := by
  induction requests generalizing n with
  | nil => simp [bulkRequest, bodies]
  | cons request rest ih =>
    have served := served_fetch_iff request (server n (range pieceLength request))
    have ended := ends_fetch (server n (range pieceLength request))
    simp only [bulkRequest, bodies]
    cases found : (server n (range pieceLength request)).body with
    | none =>
      rw [if_pos (ended.mpr found)]
      simp_all
    | some body =>
      have going : (fetch (server n (range pieceLength request))).ends = false := by
        rw [← Bool.not_eq_true, ended, found]
        nofun
      have head : Served request (fetch (server n (range pieceLength request))) ↔
          body.length = request.2.2 ∧ body ≠ [] := by simpa [found] using served
      simp only [going, Bool.false_eq_true, if_false, List.forall_mem_cons, List.map_cons, List.exists_mem_cons_iff,
        List.cons.injEq, true_and, false_or, head, and_assoc, ih]

/-- The server ignores the range and has nothing to send. -/
theorem empty_body_unanswered :
    bulkRequest 4 (fun _ _ => .answered 200 [] false true) 0 [(0, 0, 4)] = [((0, 0, 4), .nothing)] ∧
      ¬Served (0, 0, 4) .nothing := by
  refine ⟨by decide +kernel, ?_⟩
  simp [Served, WebSeedReply.ends]

end WebSeed

end Superseedr
