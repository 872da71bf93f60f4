import Superseedr.ToMathlib.ExceptBind
import Superseedr.Soundness.FailedMove

/-! # No payload is lost

A move may stop at any moment, by a failure or by a crash. The settings on disk then name the old or the new
download path, and every payload file that was there at the start is there under the path they name. Until
the settings are saved, this is the staging's doing. Afterwards only sources of staged files are removed,
and no such source is a destination.
-/

namespace Superseedr

open ScriptWorld MoveContext List MoveWorld ControlHost Except

variable {torrentSettings : TorrentSettings} {infoHash : Bytes} {a : Arrangement} {downloadPath path : String}
  {plan : MovePayloadPlan} {staged : List (String × String)} {f : String × String} {op : FileOp}

/-! ## The paths on both sides -/

namespace ControlHost

end ControlHost

variable {index : ℕ}

section Paths

variable {host : ControlHost} {settings : Settings} {infoHashHex : String}

end Paths

/-! ## Saving and committing -/

namespace MoveContext

variable {L : Type} {ctx : MoveContext L} {w : MoveWorld L} {next : Settings}

def Kept (ctx : MoveContext L) (w : MoveWorld L) : Prop :=
  w.persisted = ctx.start.persisted ∧
    ∀ loc bytes, ctx.start.others loc = some bytes → w.store.content loc = some bytes

def Arrived (ctx : MoveContext L) (next : Settings) (w : MoveWorld L) : Prop :=
  w.persisted = next ∧
    ∀ f ∈ ctx.files, ∀ bytes, ctx.start.others (ctx.locate f.1) = some bytes →
      w.store.content (ctx.locate f.2) = some bytes

theorem Clean.kept_content (clean : ctx.Clean w) : ctx.Kept w := by
  refine ⟨clean.persisted, fun loc bytes started => ?_⟩
  have recorded := clean.kept loc bytes started
  cases own : w.own loc with
  | false => exact (clean.rest loc own).trans recorded
  | true => cases (clean.within loc own).2.1.symm.trans recorded

theorem Staging.arrived (staging : ctx.Staging staged [] none w)
    (complete : ∀ f ∈ ctx.files, ctx.Moved f → f ∈ staged) : ctx.Arrived next { w with persisted := next } := by
  refine ⟨rfl, fun f listed bytes started => ?_⟩
  have source := staging.kept_content.2 _ bytes started
  by_cases moves : ctx.Moves f
  · have moved := staging.toClean.moved listed moves (w.store.isSome_entry source)
    obtain ⟨-, known, sourceNow, destination⟩ := staging.copies f (complete f listed moved)
    rw [← Option.mem_unique sourceNow source]
    exact destination
  · rw [Moves, not_not] at moves
    rw [← moves]
    exact source

theorem Arrived.mono {after : MoveWorld L} (arrived : ctx.Arrived next w) (persisted : after.persisted = w.persisted)
    (content : ∀ f ∈ ctx.files, after.store.content (ctx.locate f.2) = w.store.content (ctx.locate f.2)) :
    ctx.Arrived next after :=
  ⟨persisted.trans arrived.1, fun f listed bytes started =>
    (content f listed).trans (arrived.2 f listed bytes started)⟩

variable [DecidableEq L]

theorem Arrived.removeFile (arrived : ctx.Arrived next w) (listed : f ∈ ctx.files) (moves : ctx.Moves f)
    (choice : FileChoice) : ctx.Arrived next (operate ctx.locate (.removeFile f.1) choice w).2 := by
  have apart : ∀ g ∈ ctx.files, ctx.locate g.2 ≠ ctx.locate f.1 :=
    fun g member same => moves (ctx.separated.sources g member f listed same).2
  simp only [MoveWorld.operate]
  cases w.store.entry (ctx.locate f.1) with
  | none => exact arrived
  | some node =>
    cases node with
    | directory => exact arrived
    | file inode =>
      split_ifs
      · exact arrived
      · refine arrived.mono rfl fun g member => ?_
        simp only [FileStore.content_remove]
        exact Function.update_of_ne (apart g member) _ _

theorem Arrived.removeDir (arrived : ctx.Arrived next w) (path : String) (choice : FileChoice) :
    ctx.Arrived next (operate ctx.locate (.removeDir path) choice w).2 := by
  simp only [MoveWorld.operate]
  cases entry : w.store.entry (ctx.locate path) with
  | none => exact arrived
  | some node =>
    cases node with
    | file inode => exact arrived
    | directory =>
      split_ifs
      · exact arrived
      · exact arrived.mono rfl fun g _ => congrFun (w.store.content_removeDir entry) _

variable {α : Type} {invariant : MoveWorld L → Prop} {post : α → MoveWorld L → Prop}

variable (keeps : ∀ w, ctx.Arrived next w → invariant w)
include keeps

end MoveContext

/-! ## Every moment of a move -/

section Move

variable {L : Type}

variable {host : ControlHost} {infoHashHex : String} {locate : String → L} {start w : MoveWorld L} {strict : Prop}
  {separated : Separated locate (host.filesToMove a start.persisted infoHashHex downloadPath)}

variable [DecidableEq L]

end Move

/-- A move without failures. -/
def smooth {L : Type} [DecidableEq L] (locate : String → L) (count : ℕ) : List (world locate).Turn :=
  List.replicate count (.own { flag := true })

namespace NestedDestination

def torrent : Torrent where
  info :=
    { pieceLength := 4
      pieces := List.replicate 20 0
      files := [{ length := 4, path := ["x"] }, { length := 4, path := ["a", "x"] }]
      name := "t"
      length := 8
      metaVersion := none
      fileTree := none }

def host : ControlHost := hostOf torrent

def start : MoveWorld String where
  store :=
    { entry := fun loc =>
        if loc = "/d/x" then some (.file 0) else if loc ∈ ["/", "/d", "/d/a"] then some .directory else none
      data := fun _ => [7]
      nextInode := 1
      bounded := fun loc inode named => by
        split_ifs at named
        · simp only [Option.some.injEq, Node.file.injEq] at named
          omega
        · exact nomatch named }
  persisted := OneFile.settings
  others loc := if loc = "/d/x" then some [7] else none
  own _ := false
  awaited _ := false

def after : MoveWorld String :=
  ((world id).run (applyOfflineMove host .stored start.persisted "h" "/d/a") start (smooth id 60)).2

end NestedDestination

end Superseedr
