import Mathlib.Data.Fintype.Defs
import Superseedr.Soundness.Containment
import Superseedr.Soundness.StagingScripts

/-! # A move that fails

Before anything is staged the command estimates the space it needs, checks that every destination is free
and creates the directories. Together with the staging this gives what a whole preparation does: it either
stages every file that was there, or it leaves the file system as others would have left it.
-/

namespace Superseedr

open ScriptWorld List MoveWorld

variable {more : List String}

namespace MoveContext

open Staging

variable {L : Type} {ctx : MoveContext L} {w : MoveWorld L} {checked todo : List (String × String)}
  {f : String × String} {destinations : List String}

theorem Staging.forget (staging : ctx.Staging [] todo none w) : ctx.Staging [] [] none w :=
  { staging with ready := nofun }

theorem Staging.released (staging : ctx.Staging [] todo none w) : ctx.Released w :=
  fun _ => staging.own_none

structure Checked (ctx : MoveContext L) (checked : List (String × String)) (destinations : List String) : Prop where
  listed : ∀ f ∈ checked, f ∈ ctx.files
  apart : checked.Pairwise fun f g => ctx.Moved f → ctx.Moved g → ctx.locate f.2 ≠ ctx.locate g.2
  recorded : ∀ f ∈ checked, ctx.Moved f → f.2 ∈ destinations

section

variable (before : ctx.Checked checked destinations) (listed : f ∈ ctx.files)
include before listed

theorem Checked.extend (subset : destinations ⊆ more) (recorded : ctx.Moved f → f.2 ∈ more)
    (apart : ctx.Moved f → ∀ g ∈ checked, ctx.Moved g → ctx.locate g.2 ≠ ctx.locate f.2) :
    ctx.Checked (checked ++ [f]) more where
  listed := forall_mem_append.mpr ⟨before.listed, forall_mem_singleton.mpr listed⟩
  apart := by
    refine pairwise_append.mpr ⟨before.apart, pairwise_singleton .., fun g earlier h last => ?_⟩
    rw [mem_singleton.mp last]
    exact fun first second => apart second g earlier first
  recorded := forall_mem_append.mpr
    ⟨fun g earlier moved => subset (before.recorded g earlier moved), forall_mem_singleton.mpr recorded⟩

theorem Checked.skip (still : ¬ctx.Moved f) : ctx.Checked (checked ++ [f]) destinations :=
  before.extend listed (fun _ member => member) (fun moved => absurd moved still) fun moved => absurd moved still

theorem Checked.push (new : destinations.any (samePath f.2) = false) :
    ctx.Checked (checked ++ [f]) (destinations ++ [f.2]) := by
  refine before.extend listed (subset_append_left ..) (fun _ => ?_) fun _ g earlier moved same => ?_
  · exact mem_append_right _ (mem_singleton_self f.2)
  · have differ : samePath f.2 g.2 = false := by
      rw [any_eq_false] at new
      exact Bool.eq_false_of_not_eq_true (new g.2 (before.recorded g earlier moved))
    exact ctx.separated.destinations f listed g (before.listed g earlier) differ same.symm

end

theorem Checked.lineup (checks : ctx.Checked checked destinations) : ctx.Lineup [] checked :=
  ⟨checks.listed, nofun, checks.apart⟩

theorem Staging.check (staging : ctx.Staging [] checked none w) (fresh : ctx.Moved f → ctx.Fresh f w) :
    ctx.Staging [] (checked ++ [f]) none w where
  __ := staging
  ready := forall_mem_append.mpr ⟨staging.ready, forall_mem_singleton.mpr fresh⟩

variable [DecidableEq L]

/-! ## Space -/

variable (plan : MovePayloadPlan) (files : plan.files = ctx.files) (now : (ctx.between [] [] none).holds w)
include files now

end MoveContext

/-! ## The preparation -/

namespace ControlHost

/-- The pure part of the preparation: which torrent moves where, and the plan. -/
def plannedMove (host : ControlHost) (a : Arrangement) (settings : Settings) (infoHashHex downloadPath : String) :
    Except String (ℕ × String × MovePayloadPlan) := do
  let infoHash ← host.decodeInfoHash infoHashHex
  match host.findTorrentSettingsIndexByInfoHash settings infoHash with
  | none => .error ("Torrent '" ++ infoHashHex ++ "' was not found")
  | some index =>
    let canonicalDownloadPath ← host.validateMoveDownloadPath downloadPath
    let plan ← host.buildMovePayloadPlan a settings infoHashHex canonicalDownloadPath
    .ok (index, canonicalDownloadPath, plan)

def filesToMove (host : ControlHost) (a : Arrangement) (settings : Settings) (infoHashHex downloadPath : String) :
    List (String × String) :=
  match host.plannedMove a settings infoHashHex downloadPath with
  | .ok (_, _, plan) => plan.files
  | .error _ => []

end ControlHost

namespace MoveContext

variable {L : Type} [DecidableEq L] {ctx : MoveContext L} {w : MoveWorld L}

end MoveContext

section Preparation

variable {L : Type} (host : ControlHost) (a : Arrangement) (settings : Settings) (infoHashHex downloadPath : String)
  (locate : String → L) (w : MoveWorld L) (strict : Prop)
  (separated : Separated locate (host.filesToMove a settings infoHashHex downloadPath))

/-- The move of a torrent from a world on. -/
def moveFrom : MoveContext L where
  locate
  files := host.filesToMove a settings infoHashHex downloadPath
  start := w
  strict
  separated

end Preparation

/-! ## One file -/

namespace OneFile

/-- A torrent with one file, to be moved from `/d` to `/e`. -/
def settings : Settings := { torrents := [{ containerName := some "", downloadPath := some "/d" }] }

def host : ControlHost := hostOf (listedTorrent ["x"])

inductive Place where
  | source
  | destination
  | directory
deriving DecidableEq

instance : Fintype Place where
  elems := {.source, .destination, .directory}
  complete place := by cases place <;> decide

def locate (path : String) : Place :=
  if path = "/d/x" then .source else if path = "/e/x" then .destination else .directory

def start : MoveWorld Place where
  store :=
    { entry
        | .source => some (.file 0)
        | .destination => none
        | .directory => some .directory
      data := fun _ => [7]
      nextInode := 1
      bounded
        | .source, inode, named => by cases named; decide
        | .destination, _, named => nomatch named
        | .directory, _, named => nomatch named }
  persisted := settings
  others
    | .source => some [7]
    | _ => none
  own _ := false
  awaited _ := false

theorem separated : Separated locate (host.filesToMove .stored settings "h" "/e") := by
  constructor <;> decide +kernel

instance (ctx : MoveContext Place) (choice : FileChoice) (w : MoveWorld Place) :
    (op : FileOp) → Decidable (ctx.Dependable choice w op)
  | .removeFile path => inferInstanceAs (Decidable (w.own (ctx.locate path) = true → choice.fails = false))
  | .metadata path => inferInstanceAs
    (Decidable ((∃ f ∈ ctx.files, f.1 = path) → choice.fails = true → ∀ loc, w.own loc = false))
  | .pathExists _ | .isFile _ | .sameExistingFile .. | .sharesDiskMount .. | .availableSpace _ | .createDirAll _
  | .hardLink .. | .copyOpen .. | .copyPart .. | .copyRest .. | .removeDir _ | .saveSettings _ =>
    inferInstanceAs (Decidable True)

def move : MoveContext Place := moveFrom host .stored settings "h" "/e" locate start True separated

end OneFile

end Superseedr
