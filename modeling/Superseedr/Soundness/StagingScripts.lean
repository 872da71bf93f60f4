import Superseedr.Soundness.Staging

/-! # The scripts of the staging

One specification for every script between the start of a move and the end of its staging. They are
composed by the rules for operations and for sequential composition.
-/

namespace Superseedr.MoveContext

open ScriptWorld List Option Function MoveWorld

variable {L α : Type} {ctx : MoveContext L} {w : MoveWorld L} {staged todo : List (String × String)}
  {f : String × String} {source destination other loc : L} {inode copy : ℕ} {error : String} {choice : FileChoice}
  {bytes : Bytes} {result : Except String (List (String × String))}

structure Tidy (ctx : MoveContext L) (staged : List (String × String)) (w : MoveWorld L) : Prop
    extends ctx.Clean w where
  own : ∀ f ∈ staged, w.own (ctx.locate f.2) = true
  bound : ctx.strict → ∀ loc, w.own loc = true → ∃ f ∈ staged, loc = ctx.locate f.2

/-- There is nothing left of the command where the clean-up works. -/
def Released (ctx : MoveContext L) (w : MoveWorld L) : Prop := ctx.strict → ∀ loc, w.own loc = false

theorem Tidy.released (tidy : ctx.Tidy [] w) : ctx.Released w := by
  intro strict loc
  by_contra own
  rw [Bool.not_eq_false] at own
  obtain ⟨f, member, -⟩ := tidy.bound strict loc own
  cases member

/-- Nothing is left of the file under way. -/
theorem Staging.tidy (staging : ctx.Staging staged todo (some f) w) (free : w.own (ctx.locate f.2) = false) :
    ctx.Tidy staged w where
  toClean := staging.toClean
  own g member := (staging.copies g member).1
  bound _ loc own := by
    rcases staging.bound loc own with earlier | ⟨g, busy, same⟩
    · exact earlier
    · obtain rfl : f = g := some.inj busy
      cases free.symm.trans (same ▸ own)

def Ended (ctx : MoveContext L) (staged todo : List (String × String)) :
    Except String (List (String × String)) → MoveWorld L → Prop
  | .ok all, w => ctx.Staging all [] none w ∧ ctx.Lineup all [] ∧ staged ⊆ all ∧ ∀ f ∈ todo, ctx.Moved f → f ∈ all
  | .error _, w => ctx.Released w

theorem Ended.skip (ended : ctx.Ended staged todo result w) (still : ¬ctx.Moved f) :
    ctx.Ended staged (f :: todo) result w := by
  cases result with
  | error error => exact ended
  | ok all =>
    obtain ⟨staging, lineup, earlier, complete⟩ := ended
    refine ⟨staging, lineup, earlier, fun g member moved => ?_⟩
    rcases mem_cons.mp member with rfl | later
    · exact absurd moved still
    · exact complete g later moved

theorem Ended.push (ended : ctx.Ended (staged ++ [f]) todo result w) : ctx.Ended staged (f :: todo) result w := by
  cases result with
  | error error => exact ended
  | ok all =>
    obtain ⟨staging, lineup, earlier, complete⟩ := ended
    refine ⟨staging, lineup, fun g member => earlier (mem_append_left _ member), fun g member moved => ?_⟩
    rcases mem_cons.mp member with rfl | later
    · exact earlier (mem_append_right _ (mem_singleton_self g))
    · exact complete g later moved

variable [DecidableEq L] {before : ctx.guard.Assertion ctx.Clean} {path : String}

def between (ctx : MoveContext L) (staged todo : List (String × String)) (busy : Option (String × String)) :
    ctx.guard.Assertion ctx.Clean :=
  ctx.assertion (ctx.Staging staged todo busy) (fun _ staging => staging.toClean)
    fun _ _ _ staging intruded => staging.joined intruded

def during (ctx : MoveContext L) (staged todo : List (String × String)) (f : String × String)
    (holds : MoveWorld L → Prop)
    (survives : ∀ w loc bytes, holds w → Intruded ctx w loc bytes → holds (joined w loc bytes)) :
    ctx.guard.Assertion ctx.Clean :=
  ctx.assertion (fun w => ctx.Staging staged todo (some f) w ∧ holds w) (fun _ held => held.1.toClean)
    fun w loc bytes held intruded => ⟨held.1.joined intruded, survives w loc bytes held.2 intruded⟩

/-! ## Looking at metadata and space -/

theorem own_intrude (locate : String → L) (intrusion : String × Bytes) : (intrude locate intrusion w).own = w.own := by
  simp only [MoveWorld.intrude]
  split_ifs <;> rfl

def unowned (before : ctx.guard.Assertion ctx.Clean) : ctx.guard.Assertion ctx.Clean where
  holds w := before.holds w ∧ (ctx.strict → ∀ loc, w.own loc = false)
  stable w intrusion admitted held := by
    refine ⟨before.stable w intrusion admitted held.1, ?_⟩
    intro strict loc
    exact (congrFun (own_intrude ctx.locate intrusion) loc).trans (held.2 strict loc)
  keeps w held := before.keeps w held.1

section Copying

variable {post : α → MoveWorld L → Prop}

/-- The destination has been looked up in vain. -/
def fresh (ctx : MoveContext L) (staged todo : List (String × String)) (f : String × String) :
    ctx.guard.Assertion ctx.Clean :=
  ctx.during staged todo f (ctx.Fresh f) fun _ _ _ fresh intruded => fresh.joined intruded

def copied (ctx : MoveContext L) (staged todo : List (String × String)) (f : String × String) :
    ctx.guard.Assertion ctx.Clean :=
  ctx.during staged todo f (ctx.Copied f) fun _ _ _ copied intruded => copied.joined intruded

/-- The destination may be removed. -/
def held (ctx : MoveContext L) (staged todo : List (String × String)) (f : String × String) :
    ctx.guard.Assertion ctx.Clean :=
  ctx.during staged todo f (ctx.Held f) fun _ _ _ held intruded => held.joined intruded

variable (lineup : ctx.Lineup staged (f :: todo)) (moved : ctx.Moved f)
include lineup moved

variable {next : Except String Unit → FileScript α} (now : (ctx.fresh staged todo f).holds w)
include now

end Copying

/-! ## Undoing -/

def tidy (ctx : MoveContext L) (staged : List (String × String)) : ctx.guard.Assertion ctx.Clean :=
  ctx.assertion (ctx.Tidy staged) (fun _ tidy => tidy.toClean)
    fun _ _ _ tidy intruded => ⟨tidy.toClean.joined intruded, tidy.own, tidy.bound⟩

theorem Tidy.withdrawn (tidy : ctx.Tidy (f :: staged) w) (apart : ∀ g ∈ staged, ctx.locate g.2 ≠ ctx.locate f.2) :
    ctx.Tidy staged (withdrawn w (ctx.locate f.2)) where
  toClean := tidy.toClean.withdrawn (tidy.own f (.head _))
  own g member := (update_of_ne (apart g member) _ _).trans (tidy.own g (.tail f member))
  bound strict loc own := by
    have elsewhere : loc ≠ ctx.locate f.2 := by
      rintro rfl
      exact Bool.false_ne_true ((update_self ..).symm.trans own)
    obtain ⟨g, member, same⟩ := tidy.bound strict loc ((update_of_ne elsewhere _ _).symm.trans own)
    rcases mem_cons.mp member with rfl | member
    · exact absurd same elsewhere
    · exact ⟨g, member, same⟩

def found (ctx : MoveContext L) (staged todo : List (String × String)) (f : String × String) :
    ctx.guard.Assertion ctx.Clean :=
  ctx.assertion (fun w => ctx.Staging staged todo none w ∧ (w.store.entry (ctx.locate f.1)).isSome)
    (fun _ held => held.1.toClean) fun w loc bytes held intruded => by
      refine ⟨held.1.joined intruded, ?_⟩
      have elsewhere : ctx.locate f.1 ≠ loc := by
        intro same
        rw [same, intruded.free] at held
        exact Bool.false_ne_true held.2
      exact (congrArg Option.isSome (Function.update_of_ne elsewhere _ _)).trans held.2

end Superseedr.MoveContext
