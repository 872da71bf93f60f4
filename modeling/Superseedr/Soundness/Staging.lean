import Superseedr.Soundness.FileStore

/-! # Staging the files of a move

While a move is staged, every file that the command did not make itself is exactly what it was at the
start or what another process put there since. The names the command makes are destinations of files
that move, and they hide nothing. If the clean-up works, a staging that fails leaves none of them.

This rests on the plan keeping its paths apart (`Separated`) and on other processes staying away from the
destinations that the command has found free and not yet taken.
-/

namespace Superseedr

open ScriptWorld List Function MoveWorld FileStore Option

variable {inode : ℕ} {known : Bytes} {f g : String × String} {staged todo : List (String × String)}
  {busy : Option (String × String)} {path left right : String} {α : Type} {op : FileOp}

def directoriesAbove (path : String) : List String :=
  match pathParent path with
  | some parent => pathAncestors parent
  | none => []

/-- The destinations of a plan are apart from its sources and from each other, and the directories above
them are no sources. A file whose source is its destination is not moved and may coincide with another such
file. -/
structure Separated {L : Type} (locate : String → L) (files : List (String × String)) : Prop where
  sources : ∀ f ∈ files, ∀ g ∈ files, locate f.2 = locate g.1 → locate f.1 = locate f.2 ∧ locate g.1 = locate g.2
  destinations : ∀ f ∈ files, ∀ g ∈ files, samePath f.2 g.2 = false → locate f.2 ≠ locate g.2
  directories : ∀ f ∈ files, ∀ g ∈ files, locate f.1 ≠ locate f.2 →
    ∀ dir ∈ directoriesAbove g.2, locate dir ≠ locate f.1

/-- A move from a world at its start. Where `strict` holds, removing the command's own files and reading the
sources work. -/
structure MoveContext (L : Type) where
  locate : String → L
  files : List (String × String)
  start : MoveWorld L
  strict : Prop
  separated : Separated locate files

/-- The answer to a question about existence is right. -/
def FileOp.Exact (choice : FileChoice) : FileOp → Prop
  | .pathExists _ => choice.fails = false
  | .isFile _ => choice.fails = false
  | .sameExistingFile _ _ => choice.fails = false
  | _ => True

instance (choice : FileChoice) (op : FileOp) : Decidable (op.Exact choice) := by
  cases op <;> dsimp only [FileOp.Exact] <;> infer_instance

namespace MoveContext

variable {L : Type} (ctx : MoveContext L)

/-- Removing own files works, and so does reading the metadata of a source once there are own files. -/
def Dependable (choice : FileChoice) (w : MoveWorld L) : FileOp → Prop
  | .removeFile path => w.own (ctx.locate path) = true → choice.fails = false
  | .metadata path => (∃ f ∈ ctx.files, f.1 = path) → choice.fails = true → ∀ loc, w.own loc = false
  | _ => True

variable [DecidableEq L] in
/-- Existence checks are exact, and other processes create files at destinations only that the command has
not looked up in vain. -/
def guard : (world ctx.locate).Guard where
  own op choice w := op.Exact choice ∧ (ctx.strict → ctx.Dependable choice w op)
  other intrusion w :=
    (∃ f ∈ ctx.files, ctx.locate intrusion.1 = ctx.locate f.2) ∧ w.awaited (ctx.locate intrusion.1) = false

/-- Source and destination are different places. -/
def Moves (f : String × String) : Prop := ctx.locate f.1 ≠ ctx.locate f.2

def Moved (f : String × String) : Prop :=
  ctx.Moves f ∧ (ctx.start.store.entry (ctx.locate f.1)).isSome

/-- What holds at every moment of the staging. -/
structure Clean (w : MoveWorld L) : Prop where
  rest : ∀ loc, w.own loc = false → w.store.content loc = w.others loc
  within : ∀ loc, w.own loc = true → (∃ f ∈ ctx.files, ctx.Moves f ∧ loc = ctx.locate f.2) ∧
    w.others loc = none ∧ w.store.content loc ≠ none
  sources : ∀ f ∈ ctx.files, ctx.Moves f → w.store.entry (ctx.locate f.1) = ctx.start.store.entry (ctx.locate f.1)
  persisted : w.persisted = ctx.start.persisted
  kept : ∀ loc bytes, ctx.start.others loc = some bytes → w.others loc = some bytes

variable {ctx} {w : MoveWorld L} {loc other : L} {bytes : Bytes}

theorem Clean.own_of_missing (clean : ctx.Clean w) (missing : w.store.entry loc = none) : w.own loc = false := by
  by_contra own
  rw [Bool.not_eq_false] at own
  exact (clean.within loc own).2.2 (w.store.content_of_none missing)

section Files

theorem ne_source (listed : f ∈ ctx.files) (moves : ctx.Moves f) (member : g ∈ ctx.files) :
    ctx.locate g.1 ≠ ctx.locate f.2 := fun same => moves (ctx.separated.sources f listed g member same.symm).1

theorem Clean.moved (clean : ctx.Clean w) (listed : f ∈ ctx.files) (moves : ctx.Moves f)
    (present : (w.store.entry (ctx.locate f.1)).isSome) : ctx.Moved f :=
  ⟨moves, clean.sources f listed moves ▸ present⟩

theorem Clean.present (clean : ctx.Clean w) (listed : f ∈ ctx.files) (moved : ctx.Moved f) :
    (w.store.entry (ctx.locate f.1)).isSome :=
  clean.sources f listed moved.1 ▸ moved.2

end Files

/-! ## Destinations -/

section

variable (ctx : MoveContext L) (f : String × String) (w : MoveWorld L)

/-- The destination is the command's own and holds what the source holds. -/
def Copied : Prop :=
  w.own (ctx.locate f.2) = true ∧ ∃ bytes,
    w.store.content (ctx.locate f.1) = some bytes ∧ w.store.content (ctx.locate f.2) = some bytes

/-- The destination was looked up in vain, and there is still no file. -/
def Fresh : Prop :=
  w.awaited (ctx.locate f.2) = true ∧ w.store.content (ctx.locate f.2) = none

/-- The destination is the command's own, and no other name shares its content. -/
def Alone : Prop :=
  w.own (ctx.locate f.2) = true ∧ ∃ inode, w.store.entry (ctx.locate f.2) = some (.file inode) ∧
    ∀ loc, w.store.entry loc = some (.file inode) → loc = ctx.locate f.2

/-- Removing the destination removes nothing that others made. -/
def Held : Prop :=
  w.own (ctx.locate f.2) = true ∨ ctx.Fresh f w

end

/-- Some files are staged, some are still to be, and one may be under way. -/
structure Staging (ctx : MoveContext L) (staged todo : List (String × String)) (busy : Option (String × String))
    (w : MoveWorld L) : Prop extends ctx.Clean w where
  bound : ∀ loc, w.own loc = true → (∃ f ∈ staged, loc = ctx.locate f.2) ∨ ∃ f ∈ busy, loc = ctx.locate f.2
  copies : ∀ f ∈ staged, ctx.Copied f w
  ready : ∀ f ∈ todo, ctx.Moved f → ctx.Fresh f w

structure Lineup (ctx : MoveContext L) (staged todo : List (String × String)) : Prop where
  listed : ∀ f ∈ staged ++ todo, f ∈ ctx.files
  moved : ∀ f ∈ staged, ctx.Moved f
  apart : (staged ++ todo).Pairwise fun f g => ctx.Moved f → ctx.Moved g → ctx.locate f.2 ≠ ctx.locate g.2

section Order

variable {after : MoveWorld L}

theorem Staging.skip (staging : ctx.Staging staged (f :: todo) busy w) : ctx.Staging staged todo busy w where
  __ := staging
  ready g member := staging.ready g (.tail f member)

theorem Staging.begin (staging : ctx.Staging staged (f :: todo) none w) : ctx.Staging staged todo (some f) w where
  __ := staging
  bound loc own := by
    rcases staging.bound loc own with earlier | ⟨g, busy, -⟩
    · exact .inl earlier
    · exact absurd busy (not_mem_none g)
  ready g member := staging.ready g (.tail f member)

theorem Staging.push (staging : ctx.Staging staged todo (some f) w) (copied : ctx.Copied f w) :
    ctx.Staging (staged ++ [f]) todo none w where
  __ := staging
  bound loc own := by
    rcases staging.bound loc own with ⟨g, earlier, same⟩ | ⟨g, busy, same⟩
    · exact .inl ⟨g, mem_append_left _ earlier, same⟩
    · obtain rfl : f = g := some.inj busy
      exact .inl ⟨f, mem_append_right _ (mem_singleton_self f), same⟩
  copies := forall_mem_append.mpr ⟨staging.copies, forall_mem_singleton.mpr copied⟩

theorem Staging.own_none (staging : ctx.Staging [] todo none w) (loc : L) : w.own loc = false := by
  by_contra own
  rw [Bool.not_eq_false] at own
  rcases staging.bound loc own with ⟨g, member, -⟩ | ⟨g, member, -⟩
  · cases member
  · exact absurd member (not_mem_none g)

structure Touched (loc : L) (w after : MoveWorld L) : Prop where
  others : after.others = w.others
  persisted : after.persisted = w.persisted
  own : ∀ other ≠ loc, after.own other = w.own other
  awaited : ∀ other ≠ loc, after.awaited other = w.awaited other
  entry : ∀ other ≠ loc, after.store.entry other = w.store.entry other
  content : ∀ other ≠ loc, after.store.content other = w.store.content other

/-- A place where nobody else has a file may be filled or emptied by the command. -/
theorem Clean.touched (clean : ctx.Clean w) (listed : f ∈ ctx.files) (moves : ctx.Moves f)
    (touched : Touched (ctx.locate f.2) w after) (unclaimed : w.others (ctx.locate f.2) = none)
    (agrees : after.own (ctx.locate f.2) = true ↔ after.store.content (ctx.locate f.2) ≠ none) : ctx.Clean after where
  rest loc notOwn := by
    rw [touched.others]
    by_cases same : loc = ctx.locate f.2
    · subst same
      rw [unclaimed]
      by_contra filled
      exact Bool.false_ne_true (notOwn.symm.trans (agrees.mpr filled))
    · rw [touched.content loc same]
      exact clean.rest loc ((touched.own loc same).symm.trans notOwn)
  within loc own := by
    rw [touched.others]
    by_cases same : loc = ctx.locate f.2
    · subst same
      exact ⟨⟨f, listed, moves, rfl⟩, unclaimed, agrees.mp own⟩
    · rw [touched.content loc same]
      exact clean.within loc ((touched.own loc same).symm.trans own)
  sources g member moving := by
    rw [touched.entry _ (ne_source listed moves member)]
    exact clean.sources g member moving
  persisted := touched.persisted.trans clean.persisted
  kept := by
    rw [touched.others]
    exact clean.kept

theorem Clean.unclaimed (clean : ctx.Clean w) (free : w.store.content loc = none) : w.others loc = none := by
  cases own : w.own loc with
  | true => exact (clean.within loc own).2.1
  | false => exact (clean.rest loc own).symm.trans free

variable (lineup : ctx.Lineup staged (f :: todo))
include lineup

theorem Lineup.skip : ctx.Lineup staged todo := by
  have shorter : (staged ++ todo).Sublist (staged ++ f :: todo) := (sublist_cons_self f todo).append_left staged
  exact ⟨fun g member => lineup.listed g (shorter.subset member), lineup.moved, lineup.apart.sublist shorter⟩

theorem Lineup.head : f ∈ ctx.files :=
  lineup.listed f (mem_append_right staged (.head _))

theorem Lineup.push (moved : ctx.Moved f) : ctx.Lineup (staged ++ [f]) todo := by
  have same : (staged ++ [f]) ++ todo = staged ++ f :: todo := by rw [append_assoc, singleton_append]
  refine ⟨?_, forall_mem_append.mpr ⟨lineup.moved, forall_mem_singleton.mpr moved⟩, ?_⟩
  · rw [same]
    exact lineup.listed
  · rw [same]
    exact lineup.apart

theorem Lineup.ne_staged (moved : ctx.Moved f) (member : g ∈ staged) : ctx.locate g.2 ≠ ctx.locate f.2 :=
  (pairwise_append.mp lineup.apart).2.2 g member f mem_cons_self (lineup.moved g member) moved

theorem Lineup.ne_todo (moved : ctx.Moved f) (member : g ∈ todo) (later : ctx.Moved g) :
    ctx.locate f.2 ≠ ctx.locate g.2 :=
  (pairwise_cons.mp (pairwise_append.mp lineup.apart).2.1).1 g member moved later

theorem Staging.touched (staging : ctx.Staging staged todo (some f) w) (moved : ctx.Moved f)
    (touched : Touched (ctx.locate f.2) w after) (unclaimed : w.others (ctx.locate f.2) = none)
    (own : after.own (ctx.locate f.2) = true) (filled : after.store.content (ctx.locate f.2) ≠ none) :
    ctx.Staging staged todo (some f) after where
  toClean := staging.toClean.touched lineup.head moved.1 touched unclaimed (iff_of_true own filled)
  bound loc owned := by
    by_cases same : loc = ctx.locate f.2
    · exact .inr ⟨f, rfl, same⟩
    · exact staging.bound loc ((touched.own loc same).symm.trans owned)
  copies g member := by
    have source := ne_source lineup.head moved.1 (lineup.listed g (mem_append_left _ member))
    have destination := lineup.ne_staged moved member
    rw [Copied, touched.own _ destination, touched.content _ source, touched.content _ destination]
    exact staging.copies g member
  ready g member later := by
    have destination := (lineup.ne_todo moved member later).symm
    rw [Fresh, touched.awaited _ destination, touched.content _ destination]
    exact staging.ready g member later

end Order

/-! ## Other processes -/

/-- What an admitted intrusion does: nothing, or a new file at a place that is free, not the command's own and
not a source. -/
structure Intruded (ctx : MoveContext L) (w : MoveWorld L) (loc : L) (bytes : Bytes) : Prop where
  free : w.store.entry loc = none
  own : w.own loc = false
  awaited : w.awaited loc = false
  apart : ∀ f ∈ ctx.files, ctx.Moves f → loc ≠ ctx.locate f.1

theorem Intruded.ne_of_content (intruded : Intruded ctx w loc bytes) (present : w.store.content other = some known) :
    other ≠ loc := by
  rintro rfl
  rw [w.store.content_of_none intruded.free] at present
  cases present

theorem Intruded.ne_of_awaited (intruded : Intruded ctx w loc bytes) (awaited : w.awaited other = true) :
    other ≠ loc := by
  rintro rfl
  exact Bool.false_ne_true (intruded.awaited.symm.trans awaited)

variable [DecidableEq L]

def joined (w : MoveWorld L) (loc : L) (bytes : Bytes) : MoveWorld L :=
  { w with store := w.store.create loc bytes, others := Function.update w.others loc (some bytes) }

theorem Clean.intrude (clean : ctx.Clean w) {intrusion : String × Bytes} (admitted : ctx.guard.other intrusion w) :
    intrude ctx.locate intrusion w = w ∨
      Intruded ctx w (ctx.locate intrusion.1) intrusion.2 ∧
        intrude ctx.locate intrusion w = joined w (ctx.locate intrusion.1) intrusion.2 := by
  obtain ⟨⟨f, member, target⟩, awaited⟩ := admitted
  rw [MoveWorld.intrude]
  by_cases free : w.store.entry (ctx.locate intrusion.1) = none
  · refine .inr ⟨⟨free, clean.own_of_missing free, awaited, ?_⟩, if_pos free⟩
    · intro g listed moves same
      exact moves (ctx.separated.sources f member g listed (target.symm.trans same)).2
  · exact .inl (if_neg free)

def assertion (ctx : MoveContext L) (holds : MoveWorld L → Prop) (clean : ∀ w, holds w → ctx.Clean w)
    (survives : ∀ w loc bytes, holds w → Intruded ctx w loc bytes → holds (joined w loc bytes)) :
    ctx.guard.Assertion ctx.Clean where
  holds := holds
  stable := by
    intro w intrusion admitted now
    change holds (intrude ctx.locate intrusion w)
    rcases (clean w now).intrude admitted with same | ⟨intruded, new⟩
    · rw [same]
      exact now
    · rw [new]
      exact survives w _ _ now intruded
  keeps := clean

theorem content_joined (elsewhere : other ≠ loc) :
    (joined w loc bytes).store.content other = w.store.content other := by
  rw [joined, content_create, update_of_ne elsewhere]

section Joined

variable (intruded : Intruded ctx w loc bytes)
include intruded

theorem Clean.joined (clean : ctx.Clean w) : ctx.Clean (joined w loc bytes) where
  rest other notOwn := by
    simp only [MoveContext.joined, content_create]
    by_cases same : other = loc
    · rw [same, update_self, update_self]
    · rw [update_of_ne same, update_of_ne same]
      exact clean.rest other notOwn
  within other own := by
    have elsewhere : other ≠ loc := by
      rintro rfl
      exact Bool.false_ne_true (intruded.own.symm.trans own)
    simp only [MoveContext.joined, content_create]
    rw [update_of_ne elsewhere, update_of_ne elsewhere]
    exact clean.within other own
  sources f member moves := by
    have elsewhere : ctx.locate f.1 ≠ loc := (intruded.apart f member moves).symm
    exact (update_of_ne elsewhere _ _).trans (clean.sources f member moves)
  persisted := clean.persisted
  kept other known started := by
    have recorded := clean.kept other known started
    have elsewhere : other ≠ loc := by
      rintro rfl
      rw [← clean.rest other intruded.own, w.store.content_of_none intruded.free] at recorded
      cases recorded
    exact (update_of_ne elsewhere _ _).trans recorded

theorem Copied.joined (copied : ctx.Copied f w) : ctx.Copied f (joined w loc bytes) := by
  obtain ⟨own, known, source, destination⟩ := copied
  rw [Copied, content_joined (intruded.ne_of_content source), content_joined (intruded.ne_of_content destination)]
  exact ⟨own, known, source, destination⟩

theorem Fresh.joined (fresh : ctx.Fresh f w) : ctx.Fresh f (joined w loc bytes) := by
  rw [Fresh, content_joined (intruded.ne_of_awaited fresh.1)]
  exact fresh

theorem Alone.joined (alone : ctx.Alone f w) : ctx.Alone f (joined w loc bytes) := by
  obtain ⟨own, inode, entry, unique⟩ := alone
  have elsewhere : ctx.locate f.2 ≠ loc := intruded.ne_of_content (w.store.content_of_file entry)
  refine ⟨own, inode, (update_of_ne elsewhere _ _).trans entry, fun other named => ?_⟩
  by_cases same : other = loc
  · have new : (w.store.create loc bytes).entry loc = some (.file w.store.nextInode) := update_self ..
    have older := w.store.bounded _ _ entry
    rw [same] at named
    have shared := new.symm.trans named
    simp only [some.injEq, Node.file.injEq] at shared
    omega
  · exact unique other ((update_of_ne same _ _).symm.trans named)

theorem Held.joined (held : ctx.Held f w) : ctx.Held f (joined w loc bytes) :=
  held.imp_right fun fresh => fresh.joined intruded

theorem Staging.joined (staging : Staging ctx staged todo busy w) :
    Staging ctx staged todo busy (joined w loc bytes) where
  toClean := staging.toClean.joined intruded
  bound := staging.bound
  copies f member := (staging.copies f member).joined intruded
  ready f member moved := (staging.ready f member moved).joined intruded

end Joined

/-- The command has looked a place up in vain. -/
def awaiting (w : MoveWorld L) (loc : L) : MoveWorld L := { w with awaited := Function.update w.awaited loc true }

theorem awaited_awaiting (awaited : w.awaited other = true) : (awaiting w loc).awaited other = true := by
  by_cases same : other = loc
  · rw [same]
    exact update_self ..
  · exact (update_of_ne same _ _).trans awaited

theorem Clean.awaiting (clean : ctx.Clean w) (loc : L) : ctx.Clean (awaiting w loc) :=
  { clean with }

theorem Fresh.awaiting (fresh : ctx.Fresh f w) (loc : L) : ctx.Fresh f (awaiting w loc) :=
  ⟨awaited_awaiting fresh.1, fresh.2⟩

theorem Held.awaiting (held : ctx.Held f w) (loc : L) : ctx.Held f (awaiting w loc) :=
  held.imp_right fun fresh => fresh.awaiting loc

theorem Staging.awaiting (staging : Staging ctx staged todo busy w) (loc : L) :
    Staging ctx staged todo busy (awaiting w loc) where
  toClean := staging.toClean.awaiting loc
  __ := staging
  ready f member moved := (staging.ready f member moved).awaiting loc

/-! ## What the command does -/

section Effects

def withdrawn (w : MoveWorld L) (loc : L) : MoveWorld L :=
  { w with store := w.store.remove loc, own := Function.update w.own loc false }

theorem touched_withdrawn : Touched loc w (withdrawn w loc) where
  others := rfl
  persisted := rfl
  own other elsewhere := update_of_ne elsewhere _ _
  awaited _ _ := rfl
  entry other elsewhere := update_of_ne elsewhere _ _
  content other elsewhere := by
    simp only [withdrawn, content_remove]
    exact update_of_ne elsewhere _ _

theorem Clean.withdrawn (clean : ctx.Clean w) (own : w.own loc = true) : ctx.Clean (withdrawn w loc) := by
  obtain ⟨⟨f, listed, moves, rfl⟩, unclaimed, -⟩ := clean.within loc own
  refine clean.touched listed moves touched_withdrawn unclaimed (iff_of_false ?_ ?_)
  · simp only [withdrawn, update_self]
    exact Bool.false_ne_true
  · simp only [withdrawn, content_remove, update_self]
    exact fun filled => filled rfl

/-- New directories lie at no place of a source. -/
theorem Staging.mkdirs {dirs : List L} (staging : ctx.Staging staged todo busy w)
    (apart : ∀ g ∈ ctx.files, ctx.Moves g → ctx.locate g.1 ∉ dirs) :
    ctx.Staging staged todo busy { w with store := (w.store.mkdirs dirs).1 } := by
  have same := w.store.content_mkdirs dirs
  exact
    { rest := fun loc notOwn => (congrFun same loc).trans (staging.rest loc notOwn)
      within := fun loc own => by
        rw [same]
        exact staging.within loc own
      sources := fun g member moves =>
        (w.store.entry_mkdirs_of_notMem (apart g member moves)).trans (staging.sources g member moves)
      persisted := staging.persisted
      kept := staging.kept
      bound := staging.bound
      copies := fun g member => by
        rw [Copied, same]
        exact staging.copies g member
      ready := fun g member later => by
        rw [Fresh, same]
        exact staging.ready g member later }

end Effects

/-! ## Rules for operations -/

section Rules

variable {before : ctx.guard.Assertion ctx.Clean} {post : α → MoveWorld L → Prop}

end Rules

end MoveContext

end Superseedr
