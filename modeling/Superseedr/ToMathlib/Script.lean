import Mathlib.Data.List.Basic

/-! # Scripts in a world with other processes

A script is a finite program that performs operations one after another and goes on with their
answers. It runs in a world that decides how each operation turns out, and between any two of its
operations other processes may change that world. Stopping a run anywhere is a crash.

`Ensures` is the rule of pre- and postconditions: `invariant` holds at every moment, interruptions
included, and the postcondition when the script is done. A guard says which turns of the world are
considered; `sound` is the connection to runs.
-/

inductive Script (Op : Type) (Res : Op → Type) (α : Type) where
  | done (value : α)
  | perform (op : Op) (next : Res op → Script Op Res α)

namespace Script

variable {Op : Type} {Res : Op → Type} {α β : Type}

def bind : Script Op Res α → (α → Script Op Res β) → Script Op Res β
  | done value, next => next value
  | perform op cont, next => perform op fun answer => (cont answer).bind next

instance : Monad (Script Op Res) where
  pure := done
  bind := bind

/-- Perform one operation and return its answer. -/
def call (op : Op) : Script Op Res (Res op) := perform op done

def value? : Script Op Res α → Option α
  | done value => some value
  | perform _ _ => none

end Script

/-- How a world turns out: `operate` performs an operation under a choice of the world's, `intrude` is
what another process does. -/
structure ScriptWorld (Op : Type) (Res : Op → Type) where
  World : Type
  Choice : Type
  Intrusion : Type
  operate : (op : Op) → Choice → World → Res op × World
  intrude : Intrusion → World → World

namespace ScriptWorld

variable {Op : Type} {Res : Op → Type} (sys : ScriptWorld Op Res) {α β : Type}

/-- One turn: the script's next operation, or another process. -/
inductive Turn where
  | own (choice : sys.Choice)
  | other (intrusion : sys.Intrusion)

/-- Take one turn; a finished script has no operation left. -/
def advance : Script Op Res α × sys.World → sys.Turn → Script Op Res α × sys.World
  | (.done value, w), .own _ => (.done value, w)
  | (.perform op next, w), .own choice => (next (sys.operate op choice w).1, (sys.operate op choice w).2)
  | (script, w), .other intrusion => (script, sys.intrude intrusion w)

/-- Take turns, as far as they go. -/
def run (script : Script Op Res α) (w : sys.World) (turns : List sys.Turn) : Script Op Res α × sys.World :=
  turns.foldl sys.advance (script, w)

/-- The turns that are considered. -/
structure Guard where
  own : (op : Op) → sys.Choice → sys.World → Prop
  other : sys.Intrusion → sys.World → Prop

variable {sys}

def Guard.Admits (guard : sys.Guard) : Script Op Res α × sys.World → sys.Turn → Prop
  | (.done _, _), .own _ => True
  | (.perform op _, w), .own choice => guard.own op choice w
  | (_, w), .other intrusion => guard.other intrusion w

def Guard.AdmitsRun (guard : sys.Guard) : Script Op Res α × sys.World → List sys.Turn → Prop
  | _, [] => True
  | config, turn :: turns => guard.Admits config turn ∧ guard.AdmitsRun (sys.advance config turn) turns

section Decidability

variable {guard : sys.Guard} [∀ op choice w, Decidable (guard.own op choice w)]
  [∀ intrusion w, Decidable (guard.other intrusion w)]

instance : (config : Script Op Res α × sys.World) → (turn : sys.Turn) → Decidable (guard.Admits config turn)
  | (.done _, _), .own _ => .isTrue trivial
  | (.perform op _, w), .own choice => inferInstanceAs (Decidable (guard.own op choice w))
  | (.done _, w), .other intrusion | (.perform _ _, w), .other intrusion =>
    inferInstanceAs (Decidable (guard.other intrusion w))

end Decidability

structure Guard.Assertion (guard : sys.Guard) (invariant : sys.World → Prop) where
  holds : sys.World → Prop
  stable : ∀ w intrusion, guard.other intrusion w → holds w → holds (sys.intrude intrusion w)
  keeps : ∀ w, holds w → invariant w

/-- Where nobody else takes a turn, every property is kept. -/
def Guard.Assertion.silent {guard : sys.Guard} {invariant : sys.World → Prop}
    (silence : ∀ intrusion w, ¬guard.other intrusion w) (holds : sys.World → Prop)
    (keeps : ∀ w, holds w → invariant w) : guard.Assertion invariant where
  holds
  stable w intrusion admitted := absurd admitted (silence intrusion w)
  keeps

inductive Ensures (guard : sys.Guard) (invariant : sys.World → Prop) (post : α → sys.World → Prop) :
    Script Op Res α → sys.World → Prop
  | done {value : α} {w : sys.World} (before : guard.Assertion invariant) (now : before.holds w)
      (ends : ∀ w, before.holds w → post value w) : Ensures guard invariant post (.done value) w
  | perform {op : Op} {next : Res op → Script Op Res α} {w : sys.World} (before : guard.Assertion invariant)
      (now : before.holds w)
      (goesOn : ∀ w choice, before.holds w → guard.own op choice w →
        Ensures guard invariant post (next (sys.operate op choice w).1) (sys.operate op choice w).2) :
      Ensures guard invariant post (.perform op next) w

namespace Ensures

variable {guard : sys.Guard} {invariant : sys.World → Prop} {post : α → sys.World → Prop}
  {script : Script Op Res α} {w : sys.World}

theorem invariant_now (ensures : Ensures guard invariant post script w) : invariant w := by
  cases ensures with
  | done before now _ => exact before.keeps w now
  | perform before now _ => exact before.keeps w now

theorem post_now {value : α} (ensures : Ensures guard invariant post (.done value) w) : post value w := by
  cases ensures with
  | done before now ends => exact ends w now

section

variable (ensures : Ensures guard invariant post script w)
include ensures

theorem advance {turn : sys.Turn} (admitted : guard.Admits (script, w) turn) :
    Ensures guard invariant post (sys.advance (script, w) turn).1 (sys.advance (script, w) turn).2 := by
  cases ensures with
  | done before now ends =>
    cases turn with
    | own choice => exact .done before now ends
    | other intrusion => exact .done before (before.stable w intrusion admitted now) ends
  | perform before now goesOn =>
    cases turn with
    | own choice => exact goesOn w choice now admitted
    | other intrusion => exact .perform before (before.stable w intrusion admitted now) goesOn

variable {turns : List sys.Turn}

theorem sound (admitted : guard.AdmitsRun (script, w) turns) :
    invariant (sys.run script w turns).2 ∧
      ∀ value, (sys.run script w turns).1.value? = some value → post value (sys.run script w turns).2 := by
  induction turns generalizing script w with
  | nil =>
    refine ⟨ensures.invariant_now, fun value finished => ?_⟩
    cases script with
    | done result =>
      obtain rfl : result = value := Option.some.inj finished
      exact ensures.post_now
    | perform op next => cases finished
  | cons turn turns ih => exact ih (ensures.advance admitted.1) admitted.2

theorem mono {weaker : α → sys.World → Prop} (weakens : ∀ value w, post value w → weaker value w) :
    Ensures guard invariant weaker script w := by
  induction ensures with
  | done before now ends => exact .done before now fun w held => weakens _ w (ends w held)
  | perform before now _ ih => exact .perform before now ih

/-- Sequential composition. -/
theorem andThen {next : α → Script Op Res β} {final : β → sys.World → Prop}
    (goesOn : ∀ value w, post value w → Ensures guard invariant final (next value) w) :
    Ensures guard invariant final (script >>= next) w := by
  induction ensures with
  | done before now ends => exact goesOn _ _ (ends _ now)
  | perform before now _ ih => exact .perform before now ih

end

end Ensures

end ScriptWorld
