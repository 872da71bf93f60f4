import Mathlib.Logic.Relation

/-! # Finite runs of a labeled relation under a guard

`Steps move guard s t` is a finite run of a labeled transition relation whose every step is
admitted by `guard` in the state it starts from. An invariant of the admitted steps holds at the
end of the run; a run under a stronger guard is a run under a weaker one. These two rules carry
every argument about a program that is first decomposed into elementary moves.
-/

/-- A finite run of admitted moves. -/
def Steps {S L : Type*} (move : L → S → S → Prop) (guard : S → L → Prop) : S → S → Prop :=
  Relation.ReflTransGen fun s t => ∃ label, guard s label ∧ move label s t

namespace Steps

variable {S L : Type*} {move : L → S → S → Prop} {guard other : S → L → Prop} {s t u : S} {step : S → L → Option S}
  {check : S → L → Bool} {labels : List L}

theorem refl : Steps move guard s s :=
  Relation.ReflTransGen.refl

theorem refl_of_eq (same : s = t) : Steps move guard s t :=
  same ▸ refl

theorem single {label : L} (admitted : guard s label) (step : move label s t) : Steps move guard s t :=
  Relation.ReflTransGen.single ⟨label, admitted, step⟩

theorem trans (left : Steps move guard s t) (right : Steps move guard t u) : Steps move guard s u :=
  Relation.ReflTransGen.trans left right

/-- Runs under a guard are runs under every weaker guard. -/
theorem mono (weaker : ∀ s label, guard s label → other s label) (steps : Steps move guard s t) :
    Steps move other s t := by
  induction steps with
  | refl => exact refl
  | tail _ step ih =>
    obtain ⟨label, admitted, moved⟩ := step
    exact trans ih (single (weaker _ _ admitted) moved)

/-- Runs of a relation are runs of every larger one. -/
theorem mono_move {larger : L → S → S → Prop} (included : ∀ label s t, move label s t → larger label s t)
    (steps : Steps move guard s t) : Steps larger guard s t := by
  induction steps with
  | refl => exact refl
  | tail _ step ih =>
    obtain ⟨label, admitted, moved⟩ := step
    exact trans ih (single admitted (included _ _ _ moved))

/-- What every admitted step preserves, the run preserves. -/
theorem preserves (holds : S → Prop) (step : ∀ s t label, guard s label → move label s t → holds s → holds t)
    (steps : Steps move guard s t) (initial : holds s) : holds t := by
  induction steps with
  | refl => exact initial
  | tail _ last ih =>
    obtain ⟨label, admitted, moved⟩ := last
    exact step _ _ label admitted moved ih

/-- A fold is a run when each of its rounds is one, as seen through a view of the accumulator. -/
theorem foldl {W β : Type*} (view : W → S) (holds : W → Prop) {round : W → β → W} {l : List β} {w : W}
    (each : ∀ w b, b ∈ l → holds w → holds (round w b) ∧ Steps move guard (view w) (view (round w b)))
    (initial : holds w) : holds (l.foldl round w) ∧ Steps move guard (view w) (view (l.foldl round w)) := by
  induction l generalizing w with
  | nil => exact ⟨initial, refl⟩
  | cons b rest ih =>
    obtain ⟨after, first⟩ := each w b (.head _) initial
    obtain ⟨final, others⟩ := ih (fun v d member => each v d (.tail b member)) after
    exact ⟨final, first.trans others⟩

/-- A monadic fold of a partial step function over labels that are admitted where a check passes is a run. -/
theorem of_checked (admitted : ∀ label ∈ labels, ∀ s, check s label = true → guard s label)
    (run : labels.foldlM (fun s label => if check s label then step s label else none) s = some t) :
    Steps (fun label s t => step s label = some t) guard s t := by
  induction labels generalizing s with
  | nil => exact refl_of_eq (Option.some.inj run)
  | cons label rest ih =>
    rw [List.foldlM_cons, Option.bind_eq_bind, Option.bind_eq_some_iff] at run
    obtain ⟨u, first, others⟩ := run
    split at first
    · rename_i passed
      have head : Steps (fun label s t => step s label = some t) guard s u :=
        single (admitted label (.head _) s passed) first
      exact trans head (ih (fun other member => admitted other (.tail label member)) others)
    · cases first

/-- A run that can be replayed leads to a state, of which facts can be checked. -/
theorem exists_replay (guard : S → L → Prop) (step : S → L → Option S) (check : S → L → Bool) (labels : List L) (s : S)
    (facts : S → Prop) [DecidablePred facts] (admitted : ∀ label ∈ labels, ∀ s, check s label = true → guard s label)
    (replayed : (labels.foldlM (fun s label => if check s label then step s label else none) s).any
      (fun t => decide (facts t)) = true) : ∃ t, Steps (fun label s t => step s label = some t) guard s t ∧
      facts t := by
  obtain ⟨t, run, reached⟩ := (Option.any_eq_true _ _).mp replayed
  exact ⟨t, of_checked admitted run, of_decide_eq_true reached⟩

end Steps
