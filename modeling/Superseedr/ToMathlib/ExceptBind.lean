import Mathlib.Data.List.Forall2

/-! # Computations that succeed

A successful computation is taken apart into the computations it is made of.
-/

namespace Except

variable {ε α β : Type}

theorem bind_eq_ok {attempt : Except ε α} {next : α → Except ε β} {result : β} :
    attempt >>= next = .ok result ↔ ∃ value, attempt = .ok value ∧ next value = .ok result := by
  constructor
  · intro found
    cases attempt with
    | ok value => exact ⟨value, rfl, found⟩
    | error error => exact nomatch found
  · rintro ⟨value, rfl, found⟩
    exact found

theorem mapM_eq_ok {f : α → Except ε β} {l : List α} {results : List β} :
    l.mapM f = .ok results ↔ List.Forall₂ (fun a b => f a = .ok b) l results := by
  induction l generalizing results with
  | nil =>
    rw [List.mapM_nil, List.forall₂_nil_left_iff]
    exact ⟨fun same => (Except.ok.inj same).symm, fun same => same ▸ rfl⟩
  | cons a l ih =>
    rw [List.mapM_cons, bind_eq_ok, List.forall₂_cons_left_iff]
    constructor
    · rintro ⟨b, first, rest⟩
      obtain ⟨bs, others, same⟩ := bind_eq_ok.mp rest
      exact ⟨b, bs, first, ih.mp others, (Except.ok.inj same).symm⟩
    · rintro ⟨b, bs, first, others, rfl⟩
      exact ⟨b, first, bind_eq_ok.mpr ⟨bs, ih.mpr others, rfl⟩⟩

theorem option_mapM_eq_ok {f : α → Except ε β} {value : Option α} {result : Option β} :
    value.mapM f = .ok result ↔
      match value with
      | none => result = none
      | some a => ∃ b, f a = .ok b ∧ result = some b := by
  cases value with
  | none => exact ⟨fun same => (Except.ok.inj same).symm, fun same => same ▸ rfl⟩
  | some a =>
    change (f a >>= fun b => .ok (some b)) = .ok result ↔ _
    rw [bind_eq_ok]
    constructor
    · rintro ⟨b, found, same⟩
      exact ⟨b, found, (Except.ok.inj same).symm⟩
    · rintro ⟨b, found, rfl⟩
      exact ⟨b, found, rfl⟩

end Except
