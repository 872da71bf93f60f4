import Mathlib.Data.List.Forall2

/-! # Decoding a stream that arrives in pieces

A decoder looks at the front of a buffer and finds an item, asks for more input, or gives up. A receiver
appends what arrives to its buffer and takes items off the front as long as the decoder finds one. If the
stream is a sequence of frames, the receiver finds their items whatever the pieces are.
-/

universe u v w

/-- A decoder for the front of a buffer. What it finds it consumes, and an empty buffer is not enough. -/
structure Decoder (β : Type u) (α : Type v) (ε : Type w) where
  decode : List β → Except ε (α × ℕ)
  /-- Whether an error only asks for more input. -/
  incomplete : ε → Bool
  progress : ∀ buffer item consumed, decode buffer = .ok (item, consumed) → 0 < consumed ∧ consumed ≤ buffer.length
  starved : ∃ e, decode [] = .error e ∧ incomplete e = true

namespace Decoder

open List

variable {β : Type u} {α : Type v} {ε : Type w} (d : Decoder β α ε) {buffer : List β}

/-- The items at the front of a buffer, what is left of it, and the error that ended the search unless it only asks
for more input. -/
def drain (buffer : List β) : List α × List β × Option ε :=
  match _found : d.decode buffer with
  | .ok (item, consumed) =>
    let (items, rest, failure) := drain (buffer.drop consumed)
    (item :: items, rest, failure)
  | .error e => ([], buffer, if d.incomplete e then none else some e)
termination_by buffer.length
decreasing_by
  have := d.progress buffer item consumed _found
  rw [List.length_drop]
  omega

theorem drain_of_ok {item : α} {consumed : ℕ} (found : d.decode buffer = .ok (item, consumed)) :
    d.drain buffer = (item :: (d.drain (buffer.drop consumed)).1, (d.drain (buffer.drop consumed)).2) := by
  rw [drain]
  split
  · rename_i other count same
    obtain ⟨rfl, rfl⟩ := Prod.mk.inj (Except.ok.inj (same.symm.trans found))
    rfl
  · rename_i e same
    cases same.symm.trans found

theorem drain_of_incomplete {e : ε} (failed : d.decode buffer = .error e) (more : d.incomplete e = true) :
    d.drain buffer = ([], buffer, none) := by
  rw [drain]
  split
  · rename_i same
    cases same.symm.trans failed
  · rename_i other same
    obtain rfl := Except.error.inj (same.symm.trans failed)
    rw [if_pos more]

structure Frame (frame : List β) (item : α) : Prop where
  whole : ∀ rest, d.decode (frame ++ rest) = .ok (item, frame.length)
  part : ∀ front back, frame = front ++ back → back ≠ [] → ∃ e, d.decode front = .error e ∧ d.incomplete e = true

/-- A receiver: what it has not decoded yet, what it has found, and why it stopped. -/
structure Receiver (β : Type u) (α : Type v) (ε : Type w) where
  buffer : List β
  items : List α
  failure : Option ε

def receive (r : Receiver β α ε) (input : List β) : Receiver β α ε :=
  match r.failure with
  | some _ => r
  | none =>
    let (items, rest, failure) := d.drain (r.buffer ++ input)
    ⟨rest, r.items ++ items, failure⟩

variable {d} {frames : List (List β)} {items : List α}

/-- Searching a buffer that is the front of a sequence of frames stops inside or between frames, and at the end of the
sequence only if nothing is to come. -/
theorem drain_frames (framed : List.Forall₂ d.Frame frames items) {later : List β}
    (stream : buffer ++ later = frames.flatten) :
    ∃ found rest remaining frames', d.drain buffer = (found, rest, none) ∧ items = found ++ remaining ∧
      List.Forall₂ d.Frame frames' remaining ∧ rest ++ later = frames'.flatten ∧
      (later = [] → rest = [] ∧ remaining = []) := by
  induction framed generalizing buffer with
  | nil =>
    obtain ⟨rfl, rfl⟩ := append_eq_nil_iff.mp stream
    obtain ⟨e, failed, more⟩ := d.starved
    exact ⟨[], [], [], [], d.drain_of_incomplete failed more, rfl, .nil, rfl, fun _ => ⟨rfl, rfl⟩⟩
  | @cons frame item frames items isFrame framed ih =>
    rw [flatten_cons] at stream
    rcases append_eq_append_iff.mp stream with ⟨back, split, rest⟩ | ⟨tail, split, rest⟩
    · by_cases nothing : back = []
      · -- The buffer ends with the frame.
        subst nothing
        rw [append_nil] at split
        obtain ⟨found, left, remaining, frames', drained, same, framed', stream', done⟩ :=
          ih (show [] ++ later = frames.flatten from rest)
        refine ⟨item :: found, left, remaining, frames', ?_, by rw [same, cons_append], framed', stream', done⟩
        have decoded := isFrame.whole []
        rw [append_nil, split] at decoded
        rw [d.drain_of_ok decoded, drop_length, drained]
      · obtain ⟨e, failed, more⟩ := isFrame.part buffer back split nothing
        refine ⟨[], buffer, item :: items, frame :: frames, d.drain_of_incomplete failed more, rfl,
          .cons isFrame framed, by rwa [flatten_cons], ?_⟩
        rintro rfl
        exact absurd (append_eq_nil_iff.mp rest.symm).1 nothing
    · obtain ⟨found, left, remaining, frames', drained, same, framed', stream', done⟩ := ih rest.symm
      refine ⟨item :: found, left, remaining, frames', ?_, by rw [same, cons_append], framed', stream', done⟩
      have decoded := isFrame.whole tail
      rw [← split] at decoded
      rw [d.drain_of_ok decoded, split, drop_left, drained]

theorem receive_frames {before : List α} (framed : List.Forall₂ d.Frame frames items) {inputs : List (List β)}
    (stream : buffer ++ inputs.flatten = frames.flatten) (drained : inputs = [] → buffer = [] ∧ items = []) :
    inputs.foldl d.receive ⟨buffer, before, none⟩ = ⟨[], before ++ items, none⟩ := by
  induction inputs generalizing buffer before frames items with
  | nil =>
    obtain ⟨rfl, rfl⟩ := drained rfl
    rw [append_nil]
    rfl
  | cons input inputs ih =>
    rw [flatten_cons, ← append_assoc] at stream
    obtain ⟨found, rest, remaining, frames', search, rfl, framed', stream', done⟩ := drain_frames framed stream
    have step : d.receive ⟨buffer, before, none⟩ input = ⟨rest, before ++ found, none⟩ := by
      simp only [receive, search]
    rw [foldl_cons, step, ih framed' stream' (fun last => done (by rw [last, flatten_nil])), append_assoc]

theorem Frame.ne_nil {frame : List β} {item : α} (isFrame : d.Frame frame item) : frame ≠ [] := by
  rintro rfl
  obtain ⟨e, failed, -⟩ := d.starved
  cases failed.symm.trans (isFrame.whole [])

/-- However a sequence of frames is cut, the receiver finds exactly its items and has nothing left over. -/
theorem receive_all (framed : List.Forall₂ d.Frame frames items) {inputs : List (List β)}
    (stream : inputs.flatten = frames.flatten) : inputs.foldl d.receive ⟨[], [], none⟩ = ⟨[], items, none⟩ := by
  refine receive_frames framed stream ?_
  rintro rfl
  refine ⟨rfl, ?_⟩
  cases framed with
  | nil => rfl
  | cons isFrame _ => exact absurd (append_eq_nil_iff.mp stream.symm).1 isFrame.ne_nil

end Decoder
