import Superseedr.Model.OfflineMove

/-! # Operations on the file store

What every operation does to the contents, stated for all locations at once. A new file has an inode of
its own, so that writing to it changes no other file.
-/

namespace Superseedr.FileStore

open Function

variable {L : Type} (store : FileStore L) {loc : L} {inode : ℕ} {bytes : Bytes} {locs : List L}

theorem content_of_file (known : store.entry loc = some (.file inode)) :
    store.content loc = some (store.data inode) := by
  rw [content, known]

theorem exists_inode (known : store.content loc = some bytes) :
    ∃ inode, store.entry loc = some (.file inode) ∧ store.data inode = bytes := by
  rw [content] at known
  cases node : store.entry loc with
  | none => rw [node] at known; cases known
  | some kind =>
    cases kind with
    | directory => rw [node] at known; cases known
    | file inode => rw [node] at known; exact ⟨inode, rfl, Option.some.inj known⟩

theorem isSome_entry (known : store.content loc = some bytes) : (store.entry loc).isSome := by
  obtain ⟨inode, named, -⟩ := store.exists_inode known
  rw [named]
  rfl

theorem content_of_none (missing : store.entry loc = none) : store.content loc = none := by
  rw [content, missing]

variable {store} in
theorem content_congr {other : FileStore L} (entry : other.entry loc = store.entry loc)
    (data : other.data = store.data) : other.content loc = store.content loc := by
  rw [content, content, entry, data]

variable [DecidableEq L]

@[simp] theorem content_create (bytes : Bytes) :
    (store.create loc bytes).content = Function.update store.content loc (some bytes) := by
  funext other
  by_cases same : other = loc
  · rw [same, update_self, content_of_file _ (update_self ..)]
    exact congrArg some (update_self ..)
  rw [update_of_ne same]
  have entry : (store.create loc bytes).entry other = store.entry other := update_of_ne same _ _
  rw [content, content, entry]
  cases node : store.entry other with
  | none => rfl
  | some kind =>
    cases kind with
    | directory => rfl
    | file inode =>
      have older : inode ≠ store.nextInode := (store.bounded other inode node).ne
      exact congrArg some (update_of_ne older _ _)

@[simp] theorem content_remove : (store.remove loc).content = Function.update store.content loc none := by
  funext other
  by_cases same : other = loc
  · rw [same, update_self]
    exact content_of_none _ (update_self ..)
  · rw [update_of_ne same]
    exact content_congr (update_of_ne same _ _) rfl

theorem content_mkdir (missing : store.entry loc = none) : (store.mkdir loc).content = store.content := by
  funext other
  by_cases same : other = loc
  · have directory : (store.mkdir loc).entry loc = some .directory := update_self ..
    rw [same, content_of_none _ missing, content, directory]
  · exact content_congr (update_of_ne same _ _) rfl

theorem content_removeDir (directory : store.entry loc = some .directory) :
    (store.remove loc).content = store.content := by
  rw [content_remove, update_eq_self_iff, content, directory]

theorem content_mkdirs (locs : List L) : (mkdirs locs store).1.content = store.content := by
  induction locs generalizing store with
  | nil => rfl
  | cons loc locs ih =>
    rw [mkdirs]
    cases node : store.entry loc with
    | none => exact (ih (store.mkdir loc)).trans (store.content_mkdir node)
    | some kind =>
      cases kind with
      | directory => exact ih store
      | file inode => rfl

/-- Creating directories leaves every other place alone. -/
theorem entry_mkdirs_of_notMem (apart : loc ∉ locs) : (mkdirs locs store).1.entry loc = store.entry loc := by
  induction locs generalizing store with
  | nil => rfl
  | cons dir locs ih =>
    rw [List.mem_cons, not_or] at apart
    rw [mkdirs]
    cases node : store.entry dir with
    | some kind =>
      cases kind with
      | directory => exact ih store apart.2
      | file inode => rfl
    | none => exact (ih (store.mkdir dir) apart.2).trans (update_of_ne apart.1 _ _)

end Superseedr.FileStore
