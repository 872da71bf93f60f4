import Superseedr.Model.Disk

/-! # Reads from disk

A read that succeeds returns as many bytes as were asked for. The files of a layout follow one another in the
payload. A read inside the payload then succeeds whenever all files can be read, and returns the bytes that are
found at the positions of the payload. On a disk that holds nothing but zeros it returns zeros, and allocation keeps
such a disk.
-/

namespace Superseedr

open List Function

variable {offset count start stop middle : ℕ} {files more : List FileInfo} {layout : MultiFileInfo} {disk : Disk}
  {buffer data : Bytes} {file : FileInfo}

/-- A successful read returns as many bytes as were asked for. -/
theorem length_readFiles (read : readFiles disk offset count files buffer = some data) : data.length = count := by
  induction files generalizing buffer with
  | nil => cases read
  | cons file rest ih =>
    rw [readFiles] at read
    split at read
    · obtain ⟨chunk, -, read⟩ := Option.bind_eq_some_iff.mp read
      split at read
      case isTrue full =>
        cases read
        exact full
      case isFalse => exact ih read
    · exact ih read

theorem length_readDataFromDisk (read : readDataFromDisk disk layout offset count = some data) :
    data.length = count := by
  unfold readDataFromDisk at read
  split at read
  · exact length_readFiles read
  · cases read

/-- Files lie behind one another from one position of the payload to another. -/
def Consecutive : ℕ → List FileInfo → ℕ → Prop
  | start, [], stop => start = stop
  | start, file :: rest, stop => file.globalStartOffset = start ∧ Consecutive (start + file.length) rest stop

theorem Consecutive.le (consecutive : Consecutive start files stop) : start ≤ stop := by
  induction files generalizing start with
  | nil => exact Nat.le_of_eq consecutive
  | cons file rest ih => exact le_trans (Nat.le_add_right _ _) (ih consecutive.2)

theorem Consecutive.append (first : Consecutive start files middle) (second : Consecutive middle more stop) :
    Consecutive start (files ++ more) stop := by
  induction files generalizing start with
  | nil =>
    obtain rfl : start = middle := first
    exact second
  | cons file rest ih => exact ⟨first.1, ih first.2⟩

/-- Every file lies between the two positions. -/
theorem Consecutive.bounds (consecutive : Consecutive start files stop) (listed : file ∈ files) :
    start ≤ file.globalStartOffset ∧ file.globalStartOffset + file.length ≤ stop := by
  induction files generalizing start with
  | nil => cases listed
  | cons first rest ih =>
    obtain ⟨rfl, others⟩ := consecutive
    rcases mem_cons.mp listed with rfl | later
    · exact ⟨le_rfl, others.le⟩
    · exact ⟨le_trans (Nat.le_add_right _ _) (ih others later).1, (ih others later).2⟩

section Positions

/-- A byte of an entry. Behind the end of a file, and where there is no file, there are zeros. -/
def Entry.byte (l : ℕ) : Entry → UInt8
  | .file content => content.getD l 0
  | _ => 0

def FileInfo.byte (file : FileInfo) (disk : Disk) (l : ℕ) : UInt8 :=
  if file.isPadding then 0 else (disk file.path).byte l

/-- The file can be read and written: it is a padding file, there is a file at its path, or it is skipped and there is
nothing at its path. -/
def FileInfo.Ready (file : FileInfo) (disk : Disk) : Prop :=
  file.isPadding = true ∨ (∃ content, disk file.path = .file content) ∨
    file.isSkipped = true ∧ disk file.path = .missing

/-- The byte at a position of the payload. -/
def byteOf (disk : Disk) : List FileInfo → ℕ → UInt8
  | [], _ => 0
  | file :: rest, g =>
    if g < file.globalStartOffset + file.length then file.byte disk (g - file.globalStartOffset) else byteOf disk rest g

theorem map_range'_zero (first count : ℕ) : (range' first count).map (fun _ => (0 : UInt8)) = replicate count 0 := by
  rw [map_const', length_range']

theorem Entry.read_file (content : Bytes) (localOffset count : ℕ) :
    (Entry.file content).read localOffset count =
      some ((range' localOffset count).map fun l => (Entry.file content).byte l) := by
  rw [Entry.read, Option.some.injEq]
  refine ext_getElem ?_ fun i _ inside => ?_
  · simp only [length_append, length_take, length_drop, length_replicate, length_map, length_range']
    omega
  · rw [length_map, length_range'] at inside
    simp only [getElem_append, length_take, length_drop, getElem_take, getElem_drop,
      getElem_replicate, getElem_map, getElem_range', Entry.byte, Nat.one_mul,
      getD_eq_getElem?_getD]
    split_ifs with stored
    · rw [getElem?_eq_getElem (by omega), Option.getD_some]
    · rw [getElem?_eq_none (by omega), Option.getD_none]

theorem FileInfo.read_of_ready (ready : file.Ready disk) (localOffset count : ℕ) :
    file.read disk localOffset count = some ((range' localOffset count).map (file.byte disk)) := by
  unfold FileInfo.read FileInfo.byte
  split_ifs with padding skipped
  · rw [map_range'_zero]
  · rw [skipped.2]
    simp only [Entry.byte, map_range'_zero]
  rcases ready with isPadding | ⟨content, holds⟩ | missing
  · exact absurd isPadding padding
  · rw [holds, Entry.read_file]
  · exact absurd missing skipped

section FirstFile

variable {rest : List FileInfo} {g n : ℕ}

theorem map_byteOf_first (begun : file.globalStartOffset ≤ g) (within : g + n ≤ file.globalStartOffset + file.length) :
    (range' g n).map (byteOf disk (file :: rest)) = (range' (g - file.globalStartOffset) n).map (file.byte disk) := by
  have shifted : range' g n = (range' (g - file.globalStartOffset) n).map fun l => file.globalStartOffset + l := by
    rw [map_add_range', Nat.add_sub_cancel' begun]
  rw [shifted, map_map]
  refine map_congr_left fun l member => ?_
  rw [mem_range'_1] at member
  rw [comp_apply, byteOf, if_pos (by omega), Nat.add_sub_cancel_left]

theorem map_byteOf_rest (behind : file.globalStartOffset + file.length ≤ g) :
    (range' g n).map (byteOf disk (file :: rest)) = (range' g n).map (byteOf disk rest) := by
  refine map_congr_left fun position member => ?_
  rw [mem_range'_1] at member
  rw [byteOf, if_neg (by omega)]

end FirstFile

theorem readFiles_of_ready (consecutive : Consecutive start files stop) (small : stop < 2 ^ 64)
    (ready : ∀ file ∈ files, file.Ready disk) (begun : start ≤ offset + buffer.length)
    (more : offset + buffer.length < stop) (most : buffer.length ≤ count) (inside : offset + count ≤ stop) :
    readFiles disk offset count files buffer =
      some (buffer ++ (range' (offset + buffer.length) (count - buffer.length)).map (byteOf disk files)) := by
  induction files generalizing start buffer with
  | nil =>
    obtain rfl : start = stop := consecutive
    omega
  | cons file rest ih =>
    obtain ⟨rfl, others⟩ := consecutive
    have fileEnd : u64 (file.globalStartOffset + file.length) = file.globalStartOffset + file.length :=
      u64_of_lt (lt_of_le_of_lt others.le small)
    have readStart : u64 (offset + buffer.length) = offset + buffer.length := u64_of_lt (by omega)
    have readyRest : ∀ later ∈ rest, later.Ready disk := fun later member => ready later (.tail _ member)
    rw [readFiles]
    simp only [fileEnd, readStart]
    by_cases reaches : offset + buffer.length < file.globalStartOffset + file.length
    · rw [if_pos ⟨reaches, by omega⟩]
      generalize isCount : min (count - buffer.length)
        (file.length - (offset + buffer.length - file.globalStartOffset)) = n
      have chunk : (if n > 0 then file.read disk (offset + buffer.length - file.globalStartOffset) n else some []) =
          some ((range' (offset + buffer.length) n).map (byteOf disk (file :: rest))) := by
        rw [map_byteOf_first begun (by omega)]
        split_ifs with some
        · exact FileInfo.read_of_ready (ready file (.head _)) ..
        · rw [Nat.eq_zero_of_not_pos some]
          rfl
      rw [chunk, Option.bind_some]
      simp only [length_append, length_map, length_range']
      split_ifs with full
      · rw [show count - buffer.length = n by omega]
      have longer : (buffer ++ (range' (offset + buffer.length) n).map (byteOf disk (file :: rest))).length =
          buffer.length + n := by
        rw [length_append, length_map, length_range']
      have behind : file.globalStartOffset + file.length ≤ offset + (buffer.length + n) := by omega
      rw [ih others readyRest (by omega) (by omega) (by omega), longer, ← map_byteOf_rest behind,
        append_assoc, ← map_append, ← Nat.add_assoc, range'_append_1,
        show n + (count - (buffer.length + n)) = count - buffer.length by omega]
    · rw [if_neg fun both => reaches both.1, ih others readyRest (by omega) more most,
        map_byteOf_rest (Nat.not_lt.mp reaches)]

theorem validateIoSpan_of_le (small : layout.totalSize < 2 ^ 64) (inside : offset + count ≤ layout.totalSize) :
    validateIoSpan layout offset count = true := by
  simp only [validateIoSpan, Bool.and_eq_true, decide_eq_true_eq]
  omega

/-- A read inside the payload returns the bytes at its positions. It must not start at the very end. -/
theorem readDataFromDisk_of_ready (consecutive : Consecutive 0 layout.files layout.totalSize)
    (small : layout.totalSize < 2 ^ 64) (ready : ∀ file ∈ layout.files, file.Ready disk)
    (more : offset < layout.totalSize) (inside : offset + count ≤ layout.totalSize) :
    readDataFromDisk disk layout offset count =
      some ((range' offset count).map (byteOf disk layout.files)) := by
  rw [readDataFromDisk, if_pos (validateIoSpan_of_le small inside),
    readFiles_of_ready consecutive small ready (Nat.zero_le _) more (Nat.zero_le _) inside]
  rfl

end Positions

def Disk.Zeroed (disk : Disk) : Prop := ∀ path, ∃ n, disk path = .file (replicate n 0)

namespace Disk.Zeroed

variable (zeroed : disk.Zeroed)
include zeroed

theorem ready (file : FileInfo) : file.Ready disk := by
  obtain ⟨n, holds⟩ := zeroed file.path
  exact .inr (.inl ⟨_, holds⟩)

theorem byteOf_eq (files : List FileInfo) (g : ℕ) : byteOf disk files g = 0 := by
  induction files with
  | nil => rfl
  | cons file rest ih =>
    obtain ⟨n, holds⟩ := zeroed file.path
    have nothing : (replicate n (0 : UInt8)).getD (g - file.globalStartOffset) 0 = 0 := by
      rw [getD_eq_getElem?_getD, getElem?_replicate]
      split_ifs <;> rfl
    rw [byteOf, ih, FileInfo.byte, holds, Entry.byte, nothing, ite_self, ite_self]

theorem readDataFromDisk_eq (consecutive : Consecutive 0 layout.files layout.totalSize)
    (small : layout.totalSize < 2 ^ 64) (nonempty : 0 < count) (inside : offset + count ≤ layout.totalSize) :
    readDataFromDisk disk layout offset count = some (replicate count 0) := by
  rw [readDataFromDisk_of_ready consecutive small (fun file _ => zeroed.ready file) (by omega) inside,
    funext (zeroed.byteOf_eq layout.files), map_range'_zero]

theorem update (path : String) (n : ℕ) : Disk.Zeroed (update disk path (.file (replicate n 0))) := by
  intro other
  rw [update_apply]
  split_ifs
  · exact ⟨n, rfl⟩
  · exact zeroed other

theorem allocate (path : String) (isFresh : Bool) (len : ℕ) :
    ∃ n, (disk path).allocate isFresh len = some (.file (replicate n 0)) := by
  obtain ⟨n, holds⟩ := zeroed path
  have cut : setLen len (replicate n (0 : UInt8)) = replicate len 0 := by
    simp only [setLen, take_replicate, length_replicate, replicate_append_replicate]
    congr 1
    omega
  rw [holds, Entry.allocate, cut]
  split_ifs
  · exact ⟨len, rfl⟩
  · exact ⟨n, rfl⟩

theorem allocateAll (isFresh : Bool) (files : List FileInfo) :
    ∃ allocated, Disk.Zeroed allocated ∧ files.foldlM (fun (disk : Disk) file =>
      ((disk file.path).allocate isFresh file.length).map (Function.update disk file.path)) disk = some allocated := by
  induction files generalizing disk with
  | nil => exact ⟨disk, zeroed, rfl⟩
  | cons file rest ih =>
    obtain ⟨n, allocated⟩ := zeroed.allocate file.path isFresh file.length
    obtain ⟨final, kept, run⟩ := ih (zeroed.update file.path n)
    refine ⟨final, kept, ?_⟩
    rw [foldlM_cons, allocated]
    exact run

end Disk.Zeroed

def zeroDisk : Disk := fun _ => .file [0]

theorem createAndAllocateFiles_zeroDisk (listed : file ∈ layout.files) (real : file.isPadding = false) :
    ∃ disk, Disk.Zeroed disk ∧ createAndAllocateFiles zeroDisk layout = some (disk, false) := by
  have zeroed : Disk.Zeroed zeroDisk := fun _ => ⟨1, rfl⟩
  have present : ∀ files : List FileInfo,
      files.mapM (fun file => (zeroDisk file.path).hasData) = some (files.map fun _ => true) := by
    intro files
    induction files with
    | nil => rfl
    | cons first rest ih =>
      rw [mapM_cons, ih]
      rfl
  have found : ((layout.files.filter fun file => !file.isPadding).map fun _ => true).any id = true := by
    rw [any_map, any_eq_true]
    exact ⟨file, mem_filter.mpr ⟨listed, by simp [real]⟩, rfl⟩
  obtain ⟨allocated, kept, run⟩ := zeroed.allocateAll false
    (layout.files.filter fun file => !file.isPadding && !file.isSkipped)
  refine ⟨allocated, kept, ?_⟩
  rw [createAndAllocateFiles, present]
  simp only [Option.bind_eq_bind, Option.bind_some, found, Bool.not_true]
  rw [run]
  rfl

end Superseedr
