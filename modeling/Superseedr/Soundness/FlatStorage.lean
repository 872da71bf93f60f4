import Mathlib.Algebra.BigOperators.Fin
import Mathlib.Data.Fintype.BigOperators
import Superseedr.Model.Paths
import Superseedr.Soundness.DiskReads

/-! # The payload as one array of bytes

Files that lie behind one another divide the positions of the payload among them. A write changes the bytes at
the positions it is for and no others, so that a read returns what was written last. Reads and writes of no
bytes fail at the very end of the payload, although the check of the span lets them pass. Layouts whose
lengths do not add up below 2^64 do not divide the payload.
-/

namespace Superseedr

open List MultiFileInfo FileInfo Option Function

variable {slice data : Bytes} {localOffset l start stop offset length : ℕ} {file : FileInfo}
  {rootDir torrentName : String} {filePriorities : ℕ → Option FilePriority} {entries : List (InfoFile × ℕ)}

section WriteAt

variable {content : Bytes}

theorem getD_writeAt :
    (writeAt content localOffset slice).getD l 0 =
      if localOffset ≤ l ∧ l < localOffset + slice.length then slice.getD (l - localOffset) 0
      else content.getD l 0 := by
  have front : (content.take localOffset ++ replicate (localOffset - content.length) (0 : UInt8)).length =
      localOffset := by
    rw [length_append, length_take, length_replicate]
    omega
  simp only [getD_eq_getElem?_getD, writeAt]
  split_ifs with written
  · rw [append_assoc, getElem?_append_right (by omega), front, getElem?_append_left (by omega)]
  rcases Nat.lt_or_ge l localOffset with before | after
  · rw [append_assoc, getElem?_append_left (by omega), getElem?_append]
    split_ifs with stored
    · rw [getElem?_take_of_lt before]
    · rw [length_take] at stored
      rw [getElem?_replicate, getElem?_eq_none (by omega)]
      split_ifs <;> rfl
  · rw [getElem?_append_right (by rw [length_append, front]; omega), length_append, front, getElem?_drop]
    congr 2
    omega

theorem Entry.byte_write {entry written : Entry} (run : entry.write localOffset slice = some written) :
    written.byte l =
      if localOffset ≤ l ∧ l < localOffset + slice.length then slice.getD (l - localOffset) 0 else entry.byte l := by
  cases entry with
  | missing =>
    cases run
    exact getD_writeAt
  | file content =>
    cases run
    exact getD_writeAt
  | directory len => cases run
  | broken => cases run

end WriteAt

section OneFile

variable {disk written : Disk}

theorem FileInfo.byte_congr (same : written file.path = disk file.path) : file.byte written l = file.byte disk l := by
  rw [byte, byte, same]

theorem FileInfo.Ready.congr (ready : file.Ready disk) (same : written file.path = disk file.path) :
    file.Ready written := by
  rwa [Ready, same]

theorem FileInfo.write_of_ready (ready : file.Ready disk) (localOffset : ℕ) (slice : Bytes) :
    ∃ written, file.write disk localOffset slice = some written ∧ file.Ready written ∧
      (∀ path, path ≠ file.path → written path = disk path) ∧
      ∀ l, file.byte written l =
        if file.isPadding = false ∧ localOffset ≤ l ∧ l < localOffset + slice.length then slice.getD (l - localOffset) 0
        else file.byte disk l := by
  unfold write
  split_ifs with padding
  · exact ⟨disk, rfl, ready, fun _ _ => rfl, fun l => by rw [if_neg (by simp [padding])]⟩
  obtain ⟨content, entry⟩ : ∃ content, (disk file.path).write localOffset slice = some (.file content) := by
    rcases ready with isPadding | ⟨content, holds⟩ | ⟨-, missing⟩
    · exact absurd isPadding padding
    · exact ⟨_, by rw [holds]; rfl⟩
    · exact ⟨_, by rw [missing]; rfl⟩
  refine ⟨_, by rw [entry]; rfl, .inr (.inl ⟨content, update_self ..⟩), fun path other => ?_, fun l => ?_⟩
  · exact update_of_ne other ..
  · have bytes := Entry.byte_write (l := l) entry
    rw [byte, byte, if_neg padding, if_neg padding, update_self, bytes]
    simp only [Bool.not_eq_true] at padding
    simp only [padding, true_and]

end OneFile

section Loop

variable {done n : ℕ} {files : List FileInfo} {disk : Disk}

theorem writeChunk_of_ready (ready : file.Ready disk) (begun : file.globalStartOffset ≤ offset + done)
    (most : done + n ≤ data.length) :
    ∃ written,
      (if n > 0 then file.write disk (offset + done - file.globalStartOffset) ((data.drop done).take n)
        else some disk) = some written ∧ file.Ready written ∧
      (∀ path, path ≠ file.path → written path = disk path) ∧
      ∀ l, file.byte written l =
        if file.isPadding = false ∧ offset + done ≤ file.globalStartOffset + l ∧
            file.globalStartOffset + l < offset + done + n then
          data.getD (file.globalStartOffset + l - offset) 0
        else file.byte disk l := by
  split_ifs with some
  · obtain ⟨written, run, stays, frame, bytes⟩ := write_of_ready ready
      (offset + done - file.globalStartOffset) ((data.drop done).take n)
    have size : ((data.drop done).take n).length = n := by
      rw [length_take, length_drop]
      omega
    refine ⟨written, run, stays, frame, fun l => ?_⟩
    rw [bytes, size]
    by_cases here : offset + done ≤ file.globalStartOffset + l ∧ file.globalStartOffset + l < offset + done + n
    · have position : ((data.drop done).take n).getD (l - (offset + done - file.globalStartOffset)) 0 =
          data.getD (file.globalStartOffset + l - offset) 0 := by
        rw [getD_eq_getElem?_getD, getD_eq_getElem?_getD, getElem?_take_of_lt (by omega), getElem?_drop]
        congr 2
        omega
      have inChunk : offset + done - file.globalStartOffset ≤ l ∧ l < offset + done - file.globalStartOffset + n := by
        omega
      simp only [here, inChunk, position, and_self]
    · have outside :
          ¬(offset + done - file.globalStartOffset ≤ l ∧ l < offset + done - file.globalStartOffset + n) := by
        omega
      rw [if_neg fun both => outside both.2, if_neg fun both => here both.2]
  · exact ⟨disk, rfl, ready, fun _ _ => rfl, fun l => by rw [if_neg (by omega)]⟩

def Overwrites (files : List FileInfo) (disk written : Disk) (offset : ℕ) (data : Bytes) (done : ℕ) : Prop :=
  ∀ file ∈ files, ∀ l, file.byte written l =
    if file.isPadding = false ∧ l < file.length ∧ offset + done ≤ file.globalStartOffset + l ∧
        file.globalStartOffset + l < offset + data.length then
      data.getD (file.globalStartOffset + l - offset) 0
    else file.byte disk l

theorem writeFiles_of_ready (consecutive : Consecutive start files stop) (small : stop < 2 ^ 64)
    (distinct : (files.map (·.path)).Nodup) (ready : ∀ file ∈ files, file.Ready disk) (begun : start ≤ offset + done)
    (more : offset + done < stop) (most : done ≤ data.length) (inside : offset + data.length ≤ stop) :
    ∃ written, writeFiles offset data files disk done = some written ∧ (∀ file ∈ files, file.Ready written) ∧
      (∀ path, path ∉ files.map (·.path) → written path = disk path) ∧
      Overwrites files disk written offset data done := by
  induction files generalizing start disk done with
  | nil =>
    obtain rfl : start = stop := consecutive
    omega
  | cons file rest ih =>
    obtain ⟨rfl, others⟩ := consecutive
    rw [map_cons, nodup_cons] at distinct
    have fileEnd : u64 (file.globalStartOffset + file.length) = file.globalStartOffset + file.length :=
      u64_of_lt (lt_of_le_of_lt others.le small)
    have writeStart : u64 (offset + done) = offset + done := u64_of_lt (by omega)
    have readyFirst : file.Ready disk := ready file (.head _)
    have readyRest : ∀ later ∈ rest, later.Ready disk := fun later member => ready later (.tail _ member)
    have differ : ∀ later ∈ rest, later.path ≠ file.path := fun later member same =>
      distinct.1 (same ▸ mem_map_of_mem member)
    rw [writeFiles]
    simp only [fileEnd, writeStart, map_cons, mem_cons, not_or, forall_eq_or_imp, Overwrites]
    by_cases reaches : offset + done < file.globalStartOffset + file.length
    · rw [if_pos ⟨reaches, by omega⟩]
      generalize isCount : min (data.length - done) (file.length - (offset + done - file.globalStartOffset)) = n
      obtain ⟨first, run, stays, frame, bytes⟩ := writeChunk_of_ready readyFirst begun
        (show done + n ≤ data.length by omega)
      have readyLater : ∀ later ∈ rest, later.Ready first := fun later member =>
        (readyRest later member).congr (frame _ (differ later member))
      rw [run, bind_some]
      split_ifs with full
      · -- All data is written, and what is left lies behind it.
        refine ⟨first, rfl, ⟨stays, readyLater⟩, fun path outside => frame path outside.1, fun l => ?_,
          fun later member l => ?_⟩
        · rw [bytes]
          congr 1
          exact propext (and_congr_right fun _ => by omega)
        · have behind := (others.bounds member).1
          rw [if_neg (by omega), byte_congr (frame _ (differ later member))]
      obtain ⟨written, rerun, kept, frameRest, bytesRest⟩ :=
        ih others distinct.2 readyLater (show _ ≤ offset + (done + n) by omega) (by omega) (by omega)
      have sameFirst : written file.path = first file.path := frameRest _ distinct.1
      refine ⟨written, rerun, ⟨stays.congr sameFirst, kept⟩, fun path outside => ?_, fun l => ?_,
        fun later member l => ?_⟩
      · rw [frameRest path outside.2, frame path outside.1]
      · rw [byte_congr sameFirst, bytes]
        congr 1
        exact propext (and_congr_right fun _ => by omega)
      · have behind := (others.bounds member).1
        rw [bytesRest later member, byte_congr (frame _ (differ later member))]
        congr 1
        exact propext (and_congr_right fun _ => by omega)
    · rw [if_neg fun both => reaches both.1]
      obtain ⟨written, run, kept, frame, bytes⟩ := ih others distinct.2 readyRest (by omega) more most
      have sameFirst : written file.path = disk file.path := frame _ distinct.1
      refine ⟨written, run, ⟨readyFirst.congr sameFirst, kept⟩, fun path outside => frame path outside.2, fun l => ?_,
        bytes⟩
      rw [byte_congr sameFirst, if_neg (by omega)]

end Loop

section AtTheEnd

variable {files : List FileInfo} (ends : ∀ file ∈ files, file.globalStartOffset + file.length ≤ stop)
  (small : stop < 2 ^ 64) (disk : Disk)
include ends small disk

/-- A read that starts at the very end finds no file. -/
theorem readFiles_at_end (count : ℕ) (buffer : Bytes) : readFiles disk stop count files buffer = none := by
  induction files generalizing buffer with
  | nil => rfl
  | cons file rest ih =>
    have fileEnd := ends file (.head _)
    rw [readFiles]
    simp only [u64_of_lt (lt_of_le_of_lt fileEnd small)]
    rw [if_neg (by omega), ih fun later member => ends later (.tail _ member)]

/-- A write that starts at the very end finds no file. -/
theorem writeFiles_at_end (data : Bytes) (done : ℕ) : writeFiles stop data files disk done = none := by
  induction files generalizing done with
  | nil => rfl
  | cons file rest ih =>
    have fileEnd := ends file (.head _)
    rw [writeFiles]
    simp only [u64_of_lt (lt_of_le_of_lt fileEnd small)]
    rw [if_neg (by omega), ih fun later member => ends later (.tail _ member)]

end AtTheEnd

section Places

variable {g : ℕ} {files : List FileInfo} {disk : Disk}

/-- A position of the payload belongs to a byte of a file, given by the index of the file and the offset in it. -/
def BelongsTo (files : List FileInfo) (g : ℕ) (place : ℕ × ℕ) : Prop :=
  ∃ file, files[place.1]? = some file ∧ place.2 < file.length ∧ file.globalStartOffset + place.2 = g

/-- Files that lie behind one another divide the positions among them. -/
theorem Consecutive.existsUnique_place (consecutive : Consecutive start files stop) (first : start ≤ g)
    (last : g < stop) : ∃! place, BelongsTo files g place := by
  induction files generalizing start with
  | nil =>
    obtain rfl : start = stop := consecutive
    omega
  | cons file rest ih =>
    obtain ⟨rfl, others⟩ := consecutive
    by_cases here : g < file.globalStartOffset + file.length
    · refine ⟨(0, g - file.globalStartOffset), ⟨file, rfl, by dsimp only; omega, by dsimp only; omega⟩, ?_⟩
      rintro ⟨i, l⟩ ⟨other, listed, within, same⟩
      cases i with
      | zero =>
        obtain rfl : file = other := some.inj listed
        rw [Prod.mk.injEq]
        omega
      | succ i =>
        have behind := (others.bounds (mem_of_getElem? (show rest[i]? = some other from listed))).1
        omega
    · obtain ⟨⟨i, l⟩, ⟨other, listed, within, same⟩, unique⟩ := ih others (by omega)
      refine ⟨(i + 1, l), ⟨other, listed, within, same⟩, ?_⟩
      rintro ⟨j, m⟩ ⟨another, listedToo, withinToo, sameToo⟩
      cases j with
      | zero =>
        obtain rfl : file = another := some.inj listedToo
        omega
      | succ j =>
        obtain ⟨rfl, rfl⟩ := Prod.mk.inj (unique (j, m) ⟨another, listedToo, withinToo, sameToo⟩)
        rfl

theorem byteOf_of_mem (consecutive : Consecutive start files stop) (listed : file ∈ files) (within : l < file.length) :
    byteOf disk files (file.globalStartOffset + l) = file.byte disk l := by
  induction files generalizing start with
  | nil => cases listed
  | cons first rest ih =>
    obtain ⟨rfl, others⟩ := consecutive
    rcases mem_cons.mp listed with rfl | later
    · rw [byteOf, if_pos (by omega), Nat.add_sub_cancel_left]
    · have behind := (others.bounds later).1
      rw [byteOf, if_neg (by omega), ih others later]

/-- Files that divide the positions below a size among them have no more bytes than that. -/
theorem sum_length_le {size : ℕ} (located : ∀ g < size, ∃! place, BelongsTo files g place)
    (covered : ∀ file ∈ files, ∀ l < file.length, file.globalStartOffset + l < size) :
    (files.map (·.length)).sum ≤ size := by
  let position : (Σ i : Fin files.length, Fin (files[i.1]).length) → Fin size := fun place =>
    ⟨files[place.1.1].globalStartOffset + place.2.1, covered _ (getElem_mem _) _ place.2.2⟩
  have injective : Injective position := by
    rintro ⟨i, l⟩ ⟨j, m⟩ same
    have equal := congrArg Fin.val same
    obtain ⟨_, -, unique⟩ := located _ (position ⟨i, l⟩).2
    have first := unique (i.1, l.1) ⟨files[i.1], getElem?_eq_getElem i.2, l.2, rfl⟩
    have second := unique (j.1, m.1) ⟨files[j.1], getElem?_eq_getElem j.2, m.2, equal.symm⟩
    obtain ⟨indices, offsets⟩ := Prod.mk.inj (first.trans second.symm)
    obtain rfl := Fin.ext indices
    obtain rfl := Fin.ext offsets
    rfl
  have count := Fintype.card_le_of_injective position injective
  rw [Fintype.card_sigma, Fintype.card_fin] at count
  simp only [Fintype.card_fin] at count
  rwa [Fin.sum_univ_fun_getElem] at count

end Places

section NewLayout

variable {layout : MultiFileInfo}

theorem sum_length_foldl_addFile (entries : List (InfoFile × ℕ)) (layout : MultiFileInfo) :
    ((entries.foldl (addFile rootDir filePriorities) layout).files.map (·.length)).sum =
      (layout.files.map (·.length)).sum + (entries.map fun entry => asU64 entry.1.length).sum := by
  induction entries generalizing layout with
  | nil => rfl
  | cons entry rest ih =>
    rw [foldl_cons, ih, map_cons, sum_cons, ← Nat.add_assoc]
    congr 1
    simp only [addFile, map_append, sum_append, map_cons, map_nil, sum_cons, sum_nil, Nat.add_zero]

theorem consecutive_foldl_addFile (consecutive : Consecutive 0 layout.files layout.totalSize)
    (fits : layout.totalSize + (entries.map fun entry => asU64 entry.1.length).sum < 2 ^ 64) :
    Consecutive 0 (entries.foldl (addFile rootDir filePriorities) layout).files
      (entries.foldl (addFile rootDir filePriorities) layout).totalSize := by
  induction entries generalizing layout with
  | nil => exact consecutive
  | cons entry rest ih =>
    rw [map_cons, sum_cons] at fits
    have size : (addFile rootDir filePriorities layout entry).totalSize =
        layout.totalSize + asU64 entry.1.length := u64_of_lt (by omega)
    refine ih ?_ (by omega)
    rw [size]
    exact consecutive.append ⟨rfl, rfl⟩

theorem totalSize_foldl_addFile (small : layout.totalSize < 2 ^ 64) :
    (entries.foldl (addFile rootDir filePriorities) layout).totalSize < 2 ^ 64 := by
  induction entries generalizing layout with
  | nil => exact small
  | cons entry rest ih => exact ih (Nat.mod_lt _ (by decide))

variable {files : List InfoFile}

/-- The size of a layout is a 64-bit number. -/
theorem MultiFileInfo.totalSize_new_lt (small : length < 2 ^ 64) :
    (new rootDir torrentName files length filePriorities).totalSize < 2 ^ 64 := by
  unfold new
  split_ifs
  · exact totalSize_foldl_addFile (by decide)
  · exact small

/-- The files of a layout lie behind one another if their lengths add up to a 64-bit number. -/
theorem MultiFileInfo.consecutive_new
    (fits : ((new rootDir torrentName files length filePriorities).files.map (·.length)).sum < 2 ^ 64) :
    Consecutive 0 (new rootDir torrentName files length filePriorities).files
      (new rootDir torrentName files length filePriorities).totalSize := by
  unfold new at fits ⊢
  split_ifs at fits ⊢
  · rw [sum_length_foldl_addFile] at fits
    exact consecutive_foldl_addFile rfl fits
  · exact ⟨rfl, Nat.zero_add _⟩

end NewLayout

/-- The layout has its places on the disk. No path leads to or through the place of another file, in whatever spelling,
there is nothing but directories above a file, so that they can be made, and every file is ready. -/
structure MultiFileInfo.Placed (layout : MultiFileInfo) (disk : Disk) : Prop where
  apart : layout.files.Pairwise fun left right =>
    pathStartsWith left.path right.path = false ∧ pathStartsWith right.path left.path = false
  above : ∀ file ∈ layout.files, ∀ dir, pathStartsWith file.path dir = true → samePath dir file.path = false →
    disk dir = .missing ∨ ∃ len, disk dir = .directory len
  ready : ∀ file ∈ layout.files, file.Ready disk

namespace MultiFileInfo.Placed

variable {layout : MultiFileInfo} {disk written : Disk}

theorem distinct (placed : layout.Placed disk) : (layout.files.map (·.path)).Nodup := by
  refine pairwise_map.mpr (placed.apart.imp fun apart same => ?_)
  rw [same, pathStartsWith, isPrefixOf_iff_prefix.mpr prefix_rfl] at apart
  exact nomatch apart.1

theorem write (placed : layout.Placed disk) (ready : ∀ file ∈ layout.files, file.Ready written)
    (frame : ∀ path, path ∉ layout.files.map (·.path) → written path = disk path) : layout.Placed written where
  apart := placed.apart
  above file listed dir leads above := by
    rw [frame dir]
    · exact placed.above file listed dir leads above
    intro inside
    obtain ⟨other, among, rfl⟩ := mem_map.mp inside
    have symmetric : Std.Symm fun left right : FileInfo =>
        pathStartsWith left.path right.path = false ∧ pathStartsWith right.path left.path = false :=
          ⟨fun _ _ => And.symm⟩
    rcases eq_or_ne file other with rfl | differ
    · simp [samePath] at above
    · exact Bool.false_ne_true ((placed.apart.forall listed among differ).1.symm.trans leads)
  ready := ready

end MultiFileInfo.Placed

/-- What makes a layout on a disk one array of bytes, for one write and one read: every position belongs to one byte of
one file and every byte of a file has a position; the write and the read succeed; the read returns zeros at padding,
what was written where it was written, and what was there before elsewhere; and the write leaves every other byte and
every other file alone, and the layout in its places. -/
structure MultiFileInfo.Faithful (layout : MultiFileInfo) (disk : Disk) (offset : ℕ) (data : Bytes)
    (readOffset count : ℕ) : Prop where
  located : ∀ g < layout.totalSize, ∃! place, BelongsTo layout.files g place
  covered : ∀ file ∈ layout.files, ∀ l < file.length, file.globalStartOffset + l < layout.totalSize
  transfers : ∃ written bytes, writeDataToDisk disk layout offset data = some written ∧
    readDataFromDisk written layout readOffset count = some bytes ∧ bytes.length = count ∧
    (∀ file ∈ layout.files, ∀ l < file.length, readOffset ≤ file.globalStartOffset + l →
      file.globalStartOffset + l < readOffset + count →
        bytes.getD (file.globalStartOffset + l - readOffset) 0 =
          if file.isPadding then 0
          else if offset ≤ file.globalStartOffset + l ∧ file.globalStartOffset + l < offset + data.length then
            data.getD (file.globalStartOffset + l - offset) 0
          else file.byte disk l) ∧
    (∀ file ∈ layout.files, ∀ l,
      ¬(l < file.length ∧ offset ≤ file.globalStartOffset + l ∧ file.globalStartOffset + l < offset + data.length) →
        file.byte written l = file.byte disk l) ∧
    (∀ path, path ∉ layout.files.map (·.path) → written path = disk path) ∧ layout.Placed written

section Faithful

variable {layout : MultiFileInfo} {disk : Disk} {readOffset count : ℕ}

theorem validateIoSpan_le (valid : validateIoSpan layout offset count = true) : offset + count ≤ layout.totalSize := by
  simp only [validateIoSpan, Bool.and_eq_true, decide_eq_true_eq] at valid
  exact valid.2

theorem getD_map_byteOf (consecutive : Consecutive 0 layout.files layout.totalSize) (listed : file ∈ layout.files)
    (within : l < file.length) (first : readOffset ≤ file.globalStartOffset + l)
    (last : file.globalStartOffset + l < readOffset + count) :
    ((range' readOffset count).map (byteOf disk layout.files)).getD (file.globalStartOffset + l - readOffset) 0 =
      file.byte disk l := by
  rw [getD_eq_getElem?_getD, getElem?_map, getElem?_range' (by omega), map_some, getD_some, Nat.one_mul,
    Nat.add_sub_cancel' first, byteOf_of_mem consecutive listed within]

/-- Files that lie behind one another make an array of bytes. -/
theorem MultiFileInfo.Faithful.of_consecutive (consecutive : Consecutive 0 layout.files layout.totalSize)
    (small : layout.totalSize < 2 ^ 64) (placed : layout.Placed disk)
    (writeSpan : validateIoSpan layout offset data.length = true)
    (readSpan : validateIoSpan layout readOffset count = true) (writable : offset < layout.totalSize)
    (readable : readOffset < layout.totalSize) : layout.Faithful disk offset data readOffset count where
  located g below := consecutive.existsUnique_place (Nat.zero_le g) below
  covered file listed l within := by
    have ends := (consecutive.bounds listed).2
    omega
  transfers := by
    obtain ⟨written, run, stays, frame, bytes⟩ := writeFiles_of_ready consecutive small placed.distinct
      placed.ready (Nat.zero_le (offset + 0)) writable (Nat.zero_le _) (validateIoSpan_le writeSpan)
    have read := readDataFromDisk_of_ready consecutive small stays readable (validateIoSpan_le readSpan)
    refine ⟨written, _, by rw [writeDataToDisk, if_pos writeSpan, run], read, by simp, ?_, ?_, frame,
      placed.write stays frame⟩
    · intro file listed l within first last
      rw [getD_map_byteOf consecutive listed within first last, bytes file listed l]
      by_cases padding : file.isPadding = true
      · rw [if_neg (by simp [padding]), if_pos padding, byte, if_pos padding]
      · simp only [padding, within, Nat.add_zero, true_and, Bool.false_eq_true, if_false]
    · intro file listed l outside
      rw [bytes file listed l, if_neg fun both => outside ⟨both.2.1, both.2.2⟩]

/-- Storage is an array of bytes exactly if the lengths of the files add up to a 64-bit number and neither an empty
write nor an empty read starts at the very end. -/
theorem storage_faithful_iff {files : List InfoFile}
    (built : layout = new rootDir torrentName files length filePriorities) (size : length < 2 ^ 64)
    (placed : layout.Placed disk) (writeSpan : validateIoSpan layout offset data.length = true)
    (readSpan : validateIoSpan layout readOffset count = true) :
    layout.Faithful disk offset data readOffset count ↔
      (layout.files.map (·.length)).sum < 2 ^ 64 ∧ (data = [] → offset < layout.totalSize) ∧
        (count = 0 → readOffset < layout.totalSize) := by
  subst built
  have small : (new rootDir torrentName files length filePriorities).totalSize < 2 ^ 64 := totalSize_new_lt size
  generalize isLayout : new rootDir torrentName files length filePriorities = layout at *
  have consecutive : (layout.files.map (·.length)).sum < 2 ^ 64 → Consecutive 0 layout.files layout.totalSize := by
    rw [← isLayout]
    exact consecutive_new
  have writeEnd := validateIoSpan_le writeSpan
  have readEnd := validateIoSpan_le readSpan
  constructor
  · intro faithful
    have fits : (layout.files.map (·.length)).sum < 2 ^ 64 :=
      (sum_length_le faithful.located faithful.covered).trans_lt small
    have ends : ∀ file ∈ layout.files, file.globalStartOffset + file.length ≤ layout.totalSize :=
      fun file listed => ((consecutive fits).bounds listed).2
    obtain ⟨written, bytes, wrote, read, -⟩ := faithful.transfers
    rw [writeDataToDisk, if_pos writeSpan] at wrote
    rw [readDataFromDisk, if_pos readSpan] at read
    refine ⟨fits, fun _ => ?_, fun _ => ?_⟩
    · refine lt_of_le_of_ne (by omega) fun atEnd => ?_
      rw [atEnd, writeFiles_at_end ends small] at wrote
      cases wrote
    · refine lt_of_le_of_ne (by omega) fun atEnd => ?_
      rw [atEnd, readFiles_at_end ends small] at read
      cases read
  · rintro ⟨fits, writable, readable⟩
    refine .of_consecutive (consecutive fits) small placed writeSpan readSpan ?_ ?_
    · rcases Nat.eq_zero_or_pos data.length with nothing | some
      · exact writable (eq_nil_of_length_eq_zero nothing)
      · omega
    · rcases Nat.eq_zero_or_pos count with nothing | some
      · exact readable nothing
      · omega

end Faithful

namespace PaddedLayout

/-- Two files with a padding file and an empty file between them. -/
def files : List InfoFile :=
  [{ length := 2, path := ["a"] }, { length := 2, path := ["p"], attr := some "p" }, { length := 0, path := ["e"] },
    { length := 3, path := ["b"] }]

def layout : MultiFileInfo := new "d" "t" files 0 fun _ => none

/-- All files are there and empty. -/
def disk : Disk := fun path => if path ∈ layout.files.map (·.path) then .file [] else .missing

theorem placed : layout.Placed disk where
  apart := by decide +kernel
  above := by
    have apart : ∀ file ∈ layout.files, ∀ dir ∈ layout.files.map (·.path), pathStartsWith file.path dir = true →
        samePath dir file.path = true := by decide +kernel
    exact fun file listed dir leads above =>
      .inl (if_neg fun inside => Bool.false_ne_true (above.symm.trans (apart file listed dir inside leads)))
  ready file listed := .inr (.inl ⟨[], if_pos (mem_map_of_mem listed)⟩)

end PaddedLayout

open PaddedLayout in
/-- A write across all files of a small layout is read back. -/
theorem padded_layout_faithful : layout.Faithful disk 1 [1, 2, 3, 4, 5] 0 7 := by
  have built : layout = new "d" "t" files 0 fun _ => none := rfl
  refine (storage_faithful_iff built (by decide) placed (by decide +kernel) (by decide +kernel)).mpr
    ⟨by decide +kernel, nofun, nofun⟩

open PaddedLayout in
/-- The span of an empty read at the very end is accepted, but the read fails. -/
theorem empty_read_at_end_fails :
    validateIoSpan layout 0 1 = true ∧ validateIoSpan layout 7 0 = true ∧ ¬layout.Faithful disk 0 [1] 7 0 := by
  refine ⟨by decide +kernel, by decide +kernel, fun faithful => ?_⟩
  obtain ⟨written, bytes, -, read, -⟩ := faithful.transfers
  have ends : ∀ file ∈ layout.files, file.globalStartOffset + file.length ≤ 7 := by decide +kernel
  rw [readDataFromDisk, if_pos (by decide +kernel), readFiles_at_end ends (by decide)] at read
  cases read

def overwrite (array : ℕ → UInt8) (write : ℕ × Bytes) (g : ℕ) : UInt8 :=
  if write.1 ≤ g ∧ g < write.1 + write.2.length then write.2.getD (g - write.1) 0 else array g

namespace MultiFileInfo

/-- Writes, one after another. -/
def writeAll (layout : MultiFileInfo) (disk : Disk) (writes : List (ℕ × Bytes)) : Option Disk :=
  writes.foldlM (fun disk write => writeDataToDisk disk layout write.1 write.2) disk

def Presents (layout : MultiFileInfo) (disk : Disk) (array : ℕ → UInt8) : Prop :=
  ∀ file ∈ layout.files, file.Ready disk ∧ (file.isPadding = false → ∀ l < file.length,
    file.byte disk l = array (file.globalStartOffset + l))

section Histories

variable {layout : MultiFileInfo} {disk : Disk} {array : ℕ → UInt8} {write : ℕ × Bytes} {writes : List (ℕ × Bytes)}
  (consecutive : Consecutive 0 layout.files layout.totalSize) (small : layout.totalSize < 2 ^ 64)
  (distinct : (layout.files.map (·.path)).Nodup)

include consecutive small distinct

theorem Presents.writeData (presents : layout.Presents disk array)
    (inside : write.1 < layout.totalSize ∧ write.1 + write.2.length ≤ layout.totalSize) : ∃ written,
      writeDataToDisk disk layout write.1 write.2 = some written ∧ layout.Presents written (overwrite array write) := by
  obtain ⟨written, run, stays, -, bytes⟩ := writeFiles_of_ready consecutive small distinct
    (fun file listed => (presents file listed).1) (Nat.zero_le (write.1 + 0)) inside.1 (Nat.zero_le _) inside.2
  refine ⟨written, by rw [writeDataToDisk, if_pos (validateIoSpan_of_le small inside.2), run],
    fun file listed => ⟨stays file listed, fun payload l within => ?_⟩⟩
  rw [bytes file listed l, (presents file listed).2 payload l within, overwrite]
  simp only [payload, within, Nat.add_zero, true_and]

theorem Presents.writeAll (presents : layout.Presents disk array)
    (inside : ∀ write ∈ writes, write.1 < layout.totalSize ∧ write.1 + write.2.length ≤ layout.totalSize) :
    ∃ written, layout.writeAll disk writes = some written ∧ layout.Presents written (writes.foldl overwrite array) := by
  induction writes generalizing disk array with
  | nil => exact ⟨disk, rfl, presents⟩
  | cons write later ih =>
    rw [forall_mem_cons] at inside
    obtain ⟨between, run, first⟩ := presents.writeData consecutive small distinct inside.1
    obtain ⟨written, runs, last⟩ := ih first inside.2
    refine ⟨written, ?_, last⟩
    rw [MultiFileInfo.writeAll, foldlM_cons, run]
    exact runs

end Histories

end MultiFileInfo

/-- The files behave as one array: writes succeed, and every read after them returns the bytes of the array, and
zero at padding. -/
theorem storage_refines_array {layout : MultiFileInfo} {files : List InfoFile} (disk : Disk) (writes : List (ℕ × Bytes))
    (built : layout = new rootDir torrentName files length filePriorities) (size : length < 2 ^ 64)
    (fits : (layout.files.map (·.length)).sum < 2 ^ 64) (placed : layout.Placed disk)
    (inside : ∀ write ∈ writes, write.1 < layout.totalSize ∧ write.1 + write.2.length ≤ layout.totalSize) :
    ∃ written, layout.writeAll disk writes = some written ∧
      ∀ readOffset count, readOffset < layout.totalSize → readOffset + count ≤ layout.totalSize →
        ∃ bytes, readDataFromDisk written layout readOffset count = some bytes ∧ bytes.length = count ∧
          ∀ file ∈ layout.files, ∀ l < file.length, readOffset ≤ file.globalStartOffset + l →
            file.globalStartOffset + l < readOffset + count →
              bytes.getD (file.globalStartOffset + l - readOffset) 0 = if file.isPadding then 0
                else writes.foldl overwrite (byteOf disk layout.files) (file.globalStartOffset + l) := by
  have small : layout.totalSize < 2 ^ 64 := built ▸ totalSize_new_lt size
  have consecutive : Consecutive 0 layout.files layout.totalSize := built ▸ consecutive_new (built ▸ fits)
  have presents : layout.Presents disk (byteOf disk layout.files) := fun file listed =>
    ⟨placed.ready file listed, fun _ l within => (byteOf_of_mem consecutive listed within).symm⟩
  obtain ⟨written, run, left⟩ := presents.writeAll consecutive small placed.distinct inside
  refine ⟨written, run, fun readOffset count readable ends => ⟨_, readDataFromDisk_of_ready consecutive small
    (fun file listed => (left file listed).1) readable ends, by simp, fun file listed l within first last => ?_⟩⟩
  rw [getD_map_byteOf consecutive listed within first last]
  split_ifs with padding
  · rw [FileInfo.byte, if_pos padding]
  · exact (left file listed).2 (by simpa using padding) l within

open PaddedLayout in
/-- Two writes that overlap in the small layout. -/
theorem padded_layout_refines : ∃ written bytes, layout.writeAll disk [(0, [1, 2, 3, 4, 5]), (4, [6])] = some written ∧
    readDataFromDisk written layout 3 4 = some bytes ∧ bytes.getD 1 0 = 6 := by
  obtain ⟨written, run, reads⟩ := storage_refines_array disk [(0, [1, 2, 3, 4, 5]), (4, [6])]
    (rfl : layout = new "d" "t" files 0 fun _ => none) (by decide) (by decide +kernel) placed (by decide +kernel)
  obtain ⟨bytes, read, -, holds⟩ := reads 3 4 (by decide +kernel) (by decide +kernel)
  have listed : layout.files.getLast (by decide +kernel) ∈ layout.files := getLast_mem _
  exact ⟨written, bytes, run, read, holds _ listed 0 (by decide +kernel) (by decide +kernel) (by decide +kernel)⟩

end Superseedr
