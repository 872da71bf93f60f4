import Mathlib.Data.Set.Finite.Basic
import Superseedr.ToMathlib.DirWalk
import Superseedr.Model.Paths

/-! # Where a path leads

A path is resolved by its text: double dots lead to the parent, symbolic links are not followed. Pushing
components onto a path continues the walk from where the path leads, and taking the parent cuts off its
last component. `confined` is the test on pushed components that keeps the result inside the path they are
pushed onto, whatever that path is.
-/

namespace Superseedr

open DirWalk List Component

variable {parts body front back above paths container : List String}
  {path first component name root parent base dir other : String} {fuel : ℕ} {current : Option String}

/-! ## Steps of a path -/

def Component.step : Component → Option (Step String)
  | .rootDir => none
  | .curDir => none
  | .parentDir => some .up
  | .normal name => some (.down name)

def pathSteps (path : String) : List (Step String) := (components path).filterMap step

def isAbsolute (path : String) : Bool := path.startsWith "/"

/-- What a path denotes for a process with working directory `cwd`. -/
def resolve (cwd : List String) (path : String) : List String :=
  walk (if isAbsolute path then [] else cwd) (pathSteps path)

/-- The path is the root directory or lies below it. -/
def Inside (cwd : List String) (root path : String) : Prop := resolve cwd root <:+ resolve cwd path

def segmentStep (segment : String) : Option (Step String) := (bodyComponent segment).bind step

theorem isAbsolute_iff (path : String) : isAbsolute path ↔ ['/'] <+: path.toList := by
  rw [isAbsolute, String.startsWith_string_iff]
  rfl

theorem slash_notMem_of_mem_splitOn {chars segment : List Char} (member : segment ∈ chars.splitOn '/') :
    '/' ∉ segment := by
  induction chars generalizing segment with
  | nil =>
    rw [splitOn_nil, mem_singleton] at member
    rw [member]
    exact not_mem_nil
  | cons c chars ih =>
    obtain ⟨first, rest, split⟩ := exists_cons_of_ne_nil (splitOn_ne_nil '/' chars)
    rw [split] at ih
    rw [splitOn_cons_eq_if_modifyHead, split] at member
    by_cases slash : c = '/'
    · rw [if_pos (beq_iff_eq.mpr slash), mem_cons] at member
      rcases member with rfl | member
      · exact not_mem_nil
      · exact ih member
    rw [if_neg (by rwa [beq_iff_eq]), modifyHead_cons, mem_cons] at member
    rcases member with rfl | member
    · rw [mem_cons, not_or]
      exact ⟨fun same => slash same.symm, ih (.head _)⟩
    · exact ih (.tail _ member)

theorem slash_notMem_of_mem_segments {segment : String} (member : segment ∈ segments path) : '/' ∉ segment.toList := by
  obtain ⟨chars, split, rfl⟩ := mem_map.mp member
  rw [String.toList_ofList]
  exact slash_notMem_of_mem_splitOn split

theorem segments_of_slash_notMem {segment : String} (plain : '/' ∉ segment.toList) : segments segment = [segment] := by
  rw [segments, splitOn_eq_singleton plain, map_singleton, String.ofList_toList]

theorem segments_append_slash (path component : String) :
    segments (path ++ "/" ++ component) = segments path ++ segments component := by
  have split : (path ++ "/" ++ component).toList = path.toList ++ '/' :: component.toList := by
    rw [String.toList_append, String.toList_append, append_assoc]
    rfl
  rw [segments, split, splitOn_append_cons_self, map_append]
  rfl

theorem segments_intercalate (nonempty : parts ≠ []) : segments ("/".intercalate parts) = parts.flatMap segments := by
  induction parts with
  | nil => exact absurd rfl nonempty
  | cons part parts ih =>
    cases parts with
    | nil => rw [String.intercalate_singleton, flatMap_singleton]
    | cons next parts =>
      rw [String.intercalate_cons_cons, segments_append_slash, ih (cons_ne_nil _ _)]
      rfl

def leading (path first : String) : List Component :=
  if first = "" then (if path = "" then [] else [.rootDir])
  else if first = "." then [.curDir]
  else (bodyComponent first).toList

theorem components_eq (split : segments path = first :: body) :
    components path = leading path first ++ body.filterMap bodyComponent := by
  rw [components, split]
  rfl

theorem exists_segments (path : String) : ∃ first body, segments path = first :: body := by
  apply exists_cons_of_ne_nil
  rw [segments, ne_eq, map_eq_nil_iff]
  exact splitOn_ne_nil _ _

theorem filterMap_leading (path first : String) : (leading path first).filterMap step = (segmentStep first).toList := by
  unfold leading
  by_cases start : first = ""
  · rw [if_pos start, start]
    split_ifs <;> rfl
  rw [if_neg start]
  by_cases dot : first = "."
  · rw [if_pos dot, dot]
    rfl
  rw [if_neg dot, segmentStep]
  cases bodyComponent first with
  | none => rfl
  | some component => cases component <;> rfl

theorem pathSteps_eq (path : String) : pathSteps path = (segments path).filterMap segmentStep := by
  obtain ⟨first, body, split⟩ := exists_segments path
  have rest : (body.filterMap bodyComponent).filterMap step = body.filterMap segmentStep := filterMap_filterMap
  rw [pathSteps, components_eq split, split, filterMap_append, filterMap_leading, rest, filterMap_cons]
  cases segmentStep first <;> rfl

theorem pathSteps_empty : pathSteps "" = [] := by decide +kernel

theorem pathSteps_append_slash (path component : String) :
    pathSteps (path ++ "/" ++ component) = pathSteps path ++ pathSteps component := by
  rw [pathSteps_eq, segments_append_slash, filterMap_append, ← pathSteps_eq, ← pathSteps_eq]

theorem exists_of_endsWith_slash (ends : path.endsWith "/") : ∃ front, path = front ++ "/" := by
  rw [← String.endsWith_toSlice, String.Slice.endsWith_string_iff, String.copy_toSlice] at ends
  obtain ⟨front, split⟩ := ends
  refine ⟨String.ofList front, String.toList_injective ?_⟩
  rw [String.toList_append, String.toList_ofList, ← split]

theorem pathSteps_pathPush (relative : isAbsolute component = false) :
    pathSteps (pathPush path component) = pathSteps path ++ pathSteps component := by
  rw [isAbsolute] at relative
  rw [pathPush, if_neg (Bool.eq_false_iff.mp relative)]
  split_ifs with direct
  · rcases direct with rfl | ends
    · rw [String.empty_append, pathSteps_empty, nil_append]
    · obtain ⟨front, rfl⟩ := exists_of_endsWith_slash ends
      have trailing := pathSteps_append_slash front ""
      rw [String.append_empty, pathSteps_empty, append_nil] at trailing
      rw [pathSteps_append_slash, trailing]
  · exact pathSteps_append_slash path component

theorem isAbsolute_append (nonempty : path ≠ "") (suffix : String) : isAbsolute (path ++ suffix) = isAbsolute path := by
  rw [Bool.eq_iff_iff, isAbsolute_iff, isAbsolute_iff, String.toList_append]
  obtain ⟨first, rest, chars⟩ := exists_cons_of_ne_nil (fun empty => nonempty (String.toList_eq_nil_iff.mp empty))
  rw [chars]
  simp only [cons_append, cons_prefix_cons, nil_prefix]

theorem isAbsolute_pathPush (relative : isAbsolute component = false) :
    isAbsolute (pathPush path component) = isAbsolute path := by
  have notSlash := relative
  rw [isAbsolute] at notSlash
  rw [pathPush, if_neg (Bool.eq_false_iff.mp notSlash)]
  by_cases empty : path = ""
  · rw [if_pos (.inl empty), empty, String.empty_append, relative]
    decide +kernel
  split_ifs
  · exact isAbsolute_append empty component
  · rw [String.append_assoc]
    exact isAbsolute_append empty _

theorem resolve_pathPush (cwd : List String) (path component : String) :
    resolve cwd (pathPush path component) =
      walk (if isAbsolute component then [] else resolve cwd path) (pathSteps component) := by
  by_cases absolute : isAbsolute component
  · have replaced : pathPush path component = component := if_pos absolute
    rw [replaced, resolve, if_pos absolute, if_pos absolute]
  · have relative := Bool.eq_false_iff.mpr absolute
    rw [resolve, isAbsolute_pathPush relative, pathSteps_pathPush relative, walk_append, if_neg absolute]
    rfl

/-! ## Confined components -/

/-- Components that lead nowhere above the path they are pushed onto: none is absolute, and at no point
have more parents been taken than directories entered. -/
def confined (parts : List String) : Bool :=
  parts.all (fun part => !isAbsolute part) && staysBelow 0 (parts.flatMap pathSteps)

theorem confined_iff (parts : List String) :
    confined parts ↔ (∀ part ∈ parts, isAbsolute part = false) ∧ staysBelow 0 (parts.flatMap pathSteps) := by
  simp only [confined, Bool.and_eq_true, all_eq_true, Bool.not_eq_true']

theorem confined_of_append (kept : confined (front ++ back)) : confined front := by
  rw [confined_iff, flatMap_append] at kept
  rw [confined_iff]
  exact ⟨fun part member => kept.1 part (mem_append_left _ member), staysBelow_of_append kept.2⟩

section Relative

variable (relative : ∀ part ∈ parts, isAbsolute part = false) (path : String)
include relative

theorem pathSteps_foldl : pathSteps (parts.foldl pathPush path) = pathSteps path ++ parts.flatMap pathSteps := by
  induction parts generalizing path with
  | nil => rw [foldl_nil, flatMap_nil, append_nil]
  | cons part parts ih =>
    rw [forall_mem_cons] at relative
    rw [foldl_cons, ih relative.2, pathSteps_pathPush relative.1, append_assoc, flatMap_cons]

theorem isAbsolute_foldl : isAbsolute (parts.foldl pathPush path) = isAbsolute path := by
  induction parts generalizing path with
  | nil => rfl
  | cons part parts ih =>
    rw [forall_mem_cons] at relative
    rw [foldl_cons, ih relative.2, isAbsolute_pathPush relative.1]

theorem resolve_foldl (cwd : List String) :
    resolve cwd (parts.foldl pathPush path) = walk (resolve cwd path) (parts.flatMap pathSteps) := by
  rw [resolve, isAbsolute_foldl relative, pathSteps_foldl relative, walk_append]
  rfl

end Relative

theorem inside_of_confined (kept : confined parts) (cwd : List String) (root : String) :
    Inside cwd root (parts.foldl pathPush root) := by
  obtain ⟨relative, stays⟩ := (confined_iff parts).mp kept
  rw [Inside, resolve_foldl relative]
  exact suffix_walk stays

/-- A name that the components do not mention is not in the directory they lead to, unless they start there. -/
theorem notMem_resolve_foldl {cwd : List String} (unnamed : .down name ∉ parts.flatMap pathSteps)
    (absent : name ∉ resolve cwd path) : name ∉ resolve cwd (parts.foldl pathPush path) := by
  induction parts generalizing path with
  | nil => exact absent
  | cons part parts ih =>
    rw [flatMap_cons, mem_append, not_or] at unnamed
    refine ih unnamed.2 ?_
    rw [resolve_pathPush]
    apply notMem_walk _ unnamed.1
    split_ifs
    · exact not_mem_nil
    · exact absent

theorem notMem_resolve_of_leaves {cwd : List String} (leaves : confined parts = false)
    (unnamed : .down name ∉ parts.flatMap pathSteps) (resolved : resolve cwd root = [name]) :
    name ∉ resolve cwd (parts.foldl pathPush root) := by
  by_cases relative : ∀ part ∈ parts, isAbsolute part = false
  · rw [resolve_foldl relative, resolved]
    apply @notMem_walk_of_leaves String name []
    · by_contra stays
      rw [Bool.not_eq_false] at stays
      exact Bool.eq_false_iff.mp leaves ((confined_iff parts).mpr ⟨relative, stays⟩)
    · exact unnamed
  push Not at relative
  obtain ⟨part, member, absolute⟩ := relative
  rw [ne_eq, Bool.not_eq_false] at absolute
  obtain ⟨front, back, rfl⟩ := append_of_mem member
  rw [flatMap_append, flatMap_cons, mem_append, mem_append, not_or, not_or] at unnamed
  rw [foldl_append, foldl_cons]
  apply notMem_resolve_foldl unnamed.2.2
  rw [resolve_pathPush, if_pos absolute]
  exact notMem_walk not_mem_nil unnamed.2.1

def longName (length : ℕ) : String := String.ofList (List.replicate (length + 1) 'a')

theorem longName_injective : Function.Injective longName := by
  intro m n same
  have lengths := congrArg (fun name : String => name.toList.length) same
  simp only [longName, String.toList_ofList, length_replicate] at lengths
  omega

theorem segmentStep_longName (length : ℕ) : segmentStep (longName length) = some (.down (longName length)) := by
  have ordinary : bodyComponent (longName length) = some (.normal (longName length)) := by
    simp [bodyComponent, isFiller, longName, ← String.toList_inj, replicate_succ]
  rw [segmentStep, ordinary]
  rfl

theorem resolve_longName (cwd : List String) (length : ℕ) :
    resolve cwd ("/" ++ longName length) = [longName length] := by
  have plain : '/' ∉ (longName length).toList := by
    rw [longName, String.toList_ofList, mem_replicate]
    exact fun same => absurd same.2 (by decide)
  have split : segments ("/" ++ longName length) = ["", longName length] := by
    have joined := segments_append_slash "" (longName length)
    rw [String.empty_append, segments_of_slash_notMem plain] at joined
    exact joined
  have absolute : isAbsolute ("/" ++ longName length) := by
    rw [isAbsolute_append (by decide)]
    decide +kernel
  rw [resolve, if_pos absolute, pathSteps_eq, split, filterMap_cons_none (by rfl),
    filterMap_cons_some (segmentStep_longName length)]
  rfl

theorem exists_longName_notMem (steps : List (Step String)) : ∃ length, .down (longName length) ∉ steps := by
  have infinite := Set.infinite_range_of_injective fun m n same => longName_injective (Step.down.inj same)
  obtain ⟨step, ⟨length, rfl⟩, fresh⟩ := infinite.exists_notMem_finset steps.toFinset
  exact ⟨length, fun member => fresh (mem_toFinset.mpr member)⟩

/-- Components that are not confined lead out of some directory. -/
theorem exists_outside (leaves : confined parts = false) :
    ∃ root, root ≠ "" ∧ ∀ cwd, ¬ Inside cwd root (parts.foldl pathPush root) := by
  obtain ⟨length, unnamed⟩ := exists_longName_notMem (parts.flatMap pathSteps)
  refine ⟨"/" ++ longName length, ?_, fun cwd inside => ?_⟩
  · rw [ne_eq, String.append_eq_empty_iff]
    exact fun empty => absurd empty.1 (by decide)
  · have resolved := resolve_longName cwd length
    apply notMem_resolve_of_leaves leaves unnamed resolved
    rw [Inside, resolved] at inside
    exact inside.subset (.head _)

/-! ## Ancestors -/

theorem filterMap_rdropWhile_isFiller (body : List String) :
    (body.rdropWhile isFiller).filterMap bodyComponent = body.filterMap bodyComponent := by
  induction body using reverseRecOn with
  | nil => rfl
  | append_singleton body last ih =>
    rw [rdropWhile_concat]
    split_ifs with filler
    · have none : bodyComponent last = none := if_pos filler
      rw [ih, filterMap_append, filterMap_cons_none none, filterMap_nil, append_nil]
    · rfl

theorem bodyComponent_eq_some {segment : String} (real : isFiller segment = false) :
    ∃ component, bodyComponent segment = some component ∧ component ≠ .rootDir := by
  rw [bodyComponent, real, if_neg Bool.false_ne_true]
  split_ifs
  · exact ⟨_, rfl, Component.noConfusion⟩
  · exact ⟨_, rfl, Component.noConfusion⟩

theorem leading_of_ne (named : first ≠ "") (path : String) :
    ∃ component, leading path first = [component] ∧ component ≠ .rootDir := by
  rw [leading, if_neg named]
  by_cases dot : first = "."
  · rw [if_pos dot]
    exact ⟨.curDir, rfl, Component.noConfusion⟩
  have real : isFiller first = false := by
    rw [isFiller, decide_eq_false named, decide_eq_false dot]
    rfl
  obtain ⟨component, ordinary, notRoot⟩ := bodyComponent_eq_some real
  rw [if_neg dot, ordinary]
  exact ⟨component, rfl, notRoot⟩

theorem segments_empty : segments "" = [""] := segments_of_slash_notMem List.not_mem_nil

theorem segments_join (plain : ∀ segment ∈ first :: above, '/' ∉ segment.toList) :
    segments ("/".intercalate (first :: above)) = first :: above := by
  rw [segments_intercalate (cons_ne_nil _ _), flatMap_congr fun segment member =>
    segments_of_slash_notMem (plain segment member), flatMap_singleton']

theorem components_of_segments (nonempty : path ≠ "") (split : segments parent = first :: above)
    (proper : ¬ (first = "" ∧ above = [])) :
    components parent = leading path first ++ above.filterMap bodyComponent := by
  have parentNonempty : parent ≠ "" := by
    rintro rfl
    rw [segments_empty, cons.injEq] at split
    exact proper ⟨split.1.symm, split.2.symm⟩
  rw [components_eq split, leading, leading, if_neg nonempty, if_neg parentNonempty]

theorem components_pathParent (found : pathParent path = some parent) :
    ∃ last, components path = components parent ++ [last] := by
  obtain ⟨first, body, split⟩ := exists_segments path
  rw [pathParent, split] at found
  dsimp only at found
  rw [components_eq split, ← filterMap_rdropWhile_isFiller]
  by_cases kept : body.rdropWhile isFiller = []
  · rw [if_neg (not_not.mpr kept)] at found
    by_cases start : first = ""
    · rw [if_pos start] at found
      cases found
    rw [if_neg start, Option.some.injEq] at found
    obtain ⟨component, single, -⟩ := leading_of_ne start path
    rw [kept, ← found, components_eq segments_empty, single]
    exact ⟨component, rfl⟩
  rw [if_pos kept, Option.some.injEq] at found
  obtain ⟨last, real, -⟩ := bodyComponent_eq_some (Bool.eq_false_iff.mpr (rdropWhile_last_not _ _ kept))
  refine ⟨last, ?_⟩
  have cut : (body.rdropWhile isFiller).filterMap bodyComponent =
      (body.rdropWhile isFiller).dropLast.filterMap bodyComponent ++ [last] := by
    conv_lhs => rw [← dropLast_append_getLast kept]
    rw [filterMap_append, filterMap_cons_some real, filterMap_nil]
  have nonempty : path ≠ "" := by
    rintro rfl
    rw [segments_empty, cons.injEq] at split
    rw [← split.2] at kept
    exact kept rfl
  rw [cut, ← append_assoc, ← filterMap_rdropWhile_isFiller (dropLast _)]
  congr 1
  set above := (body.rdropWhile isFiller).dropLast.rdropWhile isFiller with aboveEq
  by_cases top : first = "" ∧ above = []
  · rw [if_pos top] at found
    rw [← found, top.1, top.2, leading, if_pos rfl, if_neg nonempty]
    decide +kernel
  rw [if_neg top] at found
  have plain : ∀ segment ∈ first :: above, '/' ∉ segment.toList := by
    intro segment member
    apply @slash_notMem_of_mem_segments path
    rw [split]
    rcases mem_cons.mp member with rfl | member
    · exact (.head _)
    · have inBody := ( rdropWhile_prefix _ _).subset (( dropLast_prefix _).subset
        (( rdropWhile_prefix _ _).subset member))
      exact .tail _ inBody
  rw [← found]
  exact (components_of_segments nonempty (segments_join plain) top).symm

/-- The directories between a file and the base lie on the way from the base to the file. -/
theorem mem_dirsAbove (member : dir ∈ dirsAbove base fuel current) :
    components base <+: components dir ∧ ∃ start, current = some start ∧ components dir <+: components start := by
  induction fuel generalizing current with
  | zero => cases member
  | succ fuel ih =>
    cases current with
    | none => cases member
    | some start =>
      rw [dirsAbove] at member
      split_ifs at member with same below
      · cases member
      · rcases mem_cons.mp member with rfl | member
        · exact ⟨ isPrefixOf_iff_prefix.mp below, dir, rfl, prefix_rfl⟩
        · obtain ⟨above, parent, found, within⟩ := ih member
          obtain ⟨last, split⟩ := components_pathParent found
          refine ⟨above, start, rfl, within.trans ?_⟩
          rw [split]
          exact prefix_append _ _
      · cases member

theorem mem_insertPath (member : other ∈ insertPath paths path) : other ∈ paths ∨ other = path := by
  rw [insertPath] at member
  split_ifs at member
  · exact .inl member
  · rwa [mem_append, mem_singleton] at member

theorem mem_foldl_insertPath {inserted : List String} (member : other ∈ inserted.foldl insertPath paths) :
    other ∈ paths ∨ other ∈ inserted := by
  induction inserted generalizing paths with
  | nil => exact .inl member
  | cons path inserted ih =>
    rcases ih member with known | later
    · rcases mem_insertPath known with known | rfl
      · exact .inl known
      · exact .inr (.head _)
    · exact .inr (.tail _ later)

theorem isAbsolute_iff_components (path : String) : isAbsolute path ↔ [.rootDir] <+: components path := by
  rw [isAbsolute_iff]
  obtain ⟨first, body, split⟩ := exists_segments path
  rw [components_eq split]
  cases chars : path.toList with
  | nil =>
    rw [String.toList_eq_nil_iff.mp chars, segments_empty, cons.injEq] at split
    rw [String.toList_eq_nil_iff.mp chars, ← split.1, ← split.2]
    decide
  | cons c rest =>
    have nonempty : path ≠ "" := by
      rintro rfl
      exact absurd chars.symm (cons_ne_nil _ _)
    rw [segments, chars, splitOn_cons_eq_if_modifyHead] at split
    rw [cons_prefix_cons]
    by_cases slash : c = '/'
    · rw [if_pos (beq_iff_eq.mpr slash), map_cons, cons.injEq] at split
      rw [leading, if_pos split.1.symm, if_neg nonempty]
      exact iff_of_true ⟨slash.symm, nil_prefix⟩ (prefix_append _ _)
    obtain ⟨head, tail, rests⟩ := exists_cons_of_ne_nil (splitOn_ne_nil '/' rest)
    rw [if_neg (by rwa [beq_iff_eq]), rests, modifyHead_cons, map_cons, cons.injEq] at split
    have named : first ≠ "" := by
      rintro rfl
      exact absurd (String.ofList_eq_empty_iff.mp split.1) (cons_ne_nil _ _)
    obtain ⟨component, single, notRoot⟩ := leading_of_ne named path
    rw [single, singleton_append, cons_prefix_cons]
    exact iff_of_false (fun starts => slash starts.1.symm) (fun starts => notRoot starts.1.symm)

theorem inside_of_between (kept : confined parts) (above : components base <+: components dir)
    (within : components dir <+: components (parts.foldl pathPush base)) (cwd : List String) : Inside cwd base dir := by
  obtain ⟨relative, stays⟩ := (confined_iff parts).mp kept
  obtain ⟨steps, toDir⟩ : pathSteps base <+: pathSteps dir := above.filterMap _
  obtain ⟨rest, toFile⟩ : pathSteps dir <+: pathSteps (parts.foldl pathPush base) := within.filterMap _
  have split : steps ++ rest = parts.flatMap pathSteps := by
    rw [pathSteps_foldl relative, ← toDir, append_assoc, append_cancel_left_eq] at toFile
    exact toFile
  have sameStart : isAbsolute dir = isAbsolute base := by
    rw [Bool.eq_iff_iff]
    constructor
    · intro absolute
      rw [← isAbsolute_foldl relative base, isAbsolute_iff_components]
      exact ((isAbsolute_iff_components dir).mp absolute).trans within
    · intro absolute
      exact (isAbsolute_iff_components dir).mpr (((isAbsolute_iff_components base).mp absolute).trans above)
  rw [Inside, resolve, resolve, sameStart, ← toDir, walk_append]
  rw [← split] at stays
  exact suffix_walk (staysBelow_of_append stays)

/-! ## Recorded paths -/

theorem isAbsolute_of_mem_segments {segment : String} (member : segment ∈ segments path) :
    isAbsolute segment = false := by
  by_contra absolute
  rw [Bool.not_eq_false, isAbsolute_iff] at absolute
  exact slash_notMem_of_mem_segments member (absolute.subset (.head _))

theorem flatMap_pathSteps_segments (path : String) :
    ((segments path).filter (· ≠ "")).flatMap pathSteps = pathSteps path := by
  have single : ∀ segment ∈ segments path, pathSteps segment = (segmentStep segment).toList := by
    intro segment member
    rw [pathSteps_eq, segments_of_slash_notMem (slash_notMem_of_mem_segments member), filterMap_cons]
    cases segmentStep segment <;> rfl
  rw [flatMap_congr fun segment member => single segment (mem_of_mem_filter member), ← filterMap_eq_flatMap_toList,
    filterMap_filter, pathSteps_eq path]
  refine filterMap_congr fun segment _ => ?_
  by_cases empty : segment = ""
  · rw [empty]
    rfl
  · simp [empty]

theorem pathSteps_intercalate : pathSteps ("/".intercalate parts) = parts.flatMap pathSteps := by
  cases parts with
  | nil => exact pathSteps_empty
  | cons part parts =>
    rw [pathSteps_eq, segments_intercalate (cons_ne_nil _ _), filterMap_flatMap]
    refine flatMap_congr fun other _ => ?_
    rw [pathSteps_eq]

theorem confined_segments_iff (container parts : List String) :
    confined (container ++ (segments ("/".intercalate parts)).filter (· ≠ "")) ↔
      (∀ part ∈ container, isAbsolute part = false) ∧
        staysBelow 0 (container.flatMap pathSteps ++ parts.flatMap pathSteps) := by
  rw [confined_iff, flatMap_append, flatMap_pathSteps_segments, pathSteps_intercalate, forall_mem_append]
  have relative : ∀ part ∈ (segments ("/".intercalate parts)).filter (· ≠ ""), isAbsolute part = false :=
    fun part member => isAbsolute_of_mem_segments (mem_of_mem_filter member)
  rw [and_iff_left relative]

/-- Files that are confined with their components as they are stay confined when their paths are recorded
as texts and split again. -/
theorem confined_segments (kept : confined (container ++ parts)) :
    confined (container ++ (segments ("/".intercalate parts)).filter (· ≠ "")) := by
  obtain ⟨relative, stays⟩ := (confined_iff _).mp kept
  rw [confined_segments_iff]
  rw [flatMap_append] at stays
  exact ⟨fun part member => relative part (mem_append_left _ member), stays⟩

theorem confined_of_segments (relative : ∀ part ∈ parts, isAbsolute part = false)
    (kept : confined (container ++ (segments ("/".intercalate parts)).filter (· ≠ ""))) :
    confined (container ++ parts) := by
  rw [confined_segments_iff] at kept
  rw [confined_iff, flatMap_append, forall_mem_append]
  exact ⟨⟨kept.1, relative⟩, kept.2⟩

end Superseedr
