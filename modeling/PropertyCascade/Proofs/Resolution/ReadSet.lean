import Mathlib.Data.List.Infix
import Mathlib.Data.List.Nodup
import PropertyCascade.Proofs.Resolution.Precedence

/-!
# What a resolution reads

Resolving a path reads the config files in the directories above it, one after the other, and stops
after the first root. No other file is touched, and what these files say decides everything: sources
that agree on them give the same table and are read at the same paths, whatever else they hold. The
reasons for which a read fails do not count.

Which files are read depends on their content, since a root ends the walk. The two walks are
therefore compared step by step, and a step only uses that the sources agree on what the first walk
has read.
-/

namespace PropertyCascade

universe u

theorem nodup_inits {Element : Type u} (list : List Element) : list.inits.Nodup := by
  induction list with
  | nil => simp
  | cons first rest ih =>
      rw [List.inits_cons, List.nodup_cons]
      exact ⟨by simp, ih.map (List.cons_injective)⟩

namespace PathName

/-- The directories above a path, the nearest first. -/
def ancestors (path : PathName) : List PathName :=
  (Search.directories path).tail

theorem ancestors_absolute {names : List Segment} (proper : ∀ name ∈ names, name.IsProper) :
    (absolute names).ancestors = (above names).map fun (directory, _) => absolute directory := by
  rw [ancestors, directories_absolute proper, List.tail_cons]

/-- The directories above a path of names are given by its proper initial segments. -/
theorem map_fst_above (names : List Segment) :
    (above names).map Prod.fst = names.inits.dropLast.reverse := by
  induction names with
  | nil => rfl
  | cons name rest ih =>
      have nonempty : rest.inits.map (name :: ·) ≠ [] := by cases rest <;> simp
      have segments : (above rest).map ((name :: ·) ∘ Prod.fst) =
          (rest.inits.dropLast.reverse).map (name :: ·) := by
        rw [← List.map_map, ih]
      rw [above, List.inits_cons, List.dropLast_cons_of_ne_nil nonempty, ← List.map_dropLast,
        List.reverse_cons, ← List.map_reverse, ← segments]
      simp [Function.comp_def]

/-- The directories above a normalised path have the proper initial segments of its parts, from the
longest to the one that is just the root. -/
theorem map_parts_ancestors {path : PathName} (isAbsolute : path.isAbsolute = true) :
    path.normalize.ancestors.map parts = path.normalize.parts.inits.tail.dropLast.reverse := by
  have proper : ∀ name ∈ path.names, name.IsProper := fun _ => isProper_of_mem_names
  have directoryParts (pair : List Segment × List Segment) (member : pair ∈ above path.names) :
      (absolute pair.1).parts = Segment.root :: pair.1 := by
    apply parts_absolute
    intro name inDirectory
    apply proper
    rw [← append_of_mem_above member]
    exact List.mem_append_left _ inDirectory
  calc path.normalize.ancestors.map parts
      = (above path.names).map fun pair => (absolute pair.1).parts := by
        rw [normalize_of_isAbsolute isAbsolute, ancestors_absolute proper, List.map_map]
        rfl
    _ = ((above path.names).map Prod.fst).map (Segment.root :: ·) := by
        rw [List.map_congr_left directoryParts, List.map_map]
        rfl
    _ = path.normalize.parts.inits.tail.dropLast.reverse := by
        rw [map_fst_above, parts_normalize isAbsolute, List.inits_cons, List.tail_cons,
          ← List.map_dropLast, List.map_reverse]

theorem nodup_map_parts_ancestors {path : PathName} (isAbsolute : path.isAbsolute = true) :
    (path.normalize.ancestors.map parts).Nodup := by
  rw [map_parts_ancestors isAbsolute, List.nodup_reverse]
  exact (nodup_inits _).sublist ((List.dropLast_sublist _).trans (List.tail_sublist _))

theorem isAbsolute_of_mem_ancestors {path directory : PathName}
    (isAbsolute : path.isAbsolute = true) (member : directory ∈ path.normalize.ancestors) :
    directory.isAbsolute = true := by
  rw [normalize_of_isAbsolute isAbsolute,
    ancestors_absolute fun _ => isProper_of_mem_names] at member
  rcases List.mem_map.mp member with ⟨pair, -, rfl⟩
  exact isAbsolute_absolute pair.1

end PathName

/-- Whether the config file in a directory can be read and makes the directory a root. -/
def isRootLevel (source : FileSource) (configName : Text) (directory : PathName) : Bool :=
  (readConfig? source configName directory).any ConfigText.isRoot

/-- The paths of the config files that count for a path: those in the directories above it, the
nearest first, up to and including the first root. -/
def readPaths (source : FileSource) (configName : Text) (path : PathName) : List PathName :=
  (upToFirst (isRootLevel source configName) path.ancestors).map fun directory =>
    directory.join (PathName.ofText configName)

/-- Where the name of the config files is relative, no file is read twice. -/
theorem nodup_map_parts_readPaths (source : FileSource) {configName : Text} {path : PathName}
    (isAbsolute : path.isAbsolute = true)
    (isRelative : (PathName.ofText configName).isAbsolute = false) :
    ((readPaths source configName path.normalize).map PathName.parts).Nodup := by
  have directories : ((upToFirst (isRootLevel source configName) path.normalize.ancestors).map
      PathName.parts).Nodup :=
    (PathName.nodup_map_parts_ancestors isAbsolute).sublist ((List.take_sublist _ _).map _)
  have parts : (readPaths source configName path.normalize).map PathName.parts =
      ((upToFirst (isRootLevel source configName) path.normalize.ancestors).map
        PathName.parts).map (· ++ PathName.effective (PathName.ofText configName).segments) := by
    rw [readPaths, List.map_map, List.map_map]
    apply List.map_congr_left
    intro directory member
    exact PathName.parts_join
      (PathName.isAbsolute_of_mem_ancestors isAbsolute (List.mem_of_mem_take member)) isRelative
  rw [parts]
  exact directories.map (List.append_left_injective _)

namespace Ascent

/-- A walk reads from every directory up to and including the first root. -/
theorem asked_through (source : FileSource) (configName : Text)
    (pairs : List (List Segment × List Segment)) :
    (through source configName pairs).asked =
      (upToFirst (fun pair => isRootLevel source configName (.absolute pair.1)) pairs).map
        fun pair => configPath configName pair.1 := by
  induction pairs with
  | nil => rfl
  | cons pair farther ih =>
      rcases pair with ⟨directory, below⟩
      have decided : isRootLevel source configName (.absolute directory) =
          (source (configPath configName directory)).toOption.any ConfigText.isRoot := rfl
      simp only [upToFirst_cons, List.map_cons, through, decided]
      cases source (configPath configName directory) with
      | error failure =>
          simp only [Except.toOption, Option.any_none, Bool.false_eq_true, if_false, ih]
      | ok text =>
          simp only [Except.toOption, Option.any_some, ← Level.isRoot_ofText]
          cases (Level.ofText text).isRoot with
          | true => rfl
          | false => simp only [Bool.false_eq_true, if_false, ih]

/-- Sources that agree on what one walk has read give the same walk. -/
theorem through_eq_of_agree {source other : FileSource} {configName : Text}
    {pairs : List (List Segment × List Segment)}
    (agree : ∀ path ∈ (through source configName pairs).asked,
      (source path).toOption = (other path).toOption) :
    through other configName pairs = through source configName pairs := by
  induction pairs with
  | nil => rfl
  | cons pair farther ih =>
      rcases pair with ⟨directory, below⟩
      simp only [through] at agree ⊢
      cases read : source (configPath configName directory) with
      | error failure =>
          simp only [read, List.forall_mem_cons] at agree
          rcases agree with ⟨here, later⟩
          cases otherRead : other (configPath configName directory) with
          | error => simp only [ih later]
          | ok text => simp [otherRead, Except.toOption] at here
      | ok text =>
          simp only [read] at agree ⊢
          have here : (source (configPath configName directory)).toOption =
              (other (configPath configName directory)).toOption := by
            apply agree
            split <;> exact List.mem_cons_self
          cases otherRead : other (configPath configName directory) with
          | error => simp [read, otherRead, Except.toOption] at here
          | ok otherText =>
              obtain rfl : text = otherText := by
                simpa [read, otherRead, Except.toOption] using here
              simp only
              cases isRoot : (Level.ofText text).isRoot with
              | true => rfl
              | false =>
                  simp only [isRoot, Bool.false_eq_true, if_false, List.forall_mem_cons] at agree
                  simp only [Bool.false_eq_true, if_false, ih agree.2]

end Ascent

namespace Resolution

theorem asked_ofNames (source : FileSource) (configName : Text) {names : List Segment}
    (proper : ∀ name ∈ names, name.IsProper) :
    (ofNames source configName names).asked =
      readPaths source configName (.absolute names) := by
  rw [ofNames, Ascent.above, Ascent.asked_through, readPaths, PathName.ancestors_absolute proper,
    upToFirst_map, List.map_map]
  rfl

theorem ofNames_eq_of_agree {source other : FileSource} {configName : Text}
    {names : List Segment}
    (agree : ∀ path ∈ (ofNames source configName names).asked,
      (source path).toOption = (other path).toOption) :
    ofNames other configName names = ofNames source configName names := by
  have above : Ascent.above other configName names = Ascent.above source configName names :=
    Ascent.through_eq_of_agree agree
  simp only [ofNames, above]

/-- Resolving an absolute path reads the config files in the directories above its normal form, one
after the other up to the first root, and no file twice unless the name of the config files is
absolute, so that it is the same file in all directories. A source that agrees with the first one on
these files gives the same table and the same reads. -/
theorem asked_eq_readPaths (source : FileSource) (configName : Text) (path : PathName)
    (isAbsolute : path.isAbsolute = true) :
    path.normalize.ancestors.map PathName.parts =
        path.normalize.parts.inits.tail.dropLast.reverse ∧
      ∃ resolution, ofPath source configName path = .ok resolution ∧
        resolution.asked = readPaths source configName path.normalize ∧
        ((PathName.ofText configName).isAbsolute = false →
          (resolution.asked.map PathName.parts).Nodup) ∧
        ∀ other : FileSource, (∀ read ∈ readPaths source configName path.normalize,
            (source read).toOption = (other read).toOption) →
          ofPath other configName path = .ok resolution := by
  have asked : (ofNames source configName path.names).asked =
      readPaths source configName path.normalize := by
    rw [PathName.normalize_of_isAbsolute isAbsolute]
    exact asked_ofNames source configName fun _ => PathName.isProper_of_mem_names
  refine ⟨PathName.map_parts_ancestors isAbsolute, ofNames source configName path.names, ?_,
    asked, ?_, ?_⟩
  · rw [ofPath, if_pos isAbsolute]
  · intro isRelative
    rw [asked]
    exact nodup_map_parts_readPaths source isAbsolute isRelative
  · intro other agree
    rw [← asked] at agree
    rw [ofPath, if_pos isAbsolute, ofNames_eq_of_agree agree]

/-- Beyond the root, and in what makes the nearest config file unreadable, the two stores differ. -/
theorem asked_eq_readPaths_layeredStore :
    let path := PathName.ofText "/a/x/../b/c/f".toList
    let nearest := PathName.ofText "/a/b/c/.e".toList
    let other := ((layeredStore.allow nearest).remove nearest).insert
      (.ofText "/.e".toList) "[*]\nk=changed".toList
    path.isAbsolute = true ∧
      (∀ read ∈ readPaths layeredStore.source ".e".toList path.normalize,
        (layeredStore.source read).toOption = (other.source read).toOption) ∧
      ∃ resolution, ofPath layeredStore.source ".e".toList path = .ok resolution ∧
        ofPath other.source ".e".toList path = .ok resolution ∧
        resolution.asked =
          [nearest, .ofText "/a/b/.e".toList, .ofText "/a/.e".toList] := by
  intro path nearest other
  have isAbsolute : path.isAbsolute = true := by decide
  have agree : ∀ read ∈ readPaths layeredStore.source ".e".toList path.normalize,
      (layeredStore.source read).toOption = (other.source read).toOption := by
    decide +kernel
  rcases asked_eq_readPaths layeredStore.source ".e".toList path isAbsolute with
    ⟨-, resolution, resolved, asked, -, unaffected⟩
  refine ⟨isAbsolute, agree, resolution, resolved, unaffected _ agree, ?_⟩
  rw [asked]
  decide +kernel

end Resolution

end PropertyCascade
