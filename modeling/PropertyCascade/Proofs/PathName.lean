import Mathlib.Data.List.Induction
import PropertyCascade.Proofs.Text.Cut
import PropertyCascade.Search

/-!
# Parts of path names

A path name only counts by its parts, so this file computes the parts of the names that the
library builds: of absolute names, of normalised names and of joined names. The names that are
left after normalising are proper, that is, neither empty nor dots and without a separator, and an
absolute name with proper segments has exactly these segments as its parts. Its parent drops the
last of them, so the directories above it are the absolute names with its initial segments.
-/

namespace PropertyCascade

namespace Segment

/-- A proper segment is the name of something in a directory. -/
structure IsProper (segment : Segment) : Prop where
  separator_not_mem : separator ∉ segment
  not_noise : segment.isNoise = false
  ne_up : segment ≠ up

theorem IsProper.ne_root {segment : Segment} (proper : segment.IsProper) : segment ≠ root := by
  rintro rfl
  exact proper.separator_not_mem (by simp [root])

theorem IsProper.ne_nil {segment : Segment} (proper : segment.IsProper) : segment ≠ [] := by
  rintro rfl
  simpa [isNoise] using proper.not_noise

theorem IsProper.isName {segment : Segment} (proper : segment.IsProper) :
    segment.isName = true := by
  have notHere : segment ≠ here := by
    rintro rfl
    simpa [isNoise] using proper.not_noise
  simp [Segment.isName, proper.ne_root, proper.ne_up, notHere]

end Segment

namespace PathName

open Segment

/-! ## Effective segments -/

theorem effective_append (left right : List Segment) :
    effective (left ++ right) = effective left ++ effective right :=
  List.filter_append ..

@[simp]
theorem effective_nil_cons (segments : List Segment) :
    effective ([] :: segments) = effective segments := by
  simp [effective, isNoise]

theorem effective_eq_self {segments : List Segment}
    (proper : ∀ segment ∈ segments, segment.IsProper) : effective segments = segments := by
  apply List.filter_eq_self.mpr
  intro segment member
  simp [(proper segment member).not_noise]

theorem separator_not_mem_of_mem_segments {path : PathName} {segment : Segment}
    (member : segment ∈ path.segments) : separator ∉ segment :=
  separator_not_mem_of_mem_splitOn member

/-! ## Absolute names -/

@[simp]
theorem isAbsolute_absolute (names : List Segment) : (absolute names).isAbsolute = true := by
  simp [isAbsolute, absolute]

theorem parts_of_isAbsolute {path : PathName} (isAbsolute : path.isAbsolute = true) :
    path.parts = root :: effective path.segments := by
  rw [parts, if_pos isAbsolute]

theorem segments_absolute {segments : List Segment}
    (whole : ∀ segment ∈ segments, separator ∉ segment) (nonempty : segments ≠ []) :
    (absolute segments).segments = [] :: segments := by
  rw [PathName.segments, absolute, List.splitOn_cons_eq_if_modifyHead,
    List.splitOn_intercalate separator whole nonempty]
  simp

theorem parts_absolute_eq {segments : List Segment}
    (whole : ∀ segment ∈ segments, separator ∉ segment) :
    (absolute segments).parts = root :: effective segments := by
  rw [parts_of_isAbsolute (isAbsolute_absolute segments)]
  by_cases nonempty : segments = []
  · subst nonempty
    rfl
  · rw [segments_absolute whole nonempty, effective_nil_cons]

@[simp]
theorem parts_absolute {names : List Segment} (proper : ∀ name ∈ names, name.IsProper) :
    (absolute names).parts = root :: names := by
  rw [parts_absolute_eq fun name member => (proper name member).separator_not_mem,
    effective_eq_self proper]

theorem length_le_length_bytes_absolute {names : List Segment}
    (proper : ∀ name ∈ names, name.IsProper) :
    names.length ≤ (absolute names).bytes.length := by
  have general : names.length ≤ ([separator].intercalate names).length := by
    induction names with
    | nil => simp
    | cons name rest ih =>
        have positive : 0 < name.length :=
          List.length_pos_iff.mpr (proper name List.mem_cons_self).ne_nil
        have restLength := ih fun other member => proper other (List.mem_cons_of_mem _ member)
        cases rest with
        | nil => simpa [Nat.one_le_iff_ne_zero, Nat.pos_iff_ne_zero] using positive
        | cons next others =>
            simp only [List.intercalate_cons_cons, List.length_append, List.length_cons,
              List.length_nil] at restLength ⊢
            omega
  simp only [absolute, List.length_cons]
  omega

/-! ## Normalised names -/

theorem mem_parts {path : PathName} {part : Segment} (member : part ∈ path.parts) :
    part = root ∨ part = here ∨ part ∈ effective path.segments := by
  rw [parts] at member
  split at member
  case isTrue =>
    rcases List.mem_cons.mp member with rfl | effective
    · exact Or.inl rfl
    · exact Or.inr (Or.inr effective)
  case isFalse =>
    split at member
    case h_1 first rest segments =>
      rw [segments]
      split at member
      case isTrue =>
        rcases List.mem_cons.mp member with rfl | later
        · exact Or.inr (Or.inl rfl)
        · refine Or.inr (Or.inr ?_)
          rw [← List.singleton_append, effective_append]
          exact List.mem_append_right _ later
      case isFalse => exact Or.inr (Or.inr member)
    case h_2 => simp at member

theorem isProper_of_mem_parts {path : PathName} {part : Segment} (member : part ∈ path.parts)
    (isName : part.isName = true) : part.IsProper := by
  simp only [Segment.isName, Bool.and_eq_true, bne_iff_ne] at isName
  rcases isName with ⟨⟨notRoot, notHere⟩, notUp⟩
  rcases mem_parts member with rfl | rfl | effective
  · exact absurd rfl notRoot
  · exact absurd rfl notHere
  · rcases List.mem_filter.mp effective with ⟨written, loud⟩
    exact ⟨separator_not_mem_of_mem_segments written, by simpa using loud, notUp⟩

theorem mem_foldl_settle {parts stack : List Segment} {name : Segment}
    (member : name ∈ parts.foldl settle stack) :
    name ∈ stack ∨ (name ∈ parts ∧ name.isName = true) := by
  induction parts generalizing stack with
  | nil => exact Or.inl member
  | cons part rest ih =>
      rcases ih member with settled | ⟨later, isName⟩
      · rw [settle] at settled
        split at settled
        · exact Or.inl (List.mem_of_mem_tail settled)
        · split at settled
          case isTrue isName =>
            rcases List.mem_cons.mp settled with rfl | below
            · exact Or.inr ⟨List.mem_cons_self, isName⟩
            · exact Or.inl below
          case isFalse => exact Or.inl settled
      · exact Or.inr ⟨List.mem_cons_of_mem _ later, isName⟩

theorem isProper_of_mem_names {path : PathName} {name : Segment} (member : name ∈ path.names) :
    name.IsProper := by
  rcases mem_foldl_settle (List.mem_reverse.mp member) with impossible | ⟨part, isName⟩
  · simp at impossible
  · exact isProper_of_mem_parts part isName

theorem normalize_of_isAbsolute {path : PathName} (isAbsolute : path.isAbsolute = true) :
    path.normalize = absolute path.names := by
  rw [normalize, if_pos isAbsolute]

theorem parts_normalize {path : PathName} (isAbsolute : path.isAbsolute = true) :
    path.normalize.parts = root :: path.names := by
  rw [normalize_of_isAbsolute isAbsolute, parts_absolute fun _ => isProper_of_mem_names]

@[simp]
theorem isAbsolute_normalize (path : PathName) : path.normalize.isAbsolute = path.isAbsolute := by
  cases isAbsolute : path.isAbsolute with
  | true => rw [normalize_of_isAbsolute isAbsolute, isAbsolute_absolute]
  | false =>
      have proper : ∀ name ∈ path.names, name.IsProper := fun _ => isProper_of_mem_names
      rw [normalize, if_neg (by simp [isAbsolute]), PathName.isAbsolute, relative]
      cases names : path.names with
      | nil => rfl
      | cons name rest =>
          have nameProper : name.IsProper := proper name (by simp [names])
          cases bytes : name with
          | nil => exact absurd bytes nameProper.ne_nil
          | cons byte others =>
              have notSeparator : byte ≠ separator := by
                rintro rfl
                exact nameProper.separator_not_mem (by simp [bytes])
              cases rest <;> simp [notSeparator]

theorem foldl_settle_of_isName {names : List Segment}
    (areNames : ∀ name ∈ names, name.isName = true) (stack : List Segment) :
    names.foldl settle stack = names.reverse ++ stack := by
  induction names generalizing stack with
  | nil => rfl
  | cons name rest ih =>
      rcases List.forall_mem_cons.mp areNames with ⟨isName, restAreNames⟩
      have notUp : name ≠ up := by
        rintro rfl
        simp [Segment.isName] at isName
      rw [List.foldl_cons, settle, if_neg notUp, if_pos isName, ih restAreNames]
      simp

theorem isName_of_mem_effective {path : PathName} {segment : Segment}
    (member : segment ∈ effective path.segments) (notUp : segment ≠ up) :
    segment.isName = true := by
  rcases List.mem_filter.mp member with ⟨written, loud⟩
  apply IsProper.isName
  exact ⟨separator_not_mem_of_mem_segments written, by simpa using loud, notUp⟩

theorem up_not_mem_parts_normalize {path : PathName} (isAbsolute : path.isAbsolute = true) :
    up ∉ path.normalize.parts := by
  rw [parts_normalize isAbsolute, List.mem_cons, not_or]
  exact ⟨by decide, fun member => (isProper_of_mem_names member).ne_up rfl⟩

/-- Where there is nothing to cancel, normalising leaves the parts as they are. -/
theorem parts_normalize_of_up_not_mem {path : PathName} (isAbsolute : path.isAbsolute = true)
    (noUp : up ∉ path.parts) : path.normalize.parts = path.parts := by
  have parts := parts_of_isAbsolute isAbsolute
  have areNames : ∀ segment ∈ effective path.segments, segment.isName = true := by
    intro segment member
    apply isName_of_mem_effective member
    rintro rfl
    exact noUp (parts ▸ List.mem_cons_of_mem _ member)
  have settled : settle [] root = [] := by decide
  rw [parts_normalize isAbsolute, names, parts, List.foldl_cons, settled,
    foldl_settle_of_isName areNames, List.append_nil, List.reverse_reverse]

/-- Absolute paths have the same normal form if the normal forms have the same parts. -/
theorem parts_normalize_eq_iff {path other : PathName} (isAbsolute : path.isAbsolute = true)
    (otherIsAbsolute : other.isAbsolute = true) :
    path.normalize.parts = other.normalize.parts ↔ path.normalize = other.normalize := by
  constructor
  · intro same
    rw [parts_normalize isAbsolute, parts_normalize otherIsAbsolute] at same
    rw [normalize_of_isAbsolute isAbsolute, normalize_of_isAbsolute otherIsAbsolute,
      (List.cons.inj same).2]
  · intro same
    rw [same]

theorem isAbsolute_of_normalize_eq {path other : PathName} (isAbsolute : path.isAbsolute = true)
    (same : other.normalize = path.normalize) : other.isAbsolute = true := by
  rw [← isAbsolute_normalize, same, isAbsolute_normalize, isAbsolute]

/-- The normal form of an absolute path determines the names that it is made of. -/
theorem names_eq_of_normalize_eq {path other : PathName} (isAbsolute : path.isAbsolute = true)
    (same : other.normalize = path.normalize) : other.names = path.names := by
  have otherIsAbsolute := isAbsolute_of_normalize_eq isAbsolute same
  have parts : other.normalize.parts = path.normalize.parts := by rw [same]
  rw [parts_normalize otherIsAbsolute, parts_normalize isAbsolute] at parts
  exact (List.cons.inj parts).2

/-! ## Joined names -/

theorem isAbsolute_join {directory : PathName} (isAbsolute : directory.isAbsolute = true)
    (path : PathName) : (directory.join path).isAbsolute = true := by
  rw [join]
  split
  case isTrue replaced =>
    rcases Bool.or_eq_true_iff.mp replaced with absolutePath | noDirectory
    · exact absolutePath
    · rw [PathName.isAbsolute, List.isEmpty_iff.mp noDirectory] at isAbsolute
      simp at isAbsolute
  case isFalse kept =>
    cases bytes : directory.bytes with
    | nil => simp [bytes] at kept
    | cons byte rest =>
        rw [PathName.isAbsolute, bytes] at isAbsolute
        split <;> simpa [PathName.isAbsolute] using isAbsolute

/-- Joining puts the effective segments of a relative name after the parts of the directory. -/
theorem parts_join {directory path : PathName} (isAbsolute : directory.isAbsolute = true)
    (isRelative : path.isAbsolute = false) :
    (directory.join path).parts = directory.parts ++ effective path.segments := by
  have nonempty : directory.bytes.isEmpty = false := by
    cases bytes : directory.bytes with
    | nil => simp [PathName.isAbsolute, bytes] at isAbsolute
    | cons => rfl
  rw [parts_of_isAbsolute (isAbsolute_join isAbsolute path), parts_of_isAbsolute isAbsolute,
    List.cons_append, ← effective_append]
  congr 1
  rw [join, if_neg (by simp [isRelative, nonempty])]
  split
  case isTrue ended =>
    -- The separator at the end of the directory is the one between the two names.
    rcases List.getLast?_eq_some_iff.mp ended with ⟨front, bytes⟩
    simp only [segments, bytes, List.append_assoc, List.singleton_append,
      List.splitOn_append_cons_self, effective_append]
    simp [effective, isNoise]
  case isFalse =>
    simp only [segments, List.splitOn_append_cons_self]

theorem isAbsolute_eq_false_of_parts {path : PathName}
    (proper : ∀ part ∈ path.parts, part.IsProper) : path.isAbsolute = false := by
  cases isAbsolute : path.isAbsolute with
  | false => rfl
  | true =>
      have isRoot : root ∈ path.parts := by simp [parts_of_isAbsolute isAbsolute]
      exact absurd rfl (proper root isRoot).ne_root

theorem effective_segments_of_parts {path : PathName}
    (proper : ∀ part ∈ path.parts, part.IsProper) : effective path.segments = path.parts := by
  have notHere : here ∉ path.parts := by
    intro member
    exact absurd (proper here member).not_noise (by decide)
  have isRelative := isAbsolute_eq_false_of_parts proper
  rw [parts, if_neg (by simp [isRelative])] at notHere ⊢
  split
  case h_1 first rest segments =>
    rw [segments] at notHere ⊢
    simp only at notHere
    split
    case isTrue isHere => simp [isHere] at notHere
    case isFalse => rfl
  case h_2 segments =>
    rw [segments]
    rfl

/-- The names of a directory are followed by those of a path that is made of proper names. -/
theorem names_join {directory path : PathName} (isAbsolute : directory.isAbsolute = true)
    (proper : ∀ part ∈ path.parts, part.IsProper) :
    (directory.join path).names = directory.names ++ path.parts := by
  have areNames : ∀ part ∈ path.parts, part.isName = true :=
    fun part member => (proper part member).isName
  rw [names, parts_join isAbsolute (isAbsolute_eq_false_of_parts proper),
    effective_segments_of_parts proper, List.foldl_append, foldl_settle_of_isName areNames,
    List.reverse_append, List.reverse_reverse, names]

theorem names_absolute {names : List Segment} (proper : ∀ name ∈ names, name.IsProper) :
    (absolute names).names = names := by
  have areNames : ∀ name ∈ names, name.isName = true :=
    fun name member => (proper name member).isName
  have settled : settle [] root = [] := by decide
  rw [PathName.names, parts_absolute proper, List.foldl_cons, settled,
    foldl_settle_of_isName areNames, List.append_nil, List.reverse_reverse]

/-! ## Directories above -/

theorem dropWhile_isNoise {names : List Segment} (proper : ∀ name ∈ names, name.IsProper) :
    names.dropWhile isNoise = names := by
  cases names with
  | nil => rfl
  | cons name rest =>
      simp [(proper name List.mem_cons_self).not_noise]

theorem parent?_absolute_nil : (absolute []).parent? = none := by
  decide

theorem parent?_absolute_append {directory : List Segment} {name : Segment}
    (proper : ∀ other ∈ directory ++ [name], other.IsProper) :
    (absolute (directory ++ [name])).parent? = some (absolute directory) := by
  have nameProper : name.IsProper := proper name (by simp)
  have directoryProper : ∀ other ∈ directory.reverse, other.IsProper :=
    fun other member => proper other (by simp_all)
  have reversed : withoutLast (directory ++ [name]).reverse = directory.reverse := by
    have reversedProper : ∀ other ∈ (directory ++ [name]).reverse, other.IsProper :=
      fun other member => proper other (List.mem_reverse.mp member)
    rw [withoutLast, dropWhile_isNoise reversedProper, List.reverse_append,
      List.reverse_singleton, List.singleton_append, List.drop_one, List.tail_cons,
      dropWhile_isNoise directoryProper]
  have last : (absolute (directory ++ [name])).parts.getLast? = some name := by
    rw [parts_absolute proper, ← List.cons_append, List.getLast?_concat]
  have segments : (absolute (directory ++ [name])).segments.tail = directory ++ [name] := by
    rw [segments_absolute (fun other member => (proper other member).separator_not_mem) (by simp),
      List.tail_cons]
  rw [parent?, last]
  simp only [nameProper.ne_root, isAbsolute_absolute, segments, reversed, if_true, if_false,
    List.reverse_reverse]

theorem above_append_singleton (directory : List Segment) (name : Segment) :
    above (directory ++ [name]) =
      (directory, [name]) ::
        (above directory).map fun (higher, below) => (higher, below ++ [name]) := by
  induction directory with
  | nil => rfl
  | cons first rest ih => simp [above, ih]

/-- Each directory above a path of names, and the names that lead to the path, make up the path. -/
theorem append_of_mem_above {names directory below : List Segment}
    (member : (directory, below) ∈ above names) : directory ++ below = names := by
  induction names generalizing directory below with
  | nil => simp [above] at member
  | cons name rest ih =>
      simp only [above, List.mem_append, List.mem_map, Prod.exists, Prod.mk.injEq,
        List.mem_singleton] at member
      rcases member with ⟨higher, lower, member, rfl, rfl⟩ | ⟨rfl, rfl⟩
      · rw [List.cons_append, ih member]
      · rfl

theorem ne_nil_of_mem_above {names directory below : List Segment}
    (member : (directory, below) ∈ above names) : below ≠ [] := by
  induction names generalizing directory with
  | nil => simp [above] at member
  | cons name rest ih =>
      simp only [above, List.mem_append, List.mem_map, Prod.exists, Prod.mk.injEq,
        List.mem_singleton] at member
      rcases member with ⟨higher, lower, member, -, rfl⟩ | ⟨-, rfl⟩
      · exact ih member
      · simp

/-- The directories above a longer path: first those within its last names, then those above its
first ones. -/
theorem above_append (front names : List Segment) :
    above (front ++ names) =
      ((above names).map fun pair => (front ++ pair.1, pair.2)) ++
        (above front).map fun pair => (pair.1, pair.2 ++ names) := by
  induction front with
  | nil => simp [above]
  | cons name rest ih => simp [above, ih, Function.comp_def]

theorem upTo_absolute {count : Nat} {names : List Segment}
    (proper : ∀ name ∈ names, name.IsProper) (enough : names.length ≤ count) :
    Search.upTo count (absolute names) =
      absolute names :: (above names).map fun (directory, _) => absolute directory := by
  induction names using List.reverseRecOn generalizing count with
  | nil => cases count <;> simp [Search.upTo, parent?_absolute_nil, above]
  | append_singleton directory name ih =>
      cases count with
      | zero => simp at enough
      | succ count =>
          have directoryProper : ∀ other ∈ directory, other.IsProper :=
            fun other member => proper other (List.mem_append_left _ member)
          rw [Search.upTo, parent?_absolute_append proper]
          simp only
          rw [ih directoryProper (by simpa using enough), above_append_singleton]
          simp [Function.comp_def]

/-- Going from parent to parent visits the directories above a path of names. -/
theorem directories_absolute {names : List Segment} (proper : ∀ name ∈ names, name.IsProper) :
    Search.directories (absolute names) =
      absolute names :: (above names).map fun (directory, _) => absolute directory :=
  upTo_absolute proper (length_le_length_bytes_absolute proper)

end PathName

end PropertyCascade
