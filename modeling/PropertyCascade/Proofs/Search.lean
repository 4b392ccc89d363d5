import Mathlib.Data.List.Infix
import PropertyCascade.FileTree
import PropertyCascade.Proofs.PathName.Parents

/-!
# The nearest file upward

A search that goes from parent to parent comes to the root after finitely many directories, because
every parent has one part less. So the search has a result, and it is the file in the nearest
directory that has one, unless the search is to stay in a repository and a nearer directory is the
top of one. The directory of the file itself may be the top of the repository.

The three ways in which the search can end are tried in each directory before the next one, and this
is why what is above the directory in which it ends is never looked at.
-/

namespace PropertyCascade

namespace Search

open PathName Segment

/-! ## From parent to parent -/

/-- Directories that lead upward: each is the parent of the one before it, and the last has none. -/
inductive LeadsUp : PathName → List PathName → Prop where
  | last {directory : PathName} (noParent : directory.parent? = none) :
      LeadsUp directory [directory]
  | next {directory parent : PathName} {farther : List PathName}
      (isParent : directory.parent? = some parent) (later : LeadsUp parent farther) :
      LeadsUp directory (directory :: farther)

theorem leadsUp_upTo {directory : PathName} {count : Nat}
    (isAbsolute : directory.isAbsolute = true) (enough : directory.parts.length ≤ count + 1) :
    LeadsUp directory (upTo count directory) := by
  induction count generalizing directory with
  | zero =>
      rcases parent?_of_isAbsolute isAbsolute with ⟨noParent, -⟩ |
        ⟨parent, last, -, parentIsAbsolute, parts⟩
      · exact .last noParent
      · simp [parts, parts_of_isAbsolute parentIsAbsolute] at enough
  | succ count ih =>
      rw [upTo]
      rcases parent?_of_isAbsolute isAbsolute with ⟨noParent, -⟩ |
        ⟨parent, last, isParent, parentIsAbsolute, parts⟩
      · rw [noParent]
        exact .last noParent
      · rw [isParent]
        rw [parts, List.length_append, List.length_singleton] at enough
        exact .next isParent (ih parentIsAbsolute (Nat.le_of_succ_le_succ enough))

theorem leadsUp_directories {start : PathName} (isAbsolute : start.isAbsolute = true) :
    LeadsUp start (directories start) := by
  apply leadsUp_upTo isAbsolute
  rw [parts_of_isAbsolute isAbsolute, List.length_cons]
  exact Nat.succ_le_succ (length_effective_le start)

/-- The directories are made of the parts of the first one, from all of them to the root alone. -/
theorem LeadsUp.map_parts {start : PathName} {directories : List PathName}
    (leadsUp : LeadsUp start directories) (isAbsolute : start.isAbsolute = true) :
    directories.map PathName.parts = start.parts.inits.tail.reverse := by
  induction leadsUp with
  | last noParent =>
      rcases parent?_of_isAbsolute isAbsolute with ⟨-, parts⟩ | ⟨parent, last, isParent, -⟩
      · rw [List.map_singleton, parts]
        rfl
      · rw [noParent] at isParent
        cases isParent
  | next isParent _ ih =>
      rcases parent?_of_isAbsolute isAbsolute with ⟨noParent, -⟩ |
        ⟨parent, last, isOther, parentIsAbsolute, parts⟩
      · rw [isParent] at noParent
        cases noParent
      · rcases Option.some.inj (isParent.symm.trans isOther) with rfl
        rw [List.map_cons, ih parentIsAbsolute, parts, List.inits_append,
          parts_of_isAbsolute parentIsAbsolute]
        simp

/-! ## Going through the directories -/

section Going

variable (probe : Probe) (name : PathName) (stopAtRepository : Bool)

/-- A search that has come to a directory ends with a result. -/
inductive EndsWith : PathName → Option PathName → Prop where
  | found {directory : PathName} (isFile : probe.isFile (directory.join name) = true) :
      EndsWith directory (some (directory.join name))
  | repository {directory : PathName} (noFile : probe.isFile (directory.join name) = false)
      (stops : stopAtRepository = true)
      (isRepository : probe.isPresent (directory.join repositoryName) = true) :
      EndsWith directory none
  | root {directory : PathName} (noFile : probe.isFile (directory.join name) = false)
      (goesOn : (stopAtRepository && probe.isPresent (directory.join repositoryName)) = false)
      (noParent : directory.parent? = none) : EndsWith directory none
  | upward {directory parent : PathName} {result : Option PathName}
      (noFile : probe.isFile (directory.join name) = false)
      (goesOn : (stopAtRepository && probe.isPresent (directory.join repositoryName)) = false)
      (isParent : directory.parent? = some parent) (later : EndsWith parent result) :
      EndsWith directory result

/-- The nearest of several directories that has the file. None that is nearer is the top of a
repository which the search is not to leave. -/
structure IsNearest (directories : List PathName) (directory : PathName) : Prop where
  isFile : probe.isFile (directory.join name) = true
  nearer : ∃ nearer farther, directories = nearer ++ directory :: farther ∧
    ∀ other ∈ nearer, probe.isFile (other.join name) = false ∧
      (stopAtRepository = true → probe.isPresent (other.join repositoryName) = false)

/-- Whether a search that comes to a directory ends there, at the file or at the top of a
repository. -/
def Stops (directory : PathName) : Prop :=
  probe.isFile (directory.join name) = true ∨
    stopAtRepository = true ∧ probe.isPresent (directory.join repositoryName) = true

/-- Two file systems give a search the same answers in some directories. -/
def AnswerAlike (other : Probe) (directories : List PathName) : Prop :=
  ∀ directory ∈ directories,
    probe.isFile (directory.join name) = other.isFile (directory.join name) ∧
      (stopAtRepository = true →
        probe.isPresent (directory.join repositoryName) =
          other.isPresent (directory.join repositoryName))

instance (directory : PathName) : Decidable (Stops probe name stopAtRepository directory) :=
  inferInstanceAs (Decidable (_ ∨ _))

instance (other : Probe) (directories : List PathName) :
    Decidable (AnswerAlike probe name stopAtRepository other directories) :=
  inferInstanceAs (Decidable (∀ directory ∈ directories, _))

variable {probe : Probe} {name : PathName} {stopAtRepository : Bool}

theorem EndsWith.unlessHere {directory : PathName} {result : Option PathName}
    (later : probe.isFile (directory.join name) = false →
      (stopAtRepository && probe.isPresent (directory.join repositoryName)) = false →
        EndsWith probe name stopAtRepository directory result) :
    EndsWith probe name stopAtRepository directory
      (if probe.isFile (directory.join name) then some (directory.join name)
      else if stopAtRepository && probe.isPresent (directory.join repositoryName) then none
      else result) := by
  split_ifs with isFile isTop
  · exact .found isFile
  · rcases Bool.and_eq_true_iff.mp isTop with ⟨stops, isRepository⟩
    exact .repository (by simpa using isFile) stops isRepository
  · exact later (by simpa using isFile) (by simpa using isTop)

/-- Going through directories that lead upward is what the search does. -/
theorem endsWith_firstIn {start : PathName} {directories : List PathName}
    (leadsUp : LeadsUp start directories) :
    EndsWith probe name stopAtRepository start
      (firstIn probe name stopAtRepository directories) := by
  induction leadsUp with
  | last noParent => exact .unlessHere fun noFile goesOn => .root noFile goesOn noParent
  | next isParent _ ih => exact .unlessHere fun noFile goesOn => .upward noFile goesOn isParent ih

/-- A search that ends from parent to parent has the result of going through the directories. -/
theorem EndsWith.eq_firstIn {start : PathName} {result : Option PathName}
    {directories : List PathName} (ends : EndsWith probe name stopAtRepository start result)
    (leadsUp : LeadsUp start directories) :
    firstIn probe name stopAtRepository directories = result := by
  induction ends generalizing directories with
  | found isFile => cases leadsUp <;> rw [firstIn, if_pos isFile]
  | repository noFile stops isRepository =>
      have isTop := Bool.and_eq_true_iff.mpr ⟨stops, isRepository⟩
      cases leadsUp <;> rw [firstIn, noFile, if_neg Bool.false_ne_true, if_pos isTop]
  | root noFile goesOn noParent =>
      cases leadsUp with
      | last _ =>
          rw [firstIn, noFile, goesOn]
          rfl
      | next isParent _ =>
          rw [noParent] at isParent
          cases isParent
  | upward noFile goesOn isParent _ ih =>
      cases leadsUp with
      | last noParent =>
          rw [isParent] at noParent
          cases noParent
      | next otherIsParent farther =>
          rcases Option.some.inj (isParent.symm.trans otherIsParent) with rfl
          rw [firstIn, noFile, goesOn]
          exact ih farther

theorem not_stops_iff {directory : PathName} :
    ¬Stops probe name stopAtRepository directory ↔
      probe.isFile (directory.join name) = false ∧
        (stopAtRepository = true → probe.isPresent (directory.join repositoryName) = false) := by
  simp [Stops, not_or, Bool.not_eq_true]

theorem isNearest_cons_iff {first directory : PathName} {rest : List PathName} :
    IsNearest probe name stopAtRepository (first :: rest) directory ↔
      (probe.isFile (first.join name) = true ∧ directory = first) ∨
        (¬Stops probe name stopAtRepository first ∧
          IsNearest probe name stopAtRepository rest directory) := by
  constructor
  · intro nearest
    rcases nearest with ⟨isFile, nearer | ⟨other, nearer⟩, farther, directories, passed⟩
    · rcases List.cons.inj directories with ⟨rfl, -⟩
      exact Or.inl ⟨isFile, rfl⟩
    · rcases List.cons.inj directories with ⟨rfl, rest⟩
      rcases List.forall_mem_cons.mp passed with ⟨here, later⟩
      exact Or.inr ⟨not_stops_iff.mpr here, isFile, nearer, farther, rest, later⟩
  · intro cases
    rcases cases with ⟨isFile, rfl⟩ | ⟨goesOn, isFile, nearer, farther, rfl, passed⟩
    · exact ⟨isFile, [], rest, rfl, by simp⟩
    · exact ⟨isFile, first :: nearer, farther, rfl,
        List.forall_mem_cons.mpr ⟨not_stops_iff.mp goesOn, passed⟩⟩

theorem firstIn_cons_of_not_stops {first : PathName} {rest : List PathName}
    (goesOn : ¬Stops probe name stopAtRepository first) :
    firstIn probe name stopAtRepository (first :: rest) =
      firstIn probe name stopAtRepository rest := by
  rcases not_stops_iff.mp goesOn with ⟨noFile, notTop⟩
  have passes : (stopAtRepository && probe.isPresent (first.join repositoryName)) = false := by
    simpa using notTop
  rw [firstIn, noFile, passes]
  rfl

theorem firstIn_cons_of_stops {first : PathName}
    (stops : Stops probe name stopAtRepository first) (rest : List PathName) :
    firstIn probe name stopAtRepository (first :: rest) =
      if probe.isFile (first.join name) then some (first.join name) else none := by
  rw [firstIn]
  split
  case isTrue => rfl
  case isFalse noFile =>
    rcases stops with isFile | ⟨stops, isRepository⟩
    · exact absurd isFile noFile
    · rw [if_pos (by rw [stops, isRepository]; rfl)]

/-- The search finds the file in the nearest directory that has one, and nothing else. -/
theorem firstIn_eq_some_iff {directories : List PathName} {found : PathName} :
    firstIn probe name stopAtRepository directories = some found ↔
      ∃ directory, IsNearest probe name stopAtRepository directories directory ∧
        found = directory.join name := by
  induction directories with
  | nil =>
      constructor
      · intro impossible
        cases impossible
      · rintro ⟨directory, ⟨-, nearer, farther, directories, -⟩, -⟩
        simp at directories
  | cons first rest ih =>
      simp only [isNearest_cons_iff]
      by_cases stops : Stops probe name stopAtRepository first
      case pos =>
        rw [firstIn_cons_of_stops stops]
        by_cases isFile : probe.isFile (first.join name) = true
        · simp [isFile, stops, eq_comm]
        · simp [isFile, stops]
      case neg =>
        have noFile := (not_stops_iff.mp stops).1
        simp [firstIn_cons_of_not_stops stops, ih, noFile, stops]

section Alike

variable {other : Probe}

theorem firstIn_cons_congr {first : PathName} {rest otherRest : List PathName}
    (alike : AnswerAlike probe name stopAtRepository other [first])
    (same : ¬Stops probe name stopAtRepository first →
      firstIn other name stopAtRepository otherRest =
        firstIn probe name stopAtRepository rest) :
    firstIn other name stopAtRepository (first :: otherRest) =
      firstIn probe name stopAtRepository (first :: rest) := by
  rcases List.forall_mem_singleton.mp alike with ⟨sameFile, sameTop⟩
  have stopsAlike : Stops other name stopAtRepository first ↔
      Stops probe name stopAtRepository first := by
    rw [Stops, Stops, sameFile, and_congr_right fun stops => by rw [← sameTop stops]]
  by_cases stops : Stops probe name stopAtRepository first
  case pos =>
    rw [firstIn_cons_of_stops stops, firstIn_cons_of_stops (stopsAlike.mpr stops), sameFile]
  case neg =>
    rw [firstIn_cons_of_not_stops stops,
      firstIn_cons_of_not_stops (fun otherStops => stops (stopsAlike.mp otherStops)), same stops]

/-- Nothing counts that is above a directory in which the search stops. -/
theorem firstIn_eq_of_answerAlike {nearer : List PathName} {last : PathName}
    (stops : Stops probe name stopAtRepository last)
    (alike : AnswerAlike probe name stopAtRepository other (nearer ++ [last]))
    (farther otherFarther : List PathName) :
    firstIn other name stopAtRepository (nearer ++ last :: otherFarther) =
      firstIn probe name stopAtRepository (nearer ++ last :: farther) := by
  induction nearer with
  | nil => exact firstIn_cons_congr alike fun goesOn => absurd stops goesOn
  | cons first rest ih =>
      rcases List.forall_mem_cons.mp alike with ⟨here, later⟩
      exact firstIn_cons_congr (List.forall_mem_singleton.mpr here) fun _ => ih later

end Alike

end Going

/-! ## The search -/

/-- A search from an absolute directory goes through finitely many directories, which have the
initial parts of the first one, up to the root. It ends, with the file in the nearest of them that
has one and that it gets to, or without a file. No more of a file system counts than the answers that
it gives in these directories up to one in which the search stops. -/
theorem upward_finds_nearest {start : PathName} (isAbsolute : start.isAbsolute = true) :
    LeadsUp start (directories start) ∧
      (directories start).map PathName.parts = start.parts.inits.tail.reverse ∧
      ∀ (probe : Probe) (name : PathName) (stopAtRepository : Bool),
        (∀ result, EndsWith probe name stopAtRepository start result ↔
          upward probe start name stopAtRepository = result) ∧
        (∀ found, upward probe start name stopAtRepository = some found ↔
          ∃ directory, IsNearest probe name stopAtRepository (directories start) directory ∧
            found = directory.join name) ∧
        ∀ nearer last farther, directories start = nearer ++ last :: farther →
          Stops probe name stopAtRepository last →
            ∀ other, AnswerAlike probe name stopAtRepository other (nearer ++ [last]) →
              upward other start name stopAtRepository =
                upward probe start name stopAtRepository := by
  have leadsUp := leadsUp_directories isAbsolute
  refine ⟨leadsUp, leadsUp.map_parts isAbsolute, fun probe name stopAtRepository => ?_⟩
  refine ⟨fun result => ⟨fun ends => ends.eq_firstIn leadsUp, ?_⟩,
    fun found => firstIn_eq_some_iff, ?_⟩
  · rintro rfl
    exact endsWith_firstIn leadsUp
  · intro nearer last farther split stops other alike
    rw [upward, upward, split]
    exact firstIn_eq_of_answerAlike stops alike farther farther

/-- A file system with a repository in `/r`, and with the given files. -/
def treeWith (files : List String) : FileTree :=
  files.foldl (fun tree file => tree.put (PathName.ofText file.toList) (.file []))
    (FileTree.empty.put (PathName.ofText "/r/.git".toList) .directory)

/-- The file in the top directory of the repository is found, and whether there is one above it does
not count. -/
theorem upward_finds_nearest_topOfRepository :
    let probe (files : List String) : Probe := ⟨(treeWith files).isFile, (treeWith files).isPresent⟩
    let inside := probe ["/r/a/b/f", "/r/e"]
    let above := probe ["/e", "/r/a/b/f", "/r/e"]
    let path (name : String) := PathName.ofText name.toList
    let start := path "/r//a/./b/"
    start.isAbsolute = true ∧
      directories start = [path "/r//a/./b/", path "/r//a"] ++ path "/r" :: [path "/"] ∧
      Stops inside (path "e") true (path "/r") ∧
      AnswerAlike inside (path "e") true above
        ([path "/r//a/./b/", path "/r//a"] ++ [path "/r"]) ∧
      upward inside start (path "e") true = some (path "/r/e") ∧
      upward above start (path "e") true = some (path "/r/e") := by
  intro probe inside above path start
  have isAbsolute : start.isAbsolute = true := by decide
  have split : directories start =
      [path "/r//a/./b/", path "/r//a"] ++ path "/r" :: [path "/"] := by decide +kernel
  have stops : Stops inside (path "e") true (path "/r") := by decide +kernel
  have alike : AnswerAlike inside (path "e") true above
      ([path "/r//a/./b/", path "/r//a"] ++ [path "/r"]) := by
    decide +kernel
  rcases upward_finds_nearest isAbsolute with ⟨-, -, search⟩
  rcases search inside (path "e") true with ⟨-, finds, ends⟩
  have nearest : IsNearest inside (path "e") true (directories start) (path "/r") := by
    refine ⟨by decide +kernel, [path "/r//a/./b/", path "/r//a"], [path "/"], split, ?_⟩
    decide +kernel
  have found : upward inside start (path "e") true = some (path "/r/e") :=
    (finds _).mpr ⟨path "/r", nearest, by decide⟩
  exact ⟨isAbsolute, split, stops, alike, found, (ends _ _ _ split stops above alike).trans found⟩

end Search

end PropertyCascade
