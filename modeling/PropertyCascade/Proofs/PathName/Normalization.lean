import PropertyCascade.Proofs.PathName
import PropertyCascade.Run
import PropertyCascade.Session

/-!
# Normal forms of paths

What is left of an absolute path when it is normalised, said about the positions of its parts:
every `..` cancels the nearest name before it that no earlier `..` has cancelled, and the names that
are never cancelled stay. There is only one way to cancel like that. The stack that normalisation
works with holds the names that are not cancelled yet, the nearest on top, and this is the invariant
from which the positions are read off.

A path that is joined to a directory works on that stack from where the directory has left it. The
names of the directory are all that is known of it then, so a directory can be replaced by its
normal form before anything is joined to it.
-/

namespace PropertyCascade

namespace PathName

open Segment

/-! ## Cancelled names -/

section Cancelling

variable (parts : List Segment) (cancelled : Nat → Option Nat)

/-- A name stands before a position and is not cancelled by any part before the position. -/
structure IsOpen (position earlier : Nat) : Prop where
  lt_position : earlier < position
  isName : ∃ part, parts[earlier]? = some part ∧ part.isName = true
  kept : ∀ between < position, cancelled between ≠ some earlier

/-- Every `..` cancels the nearest name before it that is still open, if there is one. No other part
cancels anything. -/
def Cancels : Prop :=
  ∀ position earlier, cancelled position = some earlier ↔
    parts[position]? = some up ∧ IsOpen parts cancelled position earlier ∧
      ∀ other, IsOpen parts cancelled position other → other ≤ earlier

/-- Names that stand at the positions that are open in the end, in their order. -/
def AreLeft (names : List Segment) : Prop :=
  ∃ positions : List Nat, positions.Pairwise (· < ·) ∧
    (∀ position, position ∈ positions ↔ IsOpen parts cancelled parts.length position) ∧
    names.map some = positions.map (parts[·]?)

end Cancelling

variable {parts : List Segment}

/-- The positions of the names on the stack after some of the parts. -/
def openBefore (parts : List Segment) : Nat → List Nat
  | 0 => []
  | position + 1 =>
      match parts[position]? with
      | none => openBefore parts position
      | some part =>
          if part = up then (openBefore parts position).tail
          else if part.isName then position :: openBefore parts position
          else openBefore parts position

theorem map_openBefore (parts : List Segment) (position : Nat) :
    (openBefore parts position).map (parts[·]?) =
      ((parts.take position).foldl settle []).map some := by
  induction position with
  | zero => rfl
  | succ position ih =>
      rw [openBefore, List.take_add_one, List.foldl_append]
      cases found : parts[position]? with
      | none => exact ih
      | some part =>
          simp only [Option.toList_some, List.foldl_cons, List.foldl_nil, settle]
          split_ifs
          · rw [List.map_tail, ih, List.map_tail]
          · rw [List.map_cons, ih, List.map_cons, found]
          · exact ih

theorem openBefore_decreasing (parts : List Segment) (position : Nat) :
    (openBefore parts position).Pairwise (· > ·) ∧
      ∀ earlier ∈ openBefore parts position, earlier < position := by
  induction position with
  | zero => simp [openBefore]
  | succ position ih =>
      rcases ih with ⟨decreasing, below⟩
      have later : ∀ earlier ∈ openBefore parts position, earlier < position + 1 :=
        fun earlier member => Nat.lt_succ_of_lt (below earlier member)
      rw [openBefore]
      split
      · exact ⟨decreasing, later⟩
      · split_ifs
        · exact ⟨decreasing.tail, fun earlier member => later earlier (List.mem_of_mem_tail member)⟩
        · refine ⟨List.pairwise_cons.mpr ⟨below, decreasing⟩, fun earlier member => ?_⟩
          rcases List.mem_cons.mp member with rfl | member
          · exact Nat.lt_succ_self earlier
          · exact later earlier member
        · exact ⟨decreasing, later⟩

theorem lt_of_openBefore_eq_cons {position top : Nat} {rest : List Nat}
    (stack : openBefore parts position = top :: rest) : ∀ earlier ∈ rest, earlier < top := by
  have decreasing := (openBefore_decreasing parts position).1
  rw [stack] at decreasing
  exact (List.pairwise_cons.mp decreasing).1

/-- The name that the part at a position cancels: the one on top of the stack. -/
def topBefore (parts : List Segment) (position : Nat) : Option Nat :=
  if parts[position]? = some up then (openBefore parts position).head? else none

theorem topBefore_eq_some_iff {position earlier : Nat} :
    topBefore parts position = some earlier ↔ parts[position]? = some up ∧
      earlier ∈ openBefore parts position ∧
      ∀ other ∈ openBefore parts position, other ≤ earlier := by
  rw [topBefore]
  split
  case isFalse notUp => simp [notUp]
  case isTrue isUp =>
    cases stack : openBefore parts position with
    | nil => simp
    | cons top rest =>
        have below := lt_of_openBefore_eq_cons stack
        simp only [List.head?_cons, Option.some.injEq, isUp, true_and]
        constructor
        · rintro rfl
          refine ⟨List.mem_cons_self, fun other member => ?_⟩
          rcases List.mem_cons.mp member with rfl | member
          · exact Nat.le_refl other
          · exact Nat.le_of_lt (below other member)
        · rintro ⟨member, greatest⟩
          rcases List.mem_cons.mp member with rfl | member
          · rfl
          · exact absurd (greatest top List.mem_cons_self) (Nat.not_le.mpr (below earlier member))

theorem lt_of_topBefore {position earlier : Nat}
    (isTop : topBefore parts position = some earlier) : earlier < position :=
  (openBefore_decreasing parts position).2 earlier (topBefore_eq_some_iff.mp isTop).2.1

/-- A name is on the stack after a part if it is this part, or if it was on the stack and not on top
of it where the part is a `..`. -/
theorem mem_openBefore_succ_iff {position earlier : Nat} :
    earlier ∈ openBefore parts (position + 1) ↔
      (earlier = position ∧ ∃ part, parts[position]? = some part ∧ part.isName = true) ∨
        (earlier ∈ openBefore parts position ∧ topBefore parts position ≠ some earlier) := by
  rw [openBefore]
  cases found : parts[position]? with
  | none => simp [topBefore, found]
  | some part =>
      dsimp only
      split_ifs with isUp isName
      case pos =>
        subst isUp
        have notName : up.isName = false := by decide
        rw [topBefore, if_pos found]
        cases stack : openBefore parts position with
        | nil => simp [notName]
        | cons top rest =>
            have below := lt_of_openBefore_eq_cons stack
            simp only [List.tail_cons, List.head?_cons, ne_eq, Option.some.injEq,
              exists_eq_left', notName, Bool.false_eq_true, and_false, false_or, List.mem_cons]
            constructor
            · intro member
              exact ⟨Or.inr member, Nat.ne_of_gt (below earlier member)⟩
            · rintro ⟨rfl | member, different⟩
              · exact absurd rfl different
              · exact member
      case pos => simp [topBefore, found, isUp, isName]
      case neg => simp [topBefore, found, isUp, isName]

/-- A name is open after a part if it is this part, or if it was open and the part does not cancel
it. -/
theorem isOpen_succ_iff {cancelled : Nat → Option Nat} {position earlier : Nat}
    (backwards : ∀ between < position + 1, ∀ name, cancelled between = some name → name < between) :
    IsOpen parts cancelled (position + 1) earlier ↔
      (earlier = position ∧ ∃ part, parts[position]? = some part ∧ part.isName = true) ∨
        (IsOpen parts cancelled position earlier ∧ cancelled position ≠ some earlier) := by
  constructor
  · rintro ⟨less, isName, kept⟩
    rcases Nat.lt_succ_iff_lt_or_eq.mp less with less | rfl
    · refine Or.inr ⟨⟨less, isName, fun between before => ?_⟩, kept position ?_⟩
      · exact kept between (Nat.lt_succ_of_lt before)
      · exact Nat.lt_succ_self position
    · exact Or.inl ⟨rfl, isName⟩
  · rintro (⟨rfl, isName⟩ | ⟨⟨less, isName, kept⟩, keptByLast⟩)
    · refine ⟨Nat.lt_succ_self earlier, isName, fun between before isCancelled => ?_⟩
      have := backwards between before earlier isCancelled
      omega
    · refine ⟨Nat.lt_succ_of_lt less, isName, fun between before => ?_⟩
      rcases Nat.lt_succ_iff_lt_or_eq.mp before with before | rfl
      · exact kept between before
      · exact keptByLast

/-- If the parts before a position cancel what is on top of the stack, the stack holds the names
that are open. -/
theorem mem_openBefore_iff {cancelled : Nat → Option Nat} {position : Nat}
    (agree : ∀ between < position, cancelled between = topBefore parts between) (earlier : Nat) :
    earlier ∈ openBefore parts position ↔ IsOpen parts cancelled position earlier := by
  induction position with
  | zero =>
      constructor
      · intro member
        cases member
      · intro isOpen
        exact absurd isOpen.lt_position (Nat.not_lt_zero earlier)
  | succ position ih =>
      have backwards : ∀ between < position + 1, ∀ name,
          cancelled between = some name → name < between := by
        intro between before name isCancelled
        rw [agree between before] at isCancelled
        exact lt_of_topBefore isCancelled
      rw [mem_openBefore_succ_iff, isOpen_succ_iff backwards,
        ih fun between before => agree between (Nat.lt_succ_of_lt before),
        agree position (Nat.lt_succ_self position)]

/-- What is on top of the stack is the nearest open name. -/
theorem cancels_topBefore (parts : List Segment) : Cancels parts (topBefore parts) := by
  intro position earlier
  rw [topBefore_eq_some_iff]
  simp only [mem_openBefore_iff fun _ _ => rfl]

theorem Cancels.eq_topBefore {cancelled : Nat → Option Nat} (cancels : Cancels parts cancelled) :
    cancelled = topBefore parts := by
  funext position
  induction position using Nat.strongRecOn with
  | ind position ih =>
      apply Option.ext
      intro earlier
      rw [cancels, topBefore_eq_some_iff]
      simp only [mem_openBefore_iff ih]

theorem areLeft_foldl_settle (parts : List Segment) :
    AreLeft parts (topBefore parts) (parts.foldl settle []).reverse := by
  refine ⟨(openBefore parts parts.length).reverse, ?_, fun position => ?_, ?_⟩
  · exact List.pairwise_reverse.mpr (openBefore_decreasing parts parts.length).1
  · rw [List.mem_reverse, mem_openBefore_iff fun _ _ => rfl]
  · rw [List.map_reverse, List.map_reverse, map_openBefore, List.take_length]

/-! ## Joining to a normal form -/

section Join

variable {path : PathName} (isAbsolute : path.isAbsolute = true)

include isAbsolute

theorem names_normalize : path.normalize.names = path.names := by
  rw [normalize_of_isAbsolute isAbsolute, names_absolute fun _ => isProper_of_mem_names]

theorem normalize_normalize : path.normalize.normalize = path.normalize := by
  rw [normalize_of_isAbsolute ((isAbsolute_normalize path).trans isAbsolute),
    names_normalize isAbsolute, normalize_of_isAbsolute isAbsolute]

/-- A relative path works on the names of the directory. -/
theorem names_join_of_isRelative {target : PathName} (isRelative : target.isAbsolute = false) :
    (path.join target).names =
      ((effective target.segments).foldl settle path.names.reverse).reverse := by
  rw [names, parts_join isAbsolute isRelative, List.foldl_append, names, List.reverse_reverse]

theorem normalize_join_normalize (target : PathName) :
    (path.normalize.join target).normalize = (path.join target).normalize := by
  have normalIsAbsolute := (isAbsolute_normalize path).trans isAbsolute
  cases targetIsAbsolute : target.isAbsolute with
  | true => simp [join, targetIsAbsolute]
  | false =>
      rw [normalize_of_isAbsolute (isAbsolute_join normalIsAbsolute target),
        normalize_of_isAbsolute (isAbsolute_join isAbsolute target),
        names_join_of_isRelative normalIsAbsolute targetIsAbsolute,
        names_join_of_isRelative isAbsolute targetIsAbsolute, names_normalize isAbsolute]

end Join

theorem resolve_eq_of_normalize_eq {path other : PathName} (isAbsolute : path.isAbsolute = true)
    (same : other.normalize = path.normalize) (source : FileSource) (configName : Text) :
    resolve source configName other = resolve source configName path := by
  have otherIsAbsolute := isAbsolute_of_normalize_eq isAbsolute same
  rw [resolve, resolve, Resolution.ofPath, Resolution.ofPath, if_pos otherIsAbsolute,
    if_pos isAbsolute, names_eq_of_normalize_eq isAbsolute same]

theorem session_resolve_eq_of_normalize_eq {path other : PathName}
    (isAbsolute : path.isAbsolute = true) (same : other.normalize = path.normalize)
    (session : Session) (index : Nat) (client : Client) :
    session.resolve index client other = session.resolve index client path := by
  have otherIsAbsolute := isAbsolute_of_normalize_eq isAbsolute same
  rw [Session.resolve, Session.resolve, if_pos otherIsAbsolute, if_pos isAbsolute, same,
    names_eq_of_normalize_eq isAbsolute same]

/-- Normalising an absolute path gives an absolute path of proper names: the names of the path that
are left when every `..` has cancelled the nearest name before it that was open, which can be done
in one way. It changes nothing more when it is done again, nor when the path is joined with another
one before it is normalised. So paths with one normal form make every path absolute in the same way,
and they resolve to the same table, with a cache and without. -/
theorem normalize_congruence {path : PathName} (isAbsolute : path.isAbsolute = true) :
    (∃ names, path.normalize = absolute names ∧ path.normalize.isAbsolute = true ∧
      path.normalize.parts = root :: names ∧ (∀ name ∈ names, name.IsProper) ∧
      ∃ cancelled, Cancels path.parts cancelled ∧
        (∀ other, Cancels path.parts other → other = cancelled) ∧
        AreLeft path.parts cancelled names) ∧
    path.normalize.normalize = path.normalize ∧
    (∀ target, (path.join target).normalize = (path.normalize.join target).normalize) ∧
    ∀ other : PathName, other.normalize = path.normalize →
      (∀ target, Run.absolutize other target = Run.absolutize path target) ∧
      (∀ source configName, resolve source configName other = resolve source configName path) ∧
      ∀ (session : Session) (index : Nat) (client : Client),
        session.resolve index client other = session.resolve index client path := by
  refine ⟨⟨path.names, ?_⟩, normalize_normalize isAbsolute, fun target => ?_, fun other same => ?_⟩
  · exact ⟨normalize_of_isAbsolute isAbsolute, (isAbsolute_normalize path).trans isAbsolute,
      parts_normalize isAbsolute, fun _ => isProper_of_mem_names, topBefore path.parts,
      cancels_topBefore path.parts, fun _ cancels => cancels.eq_topBefore,
      areLeft_foldl_settle path.parts⟩
  · rw [normalize_join_normalize isAbsolute]
  · refine ⟨fun target => ?_, resolve_eq_of_normalize_eq isAbsolute same,
      session_resolve_eq_of_normalize_eq isAbsolute same⟩
    have otherIsAbsolute := isAbsolute_of_normalize_eq isAbsolute same
    rw [Run.absolutize, Run.absolutize, ← normalize_join_normalize otherIsAbsolute, same,
      normalize_join_normalize isAbsolute]

/-- A path with repeated separators, dots, more double dots than names at its start, and a name that
is no text. -/
def dottedPath : PathName :=
  ⟨[0x2F, 0x2E, 0x2E, 0x2F, 0x61, 0x2F, 0x2F, 0x62, 0x2F, 0x2E, 0x2F, 0x2E, 0x2E, 0x2F, 0xFF, 0x2F]⟩

/-- The parts of `dottedPath` are the root, `..`, a name, a second name that is cancelled, the `..`
that cancels it, and a third name. -/
theorem normalize_congruence_dottedPath :
    dottedPath.isAbsolute = true ∧
      dottedPath.parts = [root, up, [0x61], [0x62], up, [0xFF]] ∧
      dottedPath.normalize = absolute [[0x61], [0xFF]] ∧
      (∃ cancelled, Cancels dottedPath.parts cancelled ∧ cancelled 4 = some 3 ∧
        cancelled 1 = none ∧ AreLeft dottedPath.parts cancelled [[0x61], [0xFF]]) ∧
      dottedPath.normalize.normalize = dottedPath.normalize ∧
      ((dottedPath.join (ofText "../c".toList)).normalize =
        (dottedPath.normalize.join (ofText "../c".toList)).normalize) ∧
      Run.absolutize dottedPath (ofText "../c".toList) =
        Run.absolutize (absolute [[0x61], [0xFF]]) (ofText "../c".toList) := by
  have isAbsolute : dottedPath.isAbsolute = true := by decide
  have isNormal : (absolute [[0x61], [0xFF]]).normalize = dottedPath.normalize := by decide
  rcases normalize_congruence isAbsolute with
    ⟨⟨names, normal, -, parts, -, cancelled, cancels, unique, areLeft⟩, again, joined, alike⟩
  have isNames : names = [[0x61], [0xFF]] := by
    have computed : dottedPath.normalize.parts = [root, [0x61], [0xFF]] := by decide
    rw [parts] at computed
    exact (List.cons.inj computed).2
  subst isNames
  have isTop := unique _ (cancels_topBefore dottedPath.parts)
  refine ⟨isAbsolute, by decide, normal, ⟨cancelled, cancels, ?_, ?_, areLeft⟩, again, joined _,
    ((alike _ isNormal).1 _).symm⟩
  · rw [← isTop]
    decide
  · rw [← isTop]
    decide

end PathName

end PropertyCascade
