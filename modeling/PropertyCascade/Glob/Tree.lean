import PropertyCascade.Glob.Token

/-!
# Pattern trees

Tokens with their braces matched. A brace that is closed becomes a group, whose content is cut at
its own commas into options. A closing brace or a comma outside of all groups is a plain
character. When an opening brace is never closed, the first such brace is the last tree: reading
stops there with a fault.
-/

namespace PropertyCascade

namespace Glob

/-- A token, a group of options between braces, or a brace that is never closed. -/
inductive Tree where
  | leaf (token : Token)
  /-- A group with the offset of its opening brace. -/
  | group (opening : Nat) (options : List (List Tree))
  /-- An opening brace that is never closed, with its offset. -/
  | unclosed (opening : Nat)

namespace Tree

/-- A group that is not closed yet, its parts in reverse order. -/
structure Frame where
  /-- The offset of the opening brace. -/
  opening : Nat
  /-- The options before the last comma. -/
  finished : List (List Tree)
  /-- The option after the last comma. -/
  current : List Tree

/-- The trees outside of all open groups, in reverse order, and the open groups, the innermost
first. -/
structure Nesting where
  outer : List Tree
  frames : List Frame

namespace Nesting

/-- Adds a tree to the innermost open group. -/
def add (nesting : Nesting) (tree : Tree) : Nesting :=
  match nesting.frames with
  | [] => { nesting with outer := tree :: nesting.outer }
  | frame :: others =>
      { nesting with frames := { frame with current := tree :: frame.current } :: others }

/-- One token more. -/
def step (nesting : Nesting) (token : Token) : Nesting :=
  match token.kind, nesting.frames with
  | .plain '{', frames => { nesting with frames := ⟨token.offset, [], []⟩ :: frames }
  | .plain '}', frame :: others =>
      let options := (frame.current.reverse :: frame.finished).reverse
      { nesting with frames := others }.add (.group frame.opening options)
  | .plain ',', frame :: others =>
      let cut := { frame with finished := frame.current.reverse :: frame.finished, current := [] }
      { nesting with frames := cut :: others }
  | _, _ => nesting.add (.leaf token)

end Nesting

/-- The trees of a pattern, up to its first opening brace that is never closed. -/
def ofTokens (tokens : List Token) : List Tree :=
  let nesting := tokens.foldl Nesting.step ⟨[], []⟩
  match nesting.frames.getLast? with
  | none => nesting.outer.reverse
  | some frame => (.unclosed frame.opening :: nesting.outer).reverse

end Tree

end Glob

end PropertyCascade
