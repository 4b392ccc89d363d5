import PropertyCascade.Glob.Item
import PropertyCascade.Glob.Tree

/-!
# Patterns

A section header read as a pattern, and the matching of file names against it. A pattern with a
separator is matched against the path relative to the directory of its config file, any other
against the base name. A separator at the start only ties the pattern to that directory and is
no part of what is matched.

Trees are read from left to right, and the first fault found is reported. Only a pattern without
such a fault is examined for reversed spans and for the depth of its nesting.
-/

namespace PropertyCascade

namespace Glob

namespace Item

/-- The characters of a sequence of plain tokens. -/
def plainText? : List Tree → Option Text
  | [] => some []
  | .leaf ⟨_, .plain c⟩ :: trees => (plainText? trees).map (c :: ·)
  | _ :: _ => none

/-- The interval between the braces of a group, if its content has the form of one. -/
def intervalOf (options : List (List Tree)) : Except Fault (Option Interval) :=
  match options with
  | [content] =>
      match plainText? content with
      | some text => Interval.read text
      | none => .ok none
  | _ => .ok none

/-- Whether a tree is a plain separator. -/
def isSeparator : Tree → Bool
  | .leaf ⟨_, .plain '/'⟩ => true
  | _ => false

/-- Reads a token that is no part of a `**`. -/
def ofToken (token : Token) : Except Fault Item :=
  match token.kind with
  | .plain '*' => .ok star
  | .plain '?' => .ok anyChar
  | .plain '[' => .error (.unterminatedClass token.offset)
  | .plain c => .ok (char c)
  | .escaped c => .ok (char c)
  | .strayEscape => .error .trailingEscape
  | .bracket body =>
      let charClass := CharClass.ofBody body
      if charClass.members = [] then .error (.emptyClass token.offset) else .ok (oneOf charClass)

/-- The items of a group: the content of a single option stands between literal braces. -/
def ofChoices : List (List Item) → List Item
  | [items] => char '{' :: items ++ [char '}']
  | choices => [choice choices]

mutual

/-- Reads a tree. `fresh` says whether it starts a path segment. Where there are options to choose
from, each of them takes the place of the group; the content of a single option follows a brace. -/
def ofTree (fresh : Bool) : Tree → Except Fault (List Item)
  | .leaf token => (ofToken token).map fun item => [item]
  | .unclosed opening => .error (.unterminatedBrace opening)
  | .group _ options => do
      match ← intervalOf options with
      | some interval => pure [numerals interval]
      | none =>
          let choices ← ofOptions (fresh && options.length != 1) options
          pure (ofChoices choices)

/-- Reads a sequence of trees. `fresh` says whether it starts a path segment: only there may `**`
stand, and only if the segment ends after it. -/
def ofTrees (fresh : Bool) : List Tree → Except Fault (List Item)
  | [] => .ok []
  | .leaf ⟨offset, .plain '*'⟩ :: .leaf ⟨_, .plain '*'⟩ :: .leaf ⟨_, .plain '/'⟩ :: rest =>
      if fresh then do
        let items ← ofTrees true rest
        pure (directories :: items)
      else .error (.misplacedGlobstar offset)
  | [.leaf ⟨offset, .plain '*'⟩, .leaf ⟨_, .plain '*'⟩] =>
      if fresh then .ok [anything] else .error (.misplacedGlobstar offset)
  | .leaf ⟨offset, .plain '*'⟩ :: .leaf ⟨_, .plain '*'⟩ :: _ => .error (.misplacedGlobstar offset)
  | tree :: rest => do
      let items ← ofTree fresh tree
      let others ← ofTrees (isSeparator tree) rest
      pure (items ++ others)

/-- Reads each of several options. -/
def ofOptions (fresh : Bool) : List (List Tree) → Except Fault (List (List Item))
  | [] => .ok []
  | option :: options => do
      let items ← ofTrees fresh option
      let others ← ofOptions fresh options
      pure (items :: others)

end

end Item

/-- What a pattern is matched against. -/
inductive Target where
  /-- The last component of a path. -/
  | basename
  /-- The path relative to the directory of the config file. -/
  | relativePath
  deriving DecidableEq, Repr

/-- A section header read as a pattern. -/
structure Pattern where
  /-- The header as written. -/
  source : Text
  target : Target
  items : List Item

namespace Pattern

/-- The greatest number of levels that a pattern may nest. -/
def maxDepth : Nat := 250

/-- The levels around the items: the pattern is anchored at both ends around a group. -/
def outerDepth : Nat := 2

/-- What a header is matched against. -/
def targetOf (source : Text) : Target :=
  if source.contains '/' then .relativePath else .basename

/-- The tokens of a header. A separator at the start is left out, but counts for the offsets. -/
def tokensOf : Text → List Token
  | '/' :: body => Token.ofText 1 body
  | body => Token.ofText 0 body

/-- The items of a header. -/
def itemsOf (source : Text) : Except Fault (List Item) :=
  Item.ofTrees true (Tree.ofTokens (tokensOf source))

/-- Reads a section header. -/
def compile (source : Text) : Except Fault Pattern := do
  let items ← itemsOf source
  if Item.anyReversedSpan items then .error .reversedSpan
  else if maxDepth < outerDepth + Item.sequenceDepth items then .error .tooDeep
  else pure ⟨source, targetOf source, items⟩

/-- Whether the pattern denotes a text. -/
def isMatch (pattern : Pattern) (candidate : Text) : Bool :=
  Item.matchesAll pattern.items candidate

/-- The texts that the pattern denotes. -/
def Denotes (pattern : Pattern) (candidate : Text) : Prop :=
  Item.DenotedBy pattern.items candidate

/-- The regular expression that a pattern is written as. It is anchored at both ends, and a dot
in it stands for every character. -/
def expression (pattern : Pattern) : Text :=
  ['(', '?', 's', ')', '^', '(', '?', ':'] ++ Item.textOf pattern.items ++ [')', '$']

/-- Whether the pattern covers a file, given by its base name and its relative path. -/
def covers (pattern : Pattern) (basename relativePath : Text) : Bool :=
  match pattern.target with
  | .basename => pattern.isMatch basename
  | .relativePath => pattern.isMatch relativePath

/-- A separator at the start is no part of what is matched, and `**` spans any number of
directories. -/
example : (compile "/a/**/b".toList).toOption.map (fun pattern =>
    (pattern.isMatch "a/b".toList, pattern.isMatch "a/x/y/b".toList,
      pattern.isMatch "a/xb".toList)) = some (true, true, false) := by
  decide +kernel

end Pattern

end Glob

end PropertyCascade
