import PropertyCascade.Toml.Quoted

/-!
# TOML keys

A key is bare if it consists of ASCII letters, digits, `_` and `-`, and quoted on one line
otherwise. A path is a sequence of keys with dots between them, and spaces around every key.
-/

namespace PropertyCascade

namespace Toml

namespace Key

/-- A character of a bare key. -/
def isBare (c : Char) : Bool :=
  ('A' ≤ c && c ≤ 'Z') || ('a' ≤ c && c ≤ 'z') || Numeral.isDigit c || c == '_' || c == '-'

/-- Reads a single key. -/
def read? (text : Text) : Option (Text × Text) :=
  match text.span isBare with
  | ([], _) => Quoted.readLine? text
  | (bare, rest) => some (bare, rest)

/-- The greatest number of keys in a path. -/
def maxPath : Nat := 79

/-- Reads a path of at most a given number of keys, with the spaces around it. -/
def readPath : Nat → Text → Option (List Text × Text)
  | 0, _ => none
  | count + 1, text => do
      let (key, rest) ← read? (Layout.skipSpaces text)
      match Layout.skipSpaces rest with
      | '.' :: more =>
          let (keys, after) ← readPath count more
          pure (key :: keys, after)
      | after => pure ([key], after)

/-- Reads a path. -/
def readPath? (text : Text) : Option (List Text × Text) :=
  readPath maxPath text

/-- Writes a key. -/
def write (key : Text) : Text :=
  if key ≠ [] ∧ key.all isBare then key else Quoted.writeAs (Quoted.Form.ofKey key) key

end Key

end Toml

end PropertyCascade
