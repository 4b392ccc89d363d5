/-!
# Texts

A text is the list of its characters, which are Unicode scalar values. File contents, property
keys and values, patterns and names shown to a user are all texts, so that every reader in the
library is a recursion on a list. This module holds the cuts and comparisons that they share.
-/

namespace PropertyCascade

/-- A text is the list of its characters. -/
abbrev Text := List Char

namespace Text

/-- The parts before and after the first occurrence of a separator, if it occurs. -/
def cutFirst (separator : Char) : Text → Option (Text × Text)
  | [] => none
  | c :: rest =>
      if c = separator then some ([], rest)
      else (cutFirst separator rest).map fun (before, after) => (c :: before, after)

theorem cutFirst_append {separator : Char} {before : Text} (first : separator ∉ before)
    (after : Text) : cutFirst separator (before ++ separator :: after) = some (before, after) := by
  induction before with
  | nil => simp [cutFirst]
  | cons c rest ih =>
      rcases not_or.mp (mt List.mem_cons.mpr first) with ⟨different, notInRest⟩
      simp [cutFirst, Ne.symm different, ih notInRest]

theorem cutFirst_eq_none {separator : Char} {text : Text} (absent : separator ∉ text) :
    cutFirst separator text = none := by
  induction text with
  | nil => rfl
  | cons c rest ih =>
      rcases not_or.mp (mt List.mem_cons.mpr absent) with ⟨different, notInRest⟩
      simp [cutFirst, Ne.symm different, ih notInRest]

/-- The lower case of an ASCII letter; every other character stays. -/
def asciiLower (c : Char) : Char :=
  if 'A' ≤ c ∧ c ≤ 'Z' then Char.ofNat (c.toNat + 32) else c

/-- Equality up to the case of ASCII letters. -/
def equalsIgnoringCase (left right : Text) : Bool :=
  left.map asciiLower == right.map asciiLower

/-- The content of a text without the byte order mark that it may start with. -/
def withoutMark : Text → Text
  | '\uFEFF' :: rest => rest
  | content => content

theorem withoutMark_eq_self {text : Text} (noMark : text.head? ≠ some '\uFEFF') :
    withoutMark text = text := by
  unfold withoutMark
  split
  case h_1 => simp at noMark
  case h_2 => rfl

end Text

end PropertyCascade
