import PropertyCascade.Text.Basic

/-!
# Character classes

Bracketed classes such as `[a-z_]` and `[!0-9]`. Two readings of the text after the opening
bracket are given. `bodyLength?` only looks for the bracket that closes the class, and `ofBody`
reads the members of the text before it. Both go through the text in the same steps: a backslash
takes the next character, a character before `-` and a further character takes both of them, and
every other character stands for itself.

A class also has a text in the notation of regular expressions, in which other characters have a
meaning of their own.
-/

namespace PropertyCascade

namespace Glob

namespace Regex

/-- The characters that have a meaning of their own somewhere in regular expressions. -/
def escapable : List Char :=
  ['\\', '.', '+', '*', '?', '(', ')', '|', '[', ']', '{', '}', '^', '$', '#', '&', '-', '~']

/-- The text of a character that stands for itself. -/
def escape (c : Char) : Text :=
  if c ∈ escapable then ['\\', c] else [c]

end Regex

/-- A member of a class: a character, or the characters between two, both included. -/
inductive ClassMember where
  | single (c : Char)
  | span (first last : Char)
  deriving DecidableEq, Repr

namespace ClassMember

/-- Whether a member covers a character. -/
def covers : ClassMember → Char → Bool
  | single member, c => c == member
  | span first last, c => first ≤ c && c ≤ last

/-- Whether the first character of a span comes after its last. -/
def isReversed : ClassMember → Bool
  | single _ => false
  | span first last => last < first

/-- The text of a member. -/
def text : ClassMember → Text
  | single c => Regex.escape c
  | span first last => Regex.escape first ++ '-' :: Regex.escape last

end ClassMember

/-- A class of characters. -/
structure CharClass where
  negated : Bool
  members : List ClassMember
  deriving DecidableEq, Repr

namespace CharClass

/-- Whether a class accepts a character. A negated class never accepts the separator. -/
def accepts (charClass : CharClass) (c : Char) : Bool :=
  if charClass.negated then !charClass.members.any (·.covers c) && c != '/'
  else charClass.members.any (·.covers c)

/-- The number of characters before the bracket that closes a class. A bracket after `-` closes
the class, so it ends no span. -/
def closing? : Text → Option Nat
  | [] => none
  | ']' :: _ => some 0
  | ['\\'] => none
  | '\\' :: _ :: rest => (closing? rest).map (· + 2)
  | _ :: '-' :: ']' :: _ => some 2
  | _ :: '-' :: _ :: rest => (closing? rest).map (· + 3)
  | _ :: rest => (closing? rest).map (· + 1)

/-- The length of the body of a class, given the text after its opening bracket. -/
def bodyLength? : Text → Option Nat
  | '!' :: rest => (closing? rest).map (· + 1)
  | text => closing? text

/-- The members in the body of a class. -/
def membersOf : Text → List ClassMember
  | [] => []
  | '\\' :: escaped :: rest => .single escaped :: membersOf rest
  | first :: '-' :: last :: rest => .span first last :: membersOf rest
  | c :: rest => .single c :: membersOf rest

/-- The class with a given body. -/
def ofBody : Text → CharClass
  | '!' :: rest => ⟨true, membersOf rest⟩
  | body => ⟨false, membersOf body⟩

/-- The text of a class. A negated class lists the separator, too. -/
def text (charClass : CharClass) : Text :=
  (if charClass.negated then ['[', '^', '/'] else ['[']) ++
    charClass.members.flatMap ClassMember.text ++ [']']

/-- The number of items between the brackets when the class is written out: a negated class
excludes the separator by an item of its own. -/
def itemCount (charClass : CharClass) : Nat :=
  charClass.members.length + (if charClass.negated then 1 else 0)

/-- Whether a class has a span whose first character comes after its last. -/
def hasReversedSpan (charClass : CharClass) : Bool :=
  charClass.members.any (·.isReversed)

/-- A backslash at the end of a span is a member, so the bracket after it closes the class. -/
example : bodyLength? ['a', '-', '\\', ']', ']'] = some 3 ∧
    bodyLength? ['\\', ']', ']'] = some 2 ∧ bodyLength? ['a', '-', ']'] = some 2 ∧
    bodyLength? ['!'] = none := by
  decide

end CharClass

end Glob

end PropertyCascade
