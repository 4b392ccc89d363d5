import PropertyCascade.Glob.Marking
import PropertyCascade.Number.Numeral

/-!
# Numeral expressions

Small expressions over digits, in which the numerals of an interval are described. An expression
has a text, in the notation of regular expressions; a meaning, the set of texts that it denotes;
and a way to advance a marking past one of these texts.
-/

namespace PropertyCascade

namespace Glob

/-- An expression over characters and digits. -/
inductive NumeralExpr where
  /-- The empty text. -/
  | empty
  /-- One given character. -/
  | char (c : Char)
  /-- One digit between two digits, both included. -/
  | span (first last : Nat)
  /-- A given number of arbitrary digits. -/
  | anyDigits (count : Nat)
  /-- One expression after another. -/
  | seq (left right : NumeralExpr)
  /-- One of two expressions. -/
  | either (left right : NumeralExpr)
  /-- An expression in parentheses. -/
  | group (body : NumeralExpr)
  deriving DecidableEq, Repr

namespace NumeralExpr

/-- The texts that an expression denotes. -/
def Denotes : NumeralExpr → Text → Prop
  | empty, text => text = []
  | char c, text => text = [c]
  | span first last, text =>
      ∃ digit, first ≤ digit ∧ digit ≤ last ∧ text = [Nat.digitChar digit]
  | anyDigits count, text => text.length = count ∧ ∀ c ∈ text, Numeral.isDigit c = true
  | seq left right, text =>
      ∃ before after, text = before ++ after ∧ left.Denotes before ∧ right.Denotes after
  | either left right, text => left.Denotes text ∨ right.Denotes text
  | group body, text => body.Denotes text

/-- The text of an expression. -/
def text : NumeralExpr → Text
  | empty => []
  | char c => [c]
  | span first last =>
      if first = last then [Nat.digitChar first]
      else ['[', Nat.digitChar first, '-', Nat.digitChar last, ']']
  | anyDigits 0 => []
  | anyDigits 1 => ['[', '0', '-', '9', ']']
  | anyDigits count => ['[', '0', '-', '9', ']', '{'] ++ Numeral.ofNat count ++ ['}']
  | seq left right => left.text ++ right.text
  | either left right => left.text ++ '|' :: right.text
  | group body => ['(', '?', ':'] ++ body.text ++ [')']

/-- Whether a character is a digit between two digits. -/
def inSpan (first last : Nat) (c : Char) : Bool :=
  Numeral.isDigit c && first ≤ Numeral.digitValue c && Numeral.digitValue c ≤ last

/-- Past a given number of digits. -/
def pastDigits : Nat → Text → Marking → Marking
  | 0, _, marking => marking
  | count + 1, text, marking =>
      pastDigits count text (Marking.past Numeral.isDigit text marking)

/-- Past a text that the expression denotes. -/
def advance : NumeralExpr → Text → Marking → Marking
  | empty, _, marking => marking
  | char c, text, marking => Marking.past (· == c) text marking
  | span first last, text, marking => Marking.past (inSpan first last) text marking
  | anyDigits count, text, marking => pastDigits count text marking
  | seq left right, text, marking => right.advance text (left.advance text marking)
  | either left right, text, marking =>
      Marking.union (left.advance text marking) (right.advance text marking)
  | group body, text, marking => body.advance text marking

/-- One of several expressions. -/
def oneOf : List NumeralExpr → NumeralExpr
  | [] => empty
  | [only] => only
  | first :: others => either first (oneOf others)

/-- One of several expressions, in parentheses if there is more than one. -/
def grouped : List NumeralExpr → NumeralExpr
  | [only] => only
  | alternatives => group (oneOf alternatives)

/-- The number of pieces that an expression adds to a sequence. -/
def pieceCount : NumeralExpr → Nat
  | empty => 0
  | char _ => 1
  | span _ _ => 1
  | anyDigits 0 => 0
  | anyDigits _ => 1
  | seq left right => left.pieceCount + right.pieceCount
  | either _ _ => 1
  | group _ => 1

/-- A sequence of two or more pieces is a level of nesting of its own. -/
def sequenceLevel (pieces : Nat) : Nat :=
  if 2 ≤ pieces then 1 else 0

/-- The levels of nesting inside the deepest piece of an expression. -/
def depth : NumeralExpr → Nat
  | empty => 0
  | char _ => 0
  | span first last => if first = last then 0 else 1
  | anyDigits 0 => 0
  | anyDigits 1 => 1
  | anyDigits _ => 2
  | seq left right => max left.depth right.depth
  | either left right =>
      max (sequenceLevel left.pieceCount + left.depth)
        (match right with
          | either _ _ => right.depth
          | _ => sequenceLevel right.pieceCount + right.depth)
  | group body =>
      match body with
      | either _ _ => 2 + body.depth
      | _ => 1 + sequenceLevel body.pieceCount + body.depth

end NumeralExpr

end Glob

end PropertyCascade
