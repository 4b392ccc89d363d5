import PropertyCascade.Glob.CharClass
import PropertyCascade.Glob.Interval

/-!
# Pattern items

What a pattern consists of once it has been read: a sequence of items, each of which denotes a
set of texts. `Item.Denotes` says which, `Item.text` writes an item as a regular expression, and
`Item.advance` moves a marking past the texts that an item denotes. The separator `/` is only
special to `*`, to the directories of `**/` and to negated classes.
-/

namespace PropertyCascade

namespace Glob

/-- An item of a pattern. -/
inductive Item where
  /-- One given character. -/
  | char (c : Char)
  /-- `?`: one arbitrary character. -/
  | anyChar
  /-- `*`: any text without a separator. -/
  | star
  /-- `**` at the end: any text. -/
  | anything
  /-- `**` before a separator: nothing, or any text that ends with a separator. -/
  | directories
  /-- A character of a class. -/
  | oneOf (charClass : CharClass)
  /-- A canonical numeral in an interval. -/
  | numerals (interval : Interval)
  /-- One of several sequences. -/
  | choice (options : List (List Item))

namespace Item

mutual

/-- The texts that an item denotes. -/
def Denotes : Item → Text → Prop
  | char c, text => text = [c]
  | anyChar, text => ∃ c, text = [c]
  | star, text => '/' ∉ text
  | anything, _ => True
  | directories, text => text = [] ∨ ∃ before, text = before ++ ['/']
  | oneOf charClass, text => ∃ c, text = [c] ∧ charClass.accepts c = true
  | numerals interval, text => interval.Denotes text
  | choice options, text => DenotedBySome options text

/-- The texts that a sequence of items denotes: one text per item, one after the other. -/
def DenotedBy : List Item → Text → Prop
  | [], text => text = []
  | item :: items, text =>
      ∃ before after, text = before ++ after ∧ item.Denotes before ∧ DenotedBy items after

/-- The texts that some sequence among several denotes. -/
def DenotedBySome : List (List Item) → Text → Prop
  | [], _ => False
  | option :: options, text => DenotedBy option text ∨ DenotedBySome options text

end

mutual

/-- The text of an item, in the notation of regular expressions. -/
def text : Item → Text
  | char c => Regex.escape c
  | anyChar => ['.']
  | star => ['[', '^', '/', ']', '*']
  | anything => ['.', '*']
  | directories => ['(', '?', ':', '.', '*', '/', ')', '?']
  | oneOf charClass => charClass.text
  | numerals interval => interval.expression.text
  | choice options => ['(', '?', ':'] ++ ['|'].intercalate (optionTexts options) ++ [')']

/-- The text of a sequence of items. -/
def textOf : List Item → Text
  | [] => []
  | item :: items => item.text ++ textOf items

/-- The texts of several sequences. -/
def optionTexts : List (List Item) → List Text
  | [] => []
  | option :: options => textOf option :: optionTexts options

end

mutual

/-- Past a text that the item denotes. -/
def advance : Item → Text → Marking → Marking
  | char c, text, marking => Marking.past (· == c) text marking
  | anyChar, text, marking => Marking.past (fun _ => true) text marking
  | star, text, marking => Marking.pastMany (· != '/') false text marking
  | anything, text, marking => Marking.pastMany (fun _ => true) false text marking
  | directories, text, marking => Marking.pastDirectories (· == '/') false false text marking
  | oneOf charClass, text, marking => Marking.past charClass.accepts text marking
  | numerals interval, text, marking => interval.expression.advance text marking
  | choice options, text, marking => advanceSome options text marking

/-- Past a text that the sequence of items denotes. -/
def advanceAll : List Item → Text → Marking → Marking
  | [], _, marking => marking
  | item :: items, text, marking => advanceAll items text (item.advance text marking)

/-- Past a text that some sequence denotes. -/
def advanceSome : List (List Item) → Text → Marking → Marking
  | [], text, _ => Marking.nowhere text
  | option :: options, text, marking =>
      Marking.union (advanceAll option text marking) (advanceSome options text marking)

end

/-- Whether a sequence of items denotes a text. -/
def matchesAll (items : List Item) (text : Text) : Bool :=
  (advanceAll items text (Marking.start text)).atEnd

/-- The number of pieces that an item adds to a sequence. -/
def pieceCount : Item → Nat
  | numerals interval => interval.expression.pieceCount
  | _ => 1

/-- The number of pieces of a sequence of items. -/
def pieceCountAll (items : List Item) : Nat :=
  items.foldr (fun item count => item.pieceCount + count) 0

mutual

/-- The levels of nesting inside the deepest piece of an item. A repetition, a group, a choice, a
class, a class with two or more items and a sequence of two or more pieces are a level each. -/
def depth : Item → Nat
  | char _ => 0
  | anyChar => 0
  | star => 2
  | anything => 1
  | directories => 4
  | oneOf charClass => if 2 ≤ charClass.itemCount then 2 else 1
  | numerals interval => interval.expression.depth
  | choice options => 2 + depthSome options

/-- The levels of nesting inside the deepest piece of a sequence of items. -/
def depthAll : List Item → Nat
  | [] => 0
  | item :: items => max item.depth (depthAll items)

/-- The levels of nesting in the deepest of several sequences. -/
def depthSome : List (List Item) → Nat
  | [] => 0
  | option :: options =>
      max (NumeralExpr.sequenceLevel (pieceCountAll option) + depthAll option)
        (depthSome options)

end

/-- The levels of nesting in a sequence of items. -/
def sequenceDepth (items : List Item) : Nat :=
  NumeralExpr.sequenceLevel (pieceCountAll items) + depthAll items

mutual

/-- Whether an item has a class with a reversed span. -/
def hasReversedSpan : Item → Bool
  | oneOf charClass => charClass.hasReversedSpan
  | choice options => someReversedSpan options
  | _ => false

/-- Whether some item of a sequence has a class with a reversed span. -/
def anyReversedSpan : List Item → Bool
  | [] => false
  | item :: items => item.hasReversedSpan || anyReversedSpan items

/-- Whether some item of several sequences has a class with a reversed span. -/
def someReversedSpan : List (List Item) → Bool
  | [] => false
  | option :: options => anyReversedSpan option || someReversedSpan options

end

end Item

end Glob

end PropertyCascade
