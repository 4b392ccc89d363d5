import PropertyCascade.Proofs.Glob.IntervalSteps
import PropertyCascade.Proofs.Glob.Scanner

/-!
# Reading patterns by indexes

The scans of a pattern as loops over the indexes of a text: the search for the bracket that closes a
class, the reading of a class, the search for the brace that closes a brace, the search for the
commas of its content, and the reading of a pattern, which calls itself on slices. A loop goes on
by one, two or three characters, or at the end of what it has found, and so it can leave the text
behind.

Every step of the loops may trap: an index that its type does not hold, a character or a slice that
is not in the text, a brace that is closed without being open, a round that does not get ahead, and
a call for a slice that is not shorter than the text. The greatest index of the type is a parameter.
-/

namespace PropertyCascade

namespace Glob

namespace Indexed

open Checked

variable (limit : Nat)

/-! ## Classes -/

/-- The last character of the span whose first one stands at an index. A bracket ends no span. -/
def spanEnd? (chars : Text) (index : Nat) : Checked (Option Char) := do
  let dash ← plus limit index 1
  let last ← plus limit index 2
  match chars[dash]?, chars[last]? with
  | some '-', some c => pure (if c = ']' then none else some c)
  | _, _ => pure none

/-- A member of a class is passed, or the bracket that closes the class is found. -/
def endRound (chars : Text) (index : Nat) (_ : Unit) : Checked (Round Unit (Option Nat)) := do
  let c ← charAt chars index
  if c = ']' then pure (.done (some index))
  else if c = '\\' then do
    let later ← plus limit index 2
    pure (.next later ())
  else do
    let last? ← spanEnd? limit chars index
    let later ← plus limit index (if last?.isSome then 3 else 1)
    pure (.next later ())

/-- The index of the bracket that closes the class which opens at an index. -/
def classEnd (chars : Text) (opening : Nat) : Checked (Option Nat) := do
  let body ← plus limit opening 1
  let first ← if chars[body]? = some '!' then plus limit body 1 else pure body
  loop chars.length (endRound limit chars) (fun _ => pure none) first ()

/-- A member of a class is added to those before, or the class is complete. -/
def classRound (chars : Text) (offset : Nat) (negated : Bool) (index : Nat)
    (members : List ClassMember) :
    Checked (Round (List ClassMember) (Except Fault (CharClass × Nat))) := do
  let c ← charAt chars index
  if c = ']' then
    if members = [] then pure (.done (.error (.emptyClass offset)))
    else do
      let length ← plus limit index 1
      pure (.done (.ok (⟨negated, members⟩, length)))
  else if c = '\\' then do
    let next ← plus limit index 1
    match chars[next]? with
    | none => pure (.done (.error (.unterminatedClass offset)))
    | some escaped => do
        let later ← plus limit index 2
        pure (.next later (members ++ [.single escaped]))
  else do
    match ← spanEnd? limit chars index with
    | some last => do
        let later ← plus limit index 3
        pure (.next later (members ++ [.span c last]))
    | none => do
        let later ← plus limit index 1
        pure (.next later (members ++ [.single c]))

/-- The class that a text starts with, and the number of its characters. -/
def readClass (chars : Text) (offset : Nat) : Checked (Except Fault (CharClass × Nat)) :=
  let negated := chars[1]? = some '!'
  loop chars.length (classRound limit chars offset negated)
    (fun _ => pure (.error (.unterminatedClass offset))) (if negated then 2 else 1) []

/-! ## Braces -/

/-- The index behind a character, with the one that it escapes or the class that it opens. -/
def indexAfter (chars : Text) (index : Nat) (c : Char) : Checked Nat :=
  if c = '\\' then do
    let escaped ← plus limit index 1
    plus limit escaped 1
  else if c = '[' then do
    let closing? ← classEnd limit chars index
    plus limit (closing?.getD index) 1
  else plus limit index 1

/-- A character is passed, or the brace that closes the outermost one is found. -/
def braceRound (chars : Text) (index depth : Nat) : Checked (Round Nat (Option Nat)) := do
  let c ← charAt chars index
  if c = '{' then do
    let deeper ← plus limit depth 1
    let later ← indexAfter limit chars index c
    pure (.next later deeper)
  else if c = '}' then do
    let outer ← minus depth 1
    if outer = 0 then pure (.done (some index))
    else do
      let later ← indexAfter limit chars index c
      pure (.next later outer)
  else do
    let later ← indexAfter limit chars index c
    pure (.next later depth)

/-- The index of the brace that closes the one at an index. -/
def closingBrace (chars : Text) (opening : Nat) : Checked (Option Nat) :=
  loop chars.length (braceRound limit chars) (fun _ => pure none) opening 0

/-- The options found so far in the content of a brace. -/
structure Cutting where
  /-- The number of open braces. -/
  depth : Nat
  /-- Where the current option starts. -/
  start : Nat
  /-- The options before the last comma, with the indexes at which they start. -/
  options : List (Nat × Text)

/-- A character is passed, or a comma ends an option. A brace that is closed without being open is
no error here. -/
def cutRound (content : Text) (index : Nat) (cutting : Cutting) :
    Checked (Round Cutting (List (Nat × Text))) := do
  let c ← charAt content index
  if c = '{' then do
    let deeper ← plus limit cutting.depth 1
    let later ← indexAfter limit content index c
    pure (.next later { cutting with depth := deeper })
  else if c = '}' then do
    let later ← indexAfter limit content index c
    pure (.next later { cutting with depth := cutting.depth - 1 })
  else if c = ',' ∧ cutting.depth = 0 then do
    let option ← slice content cutting.start index
    let start ← plus limit index 1
    let later ← indexAfter limit content index c
    pure (.next later ⟨0, start, cutting.options ++ [(cutting.start, option)]⟩)
  else do
    let later ← indexAfter limit content index c
    pure (.next later cutting)

/-- The options of a brace, with the indexes at which they start. -/
def splitOptions (content : Text) : Checked (List (Nat × Text)) :=
  loop content.length (cutRound limit content)
    (fun cutting => do
      let option ← slice content (min cutting.start content.length) content.length
      pure (cutting.options ++ [(cutting.start, option)]))
    0 ⟨0, 0, []⟩

/-! ## Patterns -/

/-- A call of the reader for a slice. -/
abbrev Reader := Scanner.Slice → Checked (Except Fault (List Item))

/-- Reads each of several options, up to the first fault. -/
def readOptions (call : Reader) (base : Nat) (fresh : Bool) :
    List (Nat × Text) → Checked (Except Fault (List (List Item)))
  | [] => pure (.ok [])
  | (start, text) :: others => do
      let offset ← plus limit base start
      match ← call ⟨offset, fresh, text⟩ with
      | .error fault => pure (.error fault)
      | .ok items => do
          let rest ← readOptions call base fresh others
          pure (rest.map (items :: ·))

/-- Reads the content of a brace. -/
def readBrace (call : Reader) (content : Text) (base : Nat) (fresh : Bool) :
    Checked (Except Fault (List Item)) :=
  match Interval.read content with
  | .error fault => pure (.error fault)
  | .ok (some interval) => do
      let _ ← interval.expressionSteps
      pure (.ok [.numerals interval])
  | .ok none => do
      let options ← splitOptions limit content
      if options.length < 2 then do
        let reading ← call ⟨base, false, content⟩
        pure (reading.map fun items => .char '{' :: items ++ [.char '}'])
      else do
        let choices ← readOptions limit call base fresh options
        pure (choices.map fun items => [.choice items])

/-- The items read so far. -/
structure Progress where
  /-- Whether a path segment starts here. -/
  fresh : Bool
  items : List Item

/-- What a round of the reader comes to. -/
abbrev ReadRound := Round Progress (Except Fault (List Item))

/-- The reading goes on after some items, a number of characters further on. -/
def Progress.pass (progress : Progress) (index : Nat) (items : List Item) (length : Nat)
    (fresh : Bool) : Checked ReadRound := do
  let later ← plus limit index length
  pure (.next later ⟨fresh, progress.items ++ items⟩)

/-- The reading ends with a fault. -/
def fail (fault : Fault) : Checked ReadRound :=
  pure (.done (.error fault))

/-- Two stars are read, given the character that follows them. -/
def globstarRound (base index : Nat) (follower : Option Char) (progress : Progress) :
    Checked ReadRound := do
  if progress.fresh = false ∨ follower ≠ none ∧ follower ≠ some '/' then do
    let offset ← plus limit base index
    fail (.misplacedGlobstar offset)
  else if follower.isSome then progress.pass limit index [.directories] 3 true
  else progress.pass limit index [.anything] 2 false

/-- An item or a brace is read. -/
def readRound (base : Nat) (chars : Text) (call : Reader) (index : Nat) (progress : Progress) :
    Checked ReadRound := do
  let pass := progress.pass limit index
  let c ← charAt chars index
  if c = '*' then do
    let second ← plus limit index 1
    if chars[second]? = some '*' then do
      let third ← plus limit index 2
      globstarRound limit base index chars[third]? progress
    else pass [.star] 1 false
  else if c = '?' then pass [.anyChar] 1 false
  else if c = '/' then pass [.char '/'] 1 true
  else if c = '\\' then do
    let next ← plus limit index 1
    match chars[next]? with
    | none => fail .trailingEscape
    | some escaped => pass [.char escaped] 2 false
  else if c = '[' then do
    let text ← slice chars index chars.length
    let offset ← plus limit base index
    match ← readClass limit text offset with
    | .error fault => fail fault
    | .ok (charClass, length) => pass [.oneOf charClass] length false
  else if c = '{' then do
    let offset ← plus limit base index
    match ← closingBrace limit chars index with
    | none => fail (.unterminatedBrace offset)
    | some closing => do
        let start ← plus limit index 1
        let content ← slice chars start closing
        let inner ← plus limit offset 1
        match ← readBrace limit call content inner progress.fresh with
        | .error fault => fail fault
        | .ok items => do
            let distance ← minus closing index
            let length ← plus limit distance 1
            pass items length false
  else pass [.char c] 1 false

/-- Reads a text whose first character has a given offset. -/
def read (base : Nat) (fresh : Bool) (chars : Text) : Checked (Except Fault (List Item)) :=
  loop chars.length
    (readRound limit base chars fun slice =>
      if _shorter : slice.chars.length < chars.length then
        read slice.base slice.fresh slice.chars
      else .error .notShorter)
    (fun progress => pure (.ok progress.items)) 0 ⟨fresh, []⟩
termination_by chars.length

/-- Reads a section header. A separator at the start is left out, but counts for the offsets. -/
def readPattern : Text → Checked (Except Fault (List Item))
  | '/' :: body => read limit 1 true body
  | body => read limit 0 true body

end Indexed

end Glob

end PropertyCascade
