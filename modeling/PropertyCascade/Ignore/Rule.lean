import PropertyCascade.Ignore.Wildcard
import PropertyCascade.Text.Blank

/-!
# Ignore rules

A line of an ignore file is a rule for the paths below the directory of the file. A rule that
starts with `!` takes paths back in, one that ends with a separator is about directories only, and
one without any other separator applies at every depth. Of the rules that match a path the last
one decides.
-/

namespace PropertyCascade

namespace Ignore

/-- What ignore files say about a path. -/
inductive Verdict where
  | leaveOut
  | takeIn
  deriving DecidableEq, Repr

/-- A rule. -/
structure Rule where
  verdict : Verdict
  onlyDirectories : Bool
  pattern : List Wildcard

namespace Rule

/-- What a line says. -/
inductive Line where
  /-- Nothing: it is empty or a comment. -/
  | nothing
  | rule (rule : Rule)
  /-- It has a pattern that cannot be read. -/
  | unreadable

/-- A line without the blanks at its end, which stay where the last one is an escaped space. -/
def trimmed (line : Text) : Text :=
  match line.reverse with
  | ' ' :: '\\' :: _ => line
  | _ => Text.trimEnd line

/-- The verdict of a line, whether it is tied to the directory of the file, and the rest. An
escaped mark at the start is no mark. -/
def marks : Text → Verdict × Bool × Text
  | '\\' :: '!' :: rest => (.leaveOut, false, '!' :: rest)
  | '\\' :: '#' :: rest => (.leaveOut, false, '#' :: rest)
  | '!' :: '/' :: rest => (.takeIn, true, rest)
  | '!' :: rest => (.takeIn, false, rest)
  | '/' :: rest => (.leaveOut, true, rest)
  | rest => (.leaveOut, false, rest)

/-- Whether a pattern is about directories only, and the pattern without the separator, and the
backslash before it, that say so. -/
def directoryMark (pattern : Text) : Bool × Text :=
  match pattern.reverse with
  | '/' :: '\\' :: rest => (true, rest.reverse)
  | '/' :: rest => (true, rest.reverse)
  | _ => (false, pattern)

/-- Whether a pattern starts at any depth by itself. -/
def startsAnywhere (pattern : Text) : Bool :=
  "**/".toList.isPrefixOf pattern || pattern == "**".toList

/-- A pattern without a separator applies at every depth. -/
def atEveryDepth (tied : Bool) (pattern : Text) : Text :=
  if tied || pattern.contains '/' || startsAnywhere pattern then pattern
  else "**/".toList ++ pattern

/-- A pattern that ends with a segment `**` is about what is inside a directory, and not about the
directory itself. -/
def insideOnly (pattern : Text) : Text :=
  if "/**".toList.isSuffixOf pattern then pattern ++ "/*".toList else pattern

/-- Reads a line that is no comment and has no blanks at its end. -/
def ofTrimmed (line : Text) : Line :=
  let (verdict, tied, marked) := marks line
  let (onlyDirectories, pattern) := directoryMark marked
  match Wildcard.ofText? (insideOnly (atEveryDepth tied pattern)) with
  | some wildcards => .rule ⟨verdict, onlyDirectories, wildcards⟩
  | none => .unreadable

/-- Reads a line. -/
def ofLine (line : Text) : Line :=
  match line with
  | '#' :: _ => .nothing
  | _ => if trimmed line = [] then .nothing else ofTrimmed (trimmed line)

/-- Whether a rule is about a path, given the path from the directory of the rule. -/
def covers (rule : Rule) (path : List UInt8) (isDirectory : Bool) : Bool :=
  (isDirectory || !rule.onlyDirectories) && Wildcard.isMatch rule.pattern path

/-- What the last rule that is about a path says. -/
def decide? (rules : List Rule) (path : List UInt8) (isDirectory : Bool) : Option Verdict :=
  (rules.reverse.find? fun rule => rule.covers path isDirectory).map (·.verdict)

end Rule

/-- The rules in an ignore file, and whether some line cannot be read. -/
structure RuleFile where
  rules : List Rule
  hasUnreadable : Bool

namespace RuleFile

/-- A file without rules. -/
def empty : RuleFile :=
  ⟨[], false⟩

/-- The lines of a file. A carriage return before a line end belongs to the line end. -/
def lines (content : List UInt8) : List (List UInt8) :=
  let pieces := content.splitOn 0x0A
  let ended := pieces.dropLast.map fun line =>
    if line.getLast? = some 0x0D then line.dropLast else line
  ended ++ (pieces.getLast?.toList.filter fun last => last != [])

/-- The texts of lines, up to the first one that is no text. -/
def texts : List (List UInt8) → List Text
  | [] => []
  | line :: rest =>
      match Text.Utf8.decode? line with
      | some text => text :: texts rest
      | none => []

/-- Lines without the byte order marks that the first one may start with. -/
def withoutMarks : List Text → List Text
  | [] => []
  | first :: rest => first.dropWhile (· == '\uFEFF') :: rest

/-- Gathers what lines say. -/
def ofLines : List Rule.Line → RuleFile
  | [] => empty
  | .nothing :: rest => ofLines rest
  | .rule rule :: rest => { ofLines rest with rules := rule :: (ofLines rest).rules }
  | .unreadable :: rest => { ofLines rest with hasUnreadable := true }

/-- Reads the content of a file. -/
def ofContent (content : List UInt8) : RuleFile :=
  ofLines ((withoutMarks (texts (lines content))).map Rule.ofLine)

/-- A later rule overrules an earlier one, a rule with a separator is tied to the directory of its
file, and a pattern that cannot be read is left aside. -/
example :
    let file := ofContent (Text.Utf8.encode "*.log\n!/keep.log\nbuild/\n[z-a]\n".toList)
    let verdict? (path : String) (isDirectory : Bool) :=
      Rule.decide? file.rules (Text.Utf8.encode path.toList) isDirectory
    verdict? "x/y.log" false = some .leaveOut ∧ verdict? "keep.log" false = some .takeIn ∧
      verdict? "x/keep.log" false = some .leaveOut ∧ verdict? "x/build" true = some .leaveOut ∧
      verdict? "x/build" false = none ∧ file.hasUnreadable = true := by
  decide +kernel

end RuleFile

end Ignore

end PropertyCascade
