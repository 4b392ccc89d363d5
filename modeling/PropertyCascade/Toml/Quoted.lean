import PropertyCascade.Number.Numeral
import PropertyCascade.Toml.Layout

/-!
# TOML strings

The four quoted forms of strings. Between quotation marks a backslash escapes; between apostrophes
every character stands for itself. Either form has a variant with three marks, which may span
lines and hold up to two marks in a row.

A string is written in the plainest form that can hold it without escapes; only where none can,
it is escaped. Every writer has a reader that takes exactly what was written and leaves the rest.
-/

namespace PropertyCascade

namespace Toml

namespace Quoted

/-! ## Escapes -/

/-- The digit with a given value below sixteen, in upper case. -/
def hexDigit (value : Nat) : Char :=
  if value < 10 then Char.ofNat (48 + value) else Char.ofNat (55 + value)

/-- The value of a hexadecimal digit. -/
def hexValue? (c : Char) : Option Nat :=
  if Numeral.isDigit c then some (Numeral.digitValue c)
  else if 'a' ≤ c ∧ c ≤ 'f' then some (c.toNat - 87)
  else if 'A' ≤ c ∧ c ≤ 'F' then some (c.toNat - 55)
  else none

/-- The character whose code point has given hexadecimal digits. -/
def scalar? (digits : Text) : Option Char := do
  let values ← digits.mapM hexValue?
  let code := values.foldl (fun number digit => 16 * number + digit) 0
  if code.isValidChar then some (Char.ofNat code) else none

/-- The character that a single letter after a backslash stands for. -/
def unescaped? : Char → Option Char
  | 'b' => some '\x08'
  | 't' => some '\t'
  | 'n' => some '\n'
  | 'f' => some '\x0c'
  | 'r' => some '\r'
  | '\x22' => some '\x22'
  | '\\' => some '\\'
  | _ => none

/-- The four hexadecimal digits of a code point below 65536. -/
def codeDigits (code : Nat) : Text :=
  [hexDigit (code / 4096 % 16), hexDigit (code / 256 % 16), hexDigit (code / 16 % 16),
    hexDigit (code % 16)]

/-- How a character is written between quotation marks, the marks themselves apart. -/
def escaped (c : Char) : Text :=
  if c = '\x08' then ['\\', 'b']
  else if c = '\t' then ['\\', 't']
  else if c = '\n' then ['\\', 'n']
  else if c = '\x0c' then ['\\', 'f']
  else if c = '\r' then ['\\', 'r']
  else if c = '\\' then ['\\', '\\']
  else if isControl c then '\\' :: 'u' :: codeDigits c.toNat
  else [c]

/-! ## Readers

Each takes the text after the opening mark, and gives the string and what follows the closing
mark. -/

/-- Puts a character before the string that has been read. -/
def consRead (c : Char) (read : Option (Text × Text)) : Option (Text × Text) :=
  read.map fun (content, rest) => (c :: content, rest)

/-- Reads a string between quotation marks. -/
def readBasic : Text → Option (Text × Text)
  | [] => none
  | '\x22' :: rest => some ([], rest)
  | '\\' :: 'u' :: a :: b :: c :: d :: rest =>
      (scalar? [a, b, c, d]).bind fun read => consRead read (readBasic rest)
  | '\\' :: 'U' :: a :: b :: c :: d :: e :: f :: g :: h :: rest =>
      (scalar? [a, b, c, d, e, f, g, h]).bind fun read => consRead read (readBasic rest)
  | '\\' :: c :: rest => (unescaped? c).bind fun read => consRead read (readBasic rest)
  | c :: rest => if isPrintable c then consRead c (readBasic rest) else none

/-- Reads a string between apostrophes. -/
def readLiteral : Text → Option (Text × Text)
  | [] => none
  | '\x27' :: rest => some ([], rest)
  | c :: rest => if isPrintable c then consRead c (readLiteral rest) else none

/-- Between three marks, the line end after the opening ones does not count. -/
def withoutFirstLineEnd : Text → Text
  | '\n' :: rest => rest
  | '\r' :: '\n' :: rest => rest
  | text => text

/-- What closing marks leave: of up to five marks in a row the last three close the string, and
those before them belong to it. -/
def closing (mark : Char) (afterThree : Text) : Text × Text :=
  match afterThree with
  | c :: d :: rest =>
      if c = mark ∧ d = mark then ([mark, mark], rest)
      else if c = mark then ([mark], d :: rest)
      else ([], c :: d :: rest)
  | [c] => if c = mark then ([mark], []) else ([], [c])
  | [] => ([], [])

/-- Where the reading of a string over several lines stands after a backslash. -/
inductive Joint where
  /-- Within the content. -/
  | inside
  /-- After a backslash and spaces: the line has to end. -/
  | owed
  /-- After that line end: spaces and line ends are skipped. -/
  | skipping
  deriving DecidableEq

/-- Reads a string between three quotation marks. -/
def readMultiBasic : Joint → Text → Option (Text × Text)
  | _, [] => none
  | .owed, '\n' :: rest => readMultiBasic .skipping rest
  | .owed, '\r' :: '\n' :: rest => readMultiBasic .skipping rest
  | .owed, c :: rest => if Layout.isSpace c then readMultiBasic .owed rest else none
  | .skipping, '\n' :: rest => readMultiBasic .skipping rest
  | .skipping, '\r' :: '\n' :: rest => readMultiBasic .skipping rest
  | .skipping, ' ' :: rest => readMultiBasic .skipping rest
  | .skipping, '\t' :: rest => readMultiBasic .skipping rest
  | _, '\x22' :: '\x22' :: '\x22' :: rest => some (closing '\x22' rest)
  | _, '\\' :: 'u' :: a :: b :: c :: d :: rest =>
      (scalar? [a, b, c, d]).bind fun read => consRead read (readMultiBasic .inside rest)
  | _, '\\' :: 'U' :: a :: b :: c :: d :: e :: f :: g :: h :: rest =>
      (scalar? [a, b, c, d, e, f, g, h]).bind fun read =>
        consRead read (readMultiBasic .inside rest)
  | _, '\\' :: '\n' :: rest => readMultiBasic .skipping rest
  | _, '\\' :: '\r' :: '\n' :: rest => readMultiBasic .skipping rest
  | _, '\\' :: ' ' :: rest => readMultiBasic .owed rest
  | _, '\\' :: '\t' :: rest => readMultiBasic .owed rest
  | _, '\\' :: c :: rest =>
      (unescaped? c).bind fun read => consRead read (readMultiBasic .inside rest)
  | _, '\n' :: rest => consRead '\n' (readMultiBasic .inside rest)
  | _, '\r' :: '\n' :: rest => consRead '\n' (readMultiBasic .inside rest)
  | _, c :: rest => if isPrintable c then consRead c (readMultiBasic .inside rest) else none

/-- Reads a string between three apostrophes. -/
def readMultiLiteral : Text → Option (Text × Text)
  | [] => none
  | '\x27' :: '\x27' :: '\x27' :: rest => some (closing '\x27' rest)
  | '\n' :: rest => consRead '\n' (readMultiLiteral rest)
  | '\r' :: '\n' :: rest => consRead '\n' (readMultiLiteral rest)
  | c :: rest => if isPrintable c then consRead c (readMultiLiteral rest) else none

/-- Reads a string of one line, with its opening mark. -/
def readLine? : Text → Option (Text × Text)
  | '\x22' :: rest => readBasic rest
  | '\x27' :: rest => readLiteral rest
  | _ => none

/-- Reads a string in any of the four forms, with its opening marks. -/
def read? : Text → Option (Text × Text)
  | '\x22' :: '\x22' :: '\x22' :: rest => readMultiBasic .inside (withoutFirstLineEnd rest)
  | '\x27' :: '\x27' :: '\x27' :: rest => readMultiLiteral (withoutFirstLineEnd rest)
  | text => readLine? text

/-! ## Writers -/

/-- Whether no more than two of a mark stand in a row. `run` counts those just before. -/
def shortRuns (mark : Char) (run : Nat) : Text → Bool
  | [] => true
  | c :: rest =>
      if c = mark then run < 2 && shortRuns mark (run + 1) rest else shortRuns mark 0 rest

/-- The forms in which a string may be written. -/
inductive Form where
  /-- Between quotation marks. -/
  | basic
  /-- Between apostrophes. -/
  | literal
  /-- Between three quotation marks. -/
  | multiBasic
  /-- Between three apostrophes. -/
  | multiLiteral
  deriving DecidableEq, Repr

namespace Form

/-- Whether a form can hold a string without any escape other than that of the tab. -/
def holds (form : Form) (content : Text) : Bool :=
  match form with
  | basic => content.all fun c => isPrintable c && c != '\\' && c != '\x22'
  | literal => content.all fun c => isPrintable c && c != '\x27'
  | multiBasic =>
      content.all (fun c => (isPrintable c || c == '\n') && c != '\\') &&
        shortRuns '\x22' 0 content
  | multiLiteral =>
      content.all (fun c => isPrintable c || c == '\n') && shortRuns '\x27' 0 content

/-- The form for a string as a value: the first that holds it, or else one with escapes. -/
def ofString (content : Text) : Form :=
  if basic.holds content then basic
  else if literal.holds content then literal
  else if multiBasic.holds content then multiBasic
  else if multiLiteral.holds content then multiLiteral
  else if content.contains '\n' then multiBasic
  else basic

/-- The form for a key, which stands on one line. -/
def ofKey (content : Text) : Form :=
  if basic.holds content then basic
  else if literal.holds content then literal
  else basic

end Form

/-- A character between quotation marks. -/
def basicUnit (c : Char) : Text :=
  if c = '\x22' then ['\\', '\x22'] else escaped c

/-- The characters between three quotation marks: line ends stay, and of the marks only every
third in a row is escaped. `run` counts the marks just before. -/
def multiBasicBody (run : Nat) : Text → Text
  | [] => []
  | c :: rest =>
      if c = '\x22' then
        if run < 2 then c :: multiBasicBody (run + 1) rest
        else '\\' :: c :: multiBasicBody 0 rest
      else if c = '\n' then c :: multiBasicBody 0 rest
      else escaped c ++ multiBasicBody 0 rest

/-- Where a string has line ends, the first line starts after the opening marks. -/
def opening (content : Text) : Text :=
  if content.contains '\n' then ['\n'] else []

/-- A string in a given form, which must be able to hold it if it is one of the literal ones. -/
def writeAs (form : Form) (content : Text) : Text :=
  match form with
  | .basic => '\x22' :: content.flatMap basicUnit ++ ['\x22']
  | .literal => '\x27' :: content ++ ['\x27']
  | .multiBasic =>
      ['\x22', '\x22', '\x22'] ++ opening content ++ multiBasicBody 0 content ++
        ['\x22', '\x22', '\x22']
  | .multiLiteral =>
      ['\x27', '\x27', '\x27'] ++ opening content ++ content ++ ['\x27', '\x27', '\x27']

/-- A string as a value. -/
def write (content : Text) : Text :=
  writeAs (Form.ofString content) content

/-- The plainest form that holds a string is taken. -/
example :
    write ['a'] = ['\x22', 'a', '\x22'] ∧ write ['\\'] = ['\x27', '\\', '\x27'] ∧
      write ['\r'] = ['\x22', '\\', 'r', '\x22'] ∧
      read? (write ['\x27', '\n', '\x22'] ++ ['!']) = some (['\x27', '\n', '\x22'], ['!']) := by
  decide

end Quoted

end Toml

end PropertyCascade
