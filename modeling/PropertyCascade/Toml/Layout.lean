import PropertyCascade.Text.Basic

/-!
# TOML layout

The characters of a document that carry no content: spaces within a line, comments and line ends.
A line ends with a line feed, which a carriage return may precede; a carriage return by itself is
nowhere allowed, and neither is any other control character except the tab.
-/

namespace PropertyCascade

namespace Toml

/-- A control character of the ASCII range. -/
def isControl (c : Char) : Bool :=
  c.toNat < 0x20 || c.toNat == 0x7F

/-- A character that may stand as it is in comments and between quotes. -/
def isPrintable (c : Char) : Bool :=
  c == '\t' || !isControl c

namespace Layout

/-- A space within a line. -/
def isSpace (c : Char) : Bool :=
  c == ' ' || c == '\t'

/-- What follows the spaces at the start of a text. -/
def skipSpaces (text : Text) : Text :=
  text.dropWhile isSpace

/-- What follows the comment at the start of a text, if there is one. -/
def skipComment : Text → Text
  | '#' :: rest => rest.dropWhile isPrintable
  | text => text

/-- What follows the line end at the start of a text. -/
def afterNewline? : Text → Option Text
  | '\n' :: rest => some rest
  | '\r' :: '\n' :: rest => some rest
  | _ => none

/-- What follows a line of which only spaces and a comment are left. The last line needs no line
end. -/
def afterLine? (text : Text) : Option Text :=
  match skipComment (skipSpaces text) with
  | [] => some []
  | rest => afterNewline? rest

/-- What follows the spaces, comments and line ends at the start of a text. The flag says whether
the text starts within a comment. -/
def skipBetween (inComment : Bool) : Text → Text
  | [] => []
  | '\n' :: rest => skipBetween false rest
  | '\r' :: '\n' :: rest => skipBetween false rest
  | c :: rest =>
      if inComment then
        if isPrintable c then skipBetween true rest else c :: rest
      else if isSpace c then skipBetween false rest
      else if c = '#' then skipBetween true rest
      else c :: rest

end Layout

end Toml

end PropertyCascade
