import PropertyCascade.Glob.CharClass

/-!
# Pattern tokens

The smallest units of a pattern: an escaped character, a class, or a plain character, each with
its offset. A bracket that is never closed, and a backslash at the end, are tokens too, so that
every text is a sequence of tokens; the faults are found when the tokens are read.
-/

namespace PropertyCascade

namespace Glob

/-- The kinds of tokens. -/
inductive TokenKind where
  /-- A character as it stands. -/
  | plain (c : Char)
  /-- A backslash and the character after it. -/
  | escaped (c : Char)
  /-- A class with its body. -/
  | bracket (body : Text)
  /-- A backslash at the end of the pattern. -/
  | strayEscape
  deriving DecidableEq, Repr

/-- A token and the offset of its first character. -/
structure Token where
  offset : Nat
  kind : TokenKind
  deriving DecidableEq, Repr

namespace Token

/-- The characters of a token. -/
def text (token : Token) : Text :=
  match token.kind with
  | .plain c => [c]
  | .escaped c => ['\\', c]
  | .bracket body => '[' :: body ++ [']']
  | .strayEscape => ['\\']

/-- The tokens of a text whose first character has a given offset. The first `taken` characters
belong to the token before. -/
def scan (offset taken : Nat) : Text → List Token
  | [] => []
  | c :: rest =>
      match taken with
      | more + 1 => scan (offset + 1) more rest
      | 0 =>
          if c = '\\' then
            match rest with
            | [] => [⟨offset, .strayEscape⟩]
            | escaped :: _ => ⟨offset, .escaped escaped⟩ :: scan (offset + 1) 1 rest
          else if c = '[' then
            match CharClass.bodyLength? rest with
            | some length =>
                ⟨offset, .bracket (rest.take length)⟩ :: scan (offset + 1) (length + 1) rest
            | none => ⟨offset, .plain c⟩ :: scan (offset + 1) 0 rest
          else ⟨offset, .plain c⟩ :: scan (offset + 1) 0 rest

/-- The tokens of a text whose first character has a given offset. -/
def ofText (offset : Nat) (text : Text) : List Token :=
  scan offset 0 text

end Token

end Glob

end PropertyCascade
