import PropertyCascade.Number.Numeral

/-!
# Pattern faults

The causes for which a section header is no pattern, and their wording. Offsets count the
characters of the pattern as written.
-/

namespace PropertyCascade

namespace Glob

/-- Why a section header is no pattern. -/
inductive Fault where
  /-- A `[` without a closing `]`. -/
  | unterminatedClass (offset : Nat)
  /-- A class without members. -/
  | emptyClass (offset : Nat)
  /-- An opening brace without a balancing closing one. -/
  | unterminatedBrace (offset : Nat)
  /-- A lone backslash at the end. -/
  | trailingEscape
  /-- A `**` that is not a whole path segment. -/
  | misplacedGlobstar (offset : Nat)
  /-- A numeral range whose bounds are in the wrong order or out of the supported range. -/
  | invalidRange (first last : Text)
  /-- A class with a span whose first character comes after its last. -/
  | reversedSpan
  /-- More levels of nesting than the matcher admits. -/
  | tooDeep
  deriving DecidableEq, Repr

namespace Fault

/-- The wording of a fault. -/
def message : Fault → Text
  | unterminatedClass offset =>
      "unterminated character class starting at offset ".toList ++ Numeral.ofNat offset
  | emptyClass offset => "empty character class at offset ".toList ++ Numeral.ofNat offset
  | unterminatedBrace offset =>
      "unterminated brace starting at offset ".toList ++ Numeral.ofNat offset
  | trailingEscape => "pattern ends with an unescaped backslash".toList
  | misplacedGlobstar offset =>
      "`**` at offset ".toList ++ Numeral.ofNat offset ++ " must be a whole path segment".toList
  | invalidRange first last =>
      "invalid numeric range ".toList ++ '{' :: first ++ ['.', '.'] ++ last ++ ['}']
  | reversedSpan => "failed to build matcher: a span of a class is reversed".toList
  | tooDeep => "failed to build matcher: the pattern nests too deeply".toList

/-- The place of a fault in the pattern, where it has one. -/
def offset? : Fault → Option Nat
  | unterminatedClass offset => some offset
  | emptyClass offset => some offset
  | unterminatedBrace offset => some offset
  | misplacedGlobstar offset => some offset
  | _ => none

end Fault

end Glob

end PropertyCascade
