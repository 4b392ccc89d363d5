import PropertyCascade.Text.Basic

/-!
# UTF-8

Encoding and decoding of texts. The decoder is fed one byte at a time: its state holds how many
bytes of the current character are still owed, the bounds for the next of them, and the bits read
so far. The bounds exclude overlong forms, surrogates and values above U+10FFFF at the first byte
that rules them out, so each malformed piece that it reports is as long as it can be.
-/

namespace PropertyCascade

namespace Text

namespace Utf8

/-- The bytes of a text. -/
def encode (text : Text) : List UInt8 :=
  text.flatMap String.utf8EncodeChar

/-- A character that has been started and not finished. -/
structure Pending where
  /-- The continuation bytes that are still owed. -/
  owed : Nat
  /-- The least value the next byte may have. -/
  low : Nat
  /-- The greatest value the next byte may have. -/
  high : Nat
  /-- The bits of the code point read so far. -/
  bits : Nat
  deriving DecidableEq, Repr

/-- What a byte that starts a character leads to: reported pieces and the next state. -/
def lead (byte : Nat) : List (Option Char) × Option Pending :=
  if byte < 0x80 then ([some (Char.ofNat byte)], none)
  else if 0xC2 ≤ byte ∧ byte ≤ 0xDF then ([], some ⟨1, 0x80, 0xBF, byte - 0xC0⟩)
  else if byte = 0xE0 then ([], some ⟨2, 0xA0, 0xBF, 0⟩)
  else if byte = 0xED then ([], some ⟨2, 0x80, 0x9F, 0xD⟩)
  else if 0xE1 ≤ byte ∧ byte ≤ 0xEF then ([], some ⟨2, 0x80, 0xBF, byte - 0xE0⟩)
  else if byte = 0xF0 then ([], some ⟨3, 0x90, 0xBF, 0⟩)
  else if 0xF1 ≤ byte ∧ byte ≤ 0xF3 then ([], some ⟨3, 0x80, 0xBF, byte - 0xF0⟩)
  else if byte = 0xF4 then ([], some ⟨3, 0x80, 0x8F, 4⟩)
  else ([none], none)

/-- One byte: the pieces it completes, `none` for a malformed one, and the next state. -/
def feed : Option Pending → Nat → List (Option Char) × Option Pending
  | none, byte => lead byte
  | some pending, byte =>
      if pending.low ≤ byte ∧ byte ≤ pending.high then
        let bits := pending.bits * 64 + (byte - 0x80)
        if pending.owed ≤ 1 then ([some (Char.ofNat bits)], none)
        else ([], some ⟨pending.owed - 1, 0x80, 0xBF, bits⟩)
      else
        let (pieces, next) := lead byte
        (none :: pieces, next)

/-- The pieces of a byte sequence: its characters, and `none` for each malformed piece. -/
def pieces : Option Pending → List UInt8 → List (Option Char)
  | none, [] => []
  | some _, [] => [none]
  | pending, byte :: rest =>
      let (found, next) := feed pending byte.toNat
      found ++ pieces next rest

/-- The text of a byte sequence, with U+FFFD for each malformed piece. -/
def decodeLossy (bytes : List UInt8) : Text :=
  (pieces none bytes).map (·.getD '\uFFFD')

/-- The text of a byte sequence, if it is well formed. -/
def decode? (bytes : List UInt8) : Option Text :=
  (pieces none bytes).mapM id

end Utf8

end Text

end PropertyCascade
