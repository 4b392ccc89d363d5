import Mathlib.Data.List.Lex
import PropertyCascade.Text.Utf8

/-!
# The order of texts and of their bytes

Texts in the order of their code points are in the order of the bytes of their UTF-8 encodings. Two
characters already differ in order at some byte within both encodings: a longer encoding starts with
a greater byte, and encodings of one length are numbers with digits of six bits. So what follows the
characters is not looked at.
-/

namespace PropertyCascade

namespace Text

namespace Utf8

theorem ofNat_lt_ofNat_iff {number other : Nat} (small : number < 256) (otherSmall : other < 256) :
    UInt8.ofNat number < UInt8.ofNat other ↔ number < other := by
  rw [UInt8.lt_iff_toNat_lt, UInt8.toNat_ofNat', UInt8.toNat_ofNat']
  omega

theorem ofNat_eq_ofNat_iff {number other : Nat} (small : number < 256) (otherSmall : other < 256) :
    UInt8.ofNat number = UInt8.ofNat other ↔ number = other := by
  rw [← UInt8.toNat_inj, UInt8.toNat_ofNat', UInt8.toNat_ofNat']
  omega

theorem toNat_lt (c : Char) : c.val.toNat < 0x110000 := by
  rcases c.valid with low | high
  · exact low.trans (by decide)
  · exact high.2

/-- The lesser of two characters has the lesser encoding, whatever follows. -/
theorem utf8EncodeChar_append_lt {c other : Char} (less : c < other) (rest others : List UInt8) :
    String.utf8EncodeChar c ++ rest < String.utf8EncodeChar other ++ others := by
  have points : c.val.toNat < other.val.toNat := less
  have bound := toNat_lt other
  -- The digits have to be quotients of one another for their order to be compared step by step.
  have twoDigits (point : Nat) : point / 4096 = point / 64 / 64 := by omega
  have threeDigits (point : Nat) : point / 262144 = point / 64 / 64 / 64 := by omega
  simp only [String.utf8EncodeChar, twoDigits, threeDigits]
  split_ifs <;>
    simp (disch := omega) only [List.cons_append, List.nil_append, List.cons_lt_cons_iff,
      ofNat_lt_ofNat_iff, ofNat_eq_ofNat_iff] <;>
    omega

/-- The order of texts is the order of their bytes. -/
theorem encode_lt_encode {left right : Text} (less : compare left right = .lt) :
    encode left < encode right := by
  induction left generalizing right with
  | nil =>
      cases right with
      | nil => cases less
      | cons other others =>
          have bytes := String.utf8EncodeChar_ne_nil (c := other)
          rcases List.exists_cons_of_ne_nil bytes with ⟨byte, rest, encoded⟩
          rw [encode, encode, List.flatMap_cons, encoded]
          exact List.nil_lt_cons _ _
  | cons c rest ih =>
      cases right with
      | nil => cases less
      | cons other others =>
          rw [List.compare_cons_cons, Ordering.then_eq_lt] at less
          rw [encode, encode, List.flatMap_cons, List.flatMap_cons]
          rcases less with before | ⟨same, restLess⟩
          · exact utf8EncodeChar_append_lt (compareOfLessAndEq_eq_lt.mp before) _ _
          · rw [Std.LawfulEqCmp.eq_of_compare same]
            exact List.append_left_lt (ih restLess)

end Utf8

end Text

end PropertyCascade
