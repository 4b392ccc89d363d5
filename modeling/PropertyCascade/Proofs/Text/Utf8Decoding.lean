import PropertyCascade.PathName
import PropertyCascade.Proofs.Text.Utf8Order

/-!
# Texts are read back from their bytes

The decoder gives back every text from its encoding, no piece of it malformed. The first byte of a
character fixes the bounds for the second, and these are met because the code point is in the range
of its length and no surrogate; the other bytes only add their six bits. So names that are written
for different texts are shown differently, while a name that no text has may be shown as others are.
-/

namespace PropertyCascade

namespace Text

namespace Utf8

section Steps

variable {number low high owed bits : Nat} {pending : Pending} {rest : List UInt8}

theorem pieces_ascii (ascii : number < 0x80) :
    pieces none (UInt8.ofNat number :: rest) = some (Char.ofNat number) :: pieces none rest := by
  have value : (UInt8.ofNat number).toNat = number :=
    UInt8.toNat_ofNat_of_lt (ascii.trans (by decide))
  simp [pieces, feed, lead, value, ascii]

theorem pieces_lead (small : number < 256) (leads : lead number = ([], some pending)) :
    pieces none (UInt8.ofNat number :: rest) = pieces (some pending) rest := by
  have value : (UInt8.ofNat number).toNat = number := UInt8.toNat_ofNat_of_lt small
  simp [pieces, feed, value, leads]

theorem pieces_within (within : low ≤ number ∧ number ≤ high) (small : number < 256) :
    pieces (some ⟨owed + 2, low, high, bits⟩) (UInt8.ofNat number :: rest) =
      pieces (some ⟨owed + 1, 0x80, 0xBF, bits * 64 + (number - 0x80)⟩) rest := by
  have value : (UInt8.ofNat number).toNat = number := UInt8.toNat_ofNat_of_lt small
  simp [pieces, feed, value, within]

theorem pieces_last (within : low ≤ number ∧ number ≤ high) (small : number < 256) :
    pieces (some ⟨1, low, high, bits⟩) (UInt8.ofNat number :: rest) =
      some (Char.ofNat (bits * 64 + (number - 0x80))) :: pieces none rest := by
  have value : (UInt8.ofNat number).toNat = number := UInt8.toNat_ofNat_of_lt small
  simp [pieces, feed, value, within]

end Steps

section Leads

variable {point : Nat}

theorem lead_two (least : 0x80 ≤ point) (greatest : point ≤ 0x7FF) :
    lead (point / 64 % 32 + 192) = ([], some ⟨1, 0x80, 0xBF, point / 64⟩) := by
  have bits : point / 64 % 32 + 192 - 0xC0 = point / 64 := by omega
  rw [lead, if_neg (by omega), if_pos (by omega), bits]

/-- The bounds for the second byte of three exclude overlong forms and surrogates. -/
theorem lead_three (least : 0x800 ≤ point) (greatest : point ≤ 0xFFFF)
    (noSurrogate : point < 0xD800 ∨ 0xDFFF < point) :
    ∃ low high, lead (point / 4096 % 16 + 224) = ([], some ⟨2, low, high, point / 4096⟩) ∧
      low ≤ point / 64 % 64 + 128 ∧ point / 64 % 64 + 128 ≤ high := by
  have leading : point / 4096 % 16 + 224 = point / 4096 + 0xE0 := by omega
  rw [leading]
  rcases Nat.eq_zero_or_pos (point / 4096) with overlong | positive
  · refine ⟨0xA0, 0xBF, ?_, by omega, by omega⟩
    rw [overlong]
    rfl
  · rcases eq_or_ne (point / 4096) 0xD with surrogate | other
    · refine ⟨0x80, 0x9F, ?_, by omega, by omega⟩
      rw [surrogate]
      rfl
    · refine ⟨0x80, 0xBF, ?_, by omega, by omega⟩
      have bits : point / 4096 + 0xE0 - 0xE0 = point / 4096 := by omega
      rw [lead, if_neg (by omega), if_neg (by omega), if_neg (by omega), if_neg (by omega),
        if_pos (by omega), bits]

/-- The bounds for the second byte of four exclude overlong forms and too great numbers. -/
theorem lead_four (least : 0x10000 ≤ point) (greatest : point < 0x110000) :
    ∃ low high, lead (point / 262144 % 8 + 240) = ([], some ⟨3, low, high, point / 262144⟩) ∧
      low ≤ point / 4096 % 64 + 128 ∧ point / 4096 % 64 + 128 ≤ high := by
  have leading : point / 262144 % 8 + 240 = point / 262144 + 0xF0 := by omega
  rw [leading]
  rcases Nat.eq_zero_or_pos (point / 262144) with overlong | positive
  · refine ⟨0x90, 0xBF, ?_, by omega, by omega⟩
    rw [overlong]
    rfl
  · rcases eq_or_ne (point / 262144) 4 with greatest | other
    · refine ⟨0x80, 0x8F, ?_, by omega, by omega⟩
      rw [greatest]
      rfl
    · refine ⟨0x80, 0xBF, ?_, by omega, by omega⟩
      have bits : point / 262144 + 0xF0 - 0xF0 = point / 262144 := by omega
      rw [lead, if_neg (by omega), if_neg (by omega), if_neg (by omega), if_neg (by omega),
        if_neg (by omega), if_neg (by omega), if_pos (by omega), bits]

end Leads

theorem pieces_utf8EncodeChar_append (c : Char) (rest : List UInt8) :
    pieces none (String.utf8EncodeChar c ++ rest) = some c :: pieces none rest := by
  obtain ⟨point, itsPoint⟩ : ∃ point, point = c.val.toNat := ⟨_, rfl⟩
  have made : Char.ofNat point = c := by rw [itsPoint]; exact Char.ofNat_toNat c
  have bound : point < 0x110000 := itsPoint ▸ toNat_lt c
  have noSurrogate : point < 0xD800 ∨ 0xDFFF < point :=
    itsPoint ▸ c.valid.imp_right And.left
  simp only [String.utf8EncodeChar, ← itsPoint]
  split_ifs with one two three <;> simp only [List.cons_append, List.nil_append]
  · rw [pieces_ascii (by omega), made]
  · have bits : point / 64 * 64 + (point % 64 + 128 - 0x80) = point := by omega
    rw [pieces_lead (by omega) (lead_two (by omega) two), pieces_last (by omega) (by omega), bits,
      made]
  · rcases lead_three (by omega) three noSurrogate with ⟨low, high, leads, within⟩
    have bits : (point / 4096 * 64 + (point / 64 % 64 + 128 - 0x80)) * 64 +
        (point % 64 + 128 - 0x80) = point := by omega
    rw [pieces_lead (by omega) leads, pieces_within within (by omega),
      pieces_last (by omega) (by omega), bits, made]
  · rcases lead_four (by omega) bound with ⟨low, high, leads, within⟩
    have bits : ((point / 262144 * 64 + (point / 4096 % 64 + 128 - 0x80)) * 64 +
        (point / 64 % 64 + 128 - 0x80)) * 64 + (point % 64 + 128 - 0x80) = point := by omega
    rw [pieces_lead (by omega) leads, pieces_within within (by omega),
      pieces_within (by omega) (by omega), pieces_last (by omega) (by omega), bits, made]

theorem pieces_encode (text : Text) : pieces none (encode text) = text.map some := by
  induction text with
  | nil => rfl
  | cons c rest ih =>
      rw [encode, List.flatMap_cons, pieces_utf8EncodeChar_append, ← encode, ih, List.map_cons]

/-- A text is read back from its bytes. -/
theorem decodeLossy_encode (text : Text) : decodeLossy (encode text) = text := by
  rw [decodeLossy, pieces_encode, List.map_map]
  exact List.map_id text

end Utf8

end Text

theorem PathName.display_ofText (text : Text) : (ofText text).display = text :=
  Text.Utf8.decodeLossy_encode text

end PropertyCascade
