import InkServer.Proofs.Text.Utf8
import InkServer.Uri.File

/-!
This module contains the laws of percent coding: a coded name is read back, and it is written with
visible ASCII characters that mean nothing else in a URI.
-/

namespace InkServer.Uri

open Text

/-- What holds of the 256 bytes one by one holds of all bytes. -/
theorem forall_byte {P : UInt8 → Prop} (h : ∀ k < 256, P (UInt8.ofNat k)) (b : UInt8) : P b := by
  have hb := h b.toNat b.toNat_lt
  rwa [UInt8.ofNat_toNat] at hb

theorem hexValue?_hexDigit_div (b : UInt8) : hexValue? (hexDigit (b / 16)) = some (b / 16) := by
  revert b
  exact forall_byte (by decide +kernel)

theorem hexValue?_hexDigit_mod (b : UInt8) : hexValue? (hexDigit (b % 16)) = some (b % 16) := by
  revert b
  exact forall_byte (by decide +kernel)

theorem div_mul_add_mod (b : UInt8) : b / 16 * 16 + b % 16 = b := by
  revert b
  exact forall_byte (by decide +kernel)

theorem percentDecode_cons {b : UInt8} (h : b ≠ percent) (rest : Bytes) :
    percentDecode (b :: rest) = b :: percentDecode rest := by
  rw [percentDecode.eq_def]
  dsimp only
  rw [if_neg h]

theorem percentDecode_percentCode (b : UInt8) (rest : Bytes) :
    percentDecode (percentCode b ++ rest) = b :: percentDecode rest := by
  rw [percentCode, List.cons_append, List.cons_append, List.cons_append, List.nil_append,
    percentDecode, if_pos rfl]
  rw [hexValue?_hexDigit_div, hexValue?_hexDigit_mod]
  dsimp only
  rw [div_mul_add_mod]

theorem percentDecode_percentEncode {special : UInt8 → Bool} (h : special percent = true)
    (bytes rest : Bytes) :
    percentDecode (percentEncode special bytes ++ rest) = bytes ++ percentDecode rest := by
  induction bytes with
  | nil => rfl
  | cons b bytes ih =>
    unfold percentEncode at ih ⊢
    rw [List.flatMap_cons, List.append_assoc]
    split
    . rw [percentDecode_percentCode, ih, List.cons_append]
    . next hb =>
      have hne : b ≠ percent := by
        rintro rfl
        exact hb h
      rw [List.singleton_append, percentDecode_cons hne, ih, List.cons_append]

/-- A byte that is written as a visible ASCII character, and as none that cuts a URI. -/
def IsWritten (b : UInt8) : Prop :=
  32 < b ∧ b < 127 ∧ b ≠ slash ∧ b ≠ 92 ∧ b ≠ 63 ∧ b ≠ 35

instance (b : UInt8) : Decidable (IsWritten b) :=
  inferInstanceAs (Decidable (_ ∧ _))

theorem isWritten_of_not_special (b : UInt8) (h : isSpecialInName b = false) : IsWritten b := by
  revert b
  exact forall_byte (by decide +kernel)

theorem isWritten_of_mem_percentCode {b c : UInt8} (h : c ∈ percentCode b) : IsWritten c := by
  have hdigits : ∀ b : UInt8, IsWritten (hexDigit (b / 16)) ∧ IsWritten (hexDigit (b % 16)) :=
    forall_byte (by decide +kernel)
  obtain ⟨hdiv, hmod⟩ := hdigits b
  simp only [percentCode, List.mem_cons, List.not_mem_nil, or_false] at h
  rcases h with rfl | rfl | rfl
  . decide
  . exact hdiv
  . exact hmod

theorem isWritten_of_mem_percentEncode {n : Name} {b : UInt8}
    (h : b ∈ percentEncode isSpecialInName n) : IsWritten b := by
  obtain ⟨c, _, hb⟩ := List.mem_flatMap.mp h
  split at hb
  . exact isWritten_of_mem_percentCode hb
  . next hc =>
    rw [List.mem_singleton.mp hb]
    exact isWritten_of_not_special c (by simpa using hc)

end InkServer.Uri
