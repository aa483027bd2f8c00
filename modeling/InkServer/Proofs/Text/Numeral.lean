import InkServer.Text.Blank
import InkServer.Text.Numeral

/-!
This module contains the laws of trimming and of numerals: only blanks are trimmed, and the digits of a
number are read back as that number.
-/

namespace InkServer.Text

variable {c : Char} {before cs after : List Char} {n bound : Nat}

theorem trimStart_append (hbefore : allBlank before) (cs : List Char) :
    trimStart (before ++ cs) = trimStart cs := by
  apply List.dropWhile_append_of_pos
  apply List.all_eq_true.mp hbefore

theorem trimStart_cons_of_not (hc : isBlank c = false) (cs : List Char) :
    trimStart (c :: cs) = c :: cs := by
  simp [trimStart, hc]

theorem trimEnd_append (hafter : allBlank after) (cs : List Char) :
    trimEnd (cs ++ after) = trimEnd cs := by
  simp only [trimEnd, List.reverse_append]
  rw [List.dropWhile_append_of_pos]
  intro c hc
  apply List.all_eq_true.mp hafter
  simpa using hc

theorem trimStart_of_forall_not (h : ∀ c ∈ cs, isBlank c = false) : trimStart cs = cs := by
  cases cs with
  | nil => rfl
  | cons c cs => exact trimStart_cons_of_not (h c (.head _)) cs

theorem trimEnd_append_of_forall_not (h : ∀ c ∈ cs, isBlank c = false) (hne : cs ≠ [])
    (before : List Char) :
    trimEnd (before ++ cs) = before ++ cs := by
  have hlast := h _ (List.getLast_mem hne)
  rw [← List.dropLast_concat_getLast hne, ← List.append_assoc]
  simp [trimEnd, hlast]

theorem trim_ne_nil (hc : isBlank c = false) (cs : List Char) : trim (c :: cs) ≠ [] := by
  rw [trim, trimStart_cons_of_not hc]
  rw [trimEnd, List.reverse_cons, List.dropWhile_append]
  split
  . simp [hc]
  . simp

theorem isAsciiDigit_of_mem_toDigits (h : c ∈ Nat.toDigits 10 n) : isAsciiDigit c := by
  have hdigit := Nat.isDigit_of_mem_toDigits (by omega) (by omega) h
  simpa [Char.isDigit, isAsciiDigit, UInt32.le_iff_toNat_le] using hdigit

theorem not_isBlank_of_isAsciiDigit (h : isAsciiDigit c) : isBlank c = false := by
  simp [isAsciiDigit] at h
  simp [isBlank]
  omega

theorem numeralValue_toDigits (n : Nat) : numeralValue (Nat.toDigits 10 n) = n :=
  Nat.ofDigitChars_ten_toDigits

theorem readDigits?_toDigits (h : n < bound) : readDigits? bound (Nat.toDigits 10 n) = some n := by
  simp [readDigits?, numeralValue_toDigits, h, Nat.toDigits_ne_nil]
  intro c hc
  apply isAsciiDigit_of_mem_toDigits hc

theorem readUnsigned?_toDigits (h : n < bound) :
    readUnsigned? bound (Nat.toDigits 10 n) = some n := by
  unfold readUnsigned?
  split
  . next hplus =>
    have hdigit : isAsciiDigit '+' := by
      apply isAsciiDigit_of_mem_toDigits (n := n)
      simp [hplus]
    exact absurd hdigit (by decide)
  . apply readDigits?_toDigits h

end InkServer.Text
