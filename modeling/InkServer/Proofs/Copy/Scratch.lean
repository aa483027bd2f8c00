import InkServer.Proofs.Path.Components
import InkServer.Proofs.Text.Utf8
import InkServer.Text.Numeral
import InkServer.Workspace.Copy

/-!
This module contains the names and the places of scratch folders.
-/

namespace InkServer

open Text

theorem exists_digitChar_of_mem_toDigits {n : Nat} {c : Char} (h : c ∈ Nat.toDigits 16 n) :
    ∃ digit < 16, c = Nat.digitChar digit := by
  induction n using Nat.strongRecOn with
  | ind n ih =>
    by_cases hn : n < 16
    . rw [Nat.toDigits_of_lt_base hn, List.mem_singleton] at h
      exact ⟨n, hn, h⟩
    . rw [Nat.toDigits_of_base_le (by omega) (by omega), List.mem_append, List.mem_singleton] at h
      cases h with
      | inl h => exact ih (n / 16) (by omega) h
      | inr h => exact ⟨n % 16, by omega, h⟩

theorem slash_not_mem_scratchName (n : Nat) : slash ∉ scratchName n := by
  have hdigit : ∀ digit < 16, slash ∉ String.utf8EncodeChar (Nat.digitChar digit) := by decide
  unfold scratchName
  intro h
  rw [List.mem_append] at h
  cases h with
  | inl h => exact absurd h (by decide)
  | inr h =>
    obtain ⟨c, hc, hb⟩ := List.mem_flatMap.mp h
    cases List.mem_append.mp hc with
    | inl hc =>
      rw [List.eq_of_mem_replicate hc] at hb
      exact hdigit 0 (by decide) hb
    | inr hc =>
      obtain ⟨digit, hlt, hd⟩ := exists_digitChar_of_mem_toDigits hc
      rw [hd] at hb
      exact hdigit digit hlt hb

theorem isName_scratchName (n : Nat) : IsName (scratchName n) := by
  have hmark : scratchMark = [105, 110, 107, 45, 108, 115, 45] := by decide
  have hslash := slash_not_mem_scratchName n
  unfold scratchName at hslash ⊢
  rw [hmark] at hslash ⊢
  constructor
  . simp
  . simp
  . simp
  . exact hslash

theorem valueInBase_toDigits (n : Nat) : valueInBase 16 (Nat.toDigits 16 n) = n := by
  have hdigit : ∀ digit < 16, hexDigitValue (Nat.digitChar digit) = digit := by decide
  induction n using Nat.strongRecOn with
  | ind n ih =>
    by_cases hn : n < 16
    . rw [Nat.toDigits_of_lt_base hn]
      simp [valueInBase, hdigit n hn]
    . have hrest := ih (n / 16) (by omega)
      unfold valueInBase at hrest ⊢
      rw [Nat.toDigits_of_base_le (by omega) (by omega), List.foldl_append, hrest]
      simp only [List.foldl_cons, List.foldl_nil, hdigit (n % 16) (by omega)]
      omega

theorem valueInBase_zeros (k : Nat) (cs : List Char) :
    valueInBase 16 (List.replicate k '0' ++ cs) = valueInBase 16 cs := by
  induction k with
  | zero => rfl
  | succ k ih => exact ih

theorem scratchName_inj {m n : Nat} (h : scratchName m = scratchName n) : m = n := by
  have hencoded := congrArg decode? (List.append_cancel_left h)
  rw [decode?_encode, decode?_encode, Option.some.injEq] at hencoded
  have hvalue := congrArg (valueInBase 16) hencoded
  rw [valueInBase_zeros, valueInBase_zeros, valueInBase_toDigits, valueInBase_toDigits] at hvalue
  exact hvalue

namespace CopyRules

/-- The scratch folder of the `n`th draw. -/
def scratchOf (rules : CopyRules) (n : Nat) : Path :=
  rules.scratchBase.child (scratchName n)

/-- A scratch folder lies directly in the folder where scratch folders are made. -/
theorem components_scratchOf (rules : CopyRules) (n : Nat) :
    (rules.scratchOf n).components = rules.scratchBase.components ++ [.name (scratchName n)] :=
  Path.components_child _ (isName_scratchName n)

theorem scratchOf_inj {rules : CopyRules} {m n : Nat} (h : rules.scratchOf m = rules.scratchOf n) :
    m = n := by
  have hcomponents := congrArg Path.components h
  rw [components_scratchOf, components_scratchOf] at hcomponents
  apply scratchName_inj
  simpa using List.append_cancel_left hcomponents

theorem createCopy_eq_ok {rules : CopyRules} {name : Name} {root scratch : Path} {d : Disk}
    (h : (rules.createCopy name root d).2 = .ok scratch) :
    scratch = rules.scratchBase.child name := by
  unfold createCopy at h
  dsimp only at h
  split at h
  . simp at h
  . split at h
    . simpa [eq_comm] using h
    . simp at h

end CopyRules

end InkServer
