import InkServer.Text.Split

/-!
This module contains the laws of cutting a list at a separator: what becomes of the pieces when lists
are put together, which pieces come back when they are joined, and what stands before the first
separator or after a given start.
-/

namespace InkServer.Text

variable {α : Type} [DecidableEq α] {sep x y : α} {p xs ys before after : List α}
  {ps : List (List α)}

theorem pieces_append_cons (sep : α) (xs ys : List α) :
    pieces sep (xs ++ sep :: ys) = pieces sep xs ++ pieces sep ys := by
  induction xs with
  | nil => simp [pieces]
  | cons x xs ih =>
    simp only [List.cons_append, pieces]
    split
    . rw [ih, List.cons_append]
    . rw [ih]
      cases hp : pieces sep xs with
      | nil => exact absurd hp (pieces_ne_nil sep xs)
      | cons q qs => rfl

theorem pieces_of_not_mem (h : sep ∉ xs) : pieces sep xs = [xs] := by
  induction xs with
  | nil => rfl
  | cons x xs ih =>
    rw [List.mem_cons, not_or] at h
    unfold pieces
    rw [if_neg (Ne.symm h.1), ih h.2]

theorem pieces_append (sep : α) (xs ys : List α) :
    pieces sep (xs ++ ys)
      =
    (pieces sep xs).dropLast ++ pieces sep ((pieces sep xs).getLast?.getD [] ++ ys) := by
  induction xs with
  | nil => simp [pieces]
  | cons x xs ih =>
    simp only [List.cons_append, pieces]
    cases hp : pieces sep xs with
    | nil => exact absurd hp (pieces_ne_nil sep xs)
    | cons q qs =>
      rw [hp] at ih
      split
      . simp [ih]
      . next hx =>
        cases qs with
        | nil =>
          simp at ih
          simp [ih, pieces, hx]
        | cons r rs => simp [ih]

theorem pieces_append_of_not_mem (h : sep ∉ xs) (hp : pieces sep ys = p :: ps) :
    pieces sep (xs ++ ys) = (xs ++ p) :: ps := by
  induction xs with
  | nil => exact hp
  | cons x xs ih =>
    simp only [List.mem_cons, not_or] at h
    simp [pieces, Ne.symm h.1, ih h.2]

theorem not_mem_of_mem_pieces (h : p ∈ pieces sep xs) : sep ∉ p := by
  induction xs generalizing p with
  | nil =>
    rw [pieces, List.mem_singleton] at h
    simp [h]
  | cons x xs ih =>
    unfold pieces at h
    split at h
    . cases List.mem_cons.mp h with
      | inl h => simp [h]
      | inr h => exact ih h
    . next hx =>
      cases hp : pieces sep xs with
      | nil => exact absurd hp (pieces_ne_nil sep xs)
      | cons q qs =>
        rw [hp] at h ih
        cases List.mem_cons.mp h with
        | inl h =>
          rw [h, List.mem_cons, not_or]
          exact ⟨Ne.symm hx, ih (.head _)⟩
        | inr h => exact ih (.tail _ h)

theorem pieces_joined (hne : ps ≠ []) (hps : ∀ p ∈ ps, sep ∉ p) :
    pieces sep (joined sep ps) = ps := by
  induction ps with
  | nil => exact absurd rfl hne
  | cons p ps ih =>
    have hp := pieces_of_not_mem (hps p (.head _))
    cases ps with
    | nil => exact hp
    | cons q qs =>
      unfold joined
      rw [pieces_append_cons, hp, ih (by simp) fun r hr => hps r (.tail _ hr)]
      rfl

omit [DecidableEq α] in
theorem joined_append (sep : α) {qs : List (List α)} (hps : ps ≠ []) (hqs : qs ≠ []) :
    joined sep (ps ++ qs) = joined sep ps ++ sep :: joined sep qs := by
  induction ps with
  | nil => exact absurd rfl hps
  | cons p ps ih =>
    cases ps with
    | nil =>
      cases qs with
      | nil => exact absurd rfl hqs
      | cons q qs => rfl
    | cons p' ps =>
      have hrest := ih (by simp)
      simp only [List.cons_append, joined] at hrest ⊢
      rw [hrest, List.append_assoc, List.cons_append]

theorem dropFinal_cons_cons (x y z : α) (xs : List α) :
    dropFinal x (y :: z :: xs) = y :: dropFinal x (z :: xs) := by
  unfold dropFinal
  rw [List.getLast?_cons_cons]
  split
  . rfl
  . rfl

theorem mem_of_mem_dropFinal (h : y ∈ dropFinal x xs) : y ∈ xs := by
  unfold dropFinal at h
  split at h
  . exact (List.dropLast_sublist xs).subset h
  . exact h

theorem splitFirst?_eq_none (h : x ∉ xs) : splitFirst? x xs = none := by
  induction xs with
  | nil => rfl
  | cons y xs ih =>
    simp only [List.mem_cons, not_or] at h
    simp [splitFirst?, Ne.symm h.1, ih h.2]

theorem splitFirst?_append_cons (h : x ∉ xs) (ys : List α) :
    splitFirst? x (xs ++ x :: ys) = some (xs, ys) := by
  induction xs with
  | nil => simp [splitFirst?]
  | cons y xs ih =>
    simp only [List.mem_cons, not_or] at h
    simp [splitFirst?, Ne.symm h.1, ih h.2]

theorem eq_of_splitFirst? (h : splitFirst? x xs = some (before, after)) :
    xs = before ++ x :: after ∧ x ∉ before := by
  induction xs generalizing before with
  | nil => cases h
  | cons y xs ih =>
    unfold splitFirst? at h
    split at h
    . next hy =>
      cases h
      simp [hy]
    . next hy =>
      obtain ⟨parts, hparts, heq⟩ := Option.map_eq_some_iff.mp h
      cases heq
      obtain ⟨hxs, hnot⟩ := ih hparts
      exact ⟨by rw [hxs, List.cons_append], by simp [Ne.symm hy, hnot]⟩

theorem afterStart?_eq_some_iff {start : List α} :
    afterStart? start xs = some ys ↔ xs = start ++ ys := by
  unfold afterStart?
  constructor
  . intro h
    split at h
    . next hstart =>
      obtain ⟨tail, htail⟩ := List.isPrefixOf_iff_prefix.mp hstart
      rw [Option.some.injEq, ← htail, List.drop_left] at h
      rw [← htail, h]
    . simp at h
  . intro h
    rw [h, if_pos (List.isPrefixOf_iff_prefix.mpr (List.prefix_append _ _)), List.drop_left]

theorem head?_of_splitFirst? (h : splitFirst? x (y :: xs) = some (before, after)) (hy : y ≠ x) :
    before.head? = some y := by
  simp only [splitFirst?, if_neg hy, Option.map_eq_some_iff] at h
  obtain ⟨_, _, heq⟩ := h
  simp only [Prod.mk.injEq] at heq
  simp [← heq.1]

end InkServer.Text
