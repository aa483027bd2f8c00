/-!
This module contains the cutting of a list at a separator and the joining of the pieces again.
-/

namespace InkServer.Text

variable {α : Type}

section

variable [DecidableEq α]

/-- The stretches between the occurrences of `sep`, the empty ones included. -/
def pieces (sep : α) : List α → List (List α)
  | [] => [[]]
  | x :: xs =>
    if x = sep then
      [] :: pieces sep xs
    else
      match pieces sep xs with
      | [] => [[x]]
      | p :: ps => (x :: p) :: ps

end

def joined (sep : α) : List (List α) → List α
  | [] => []
  | [p] => p
  | p :: q :: ps => p ++ sep :: joined sep (q :: ps)

@[simp]
theorem joined_nil_cons (sep : α) (p : List α) (ps : List (List α)) :
    joined sep ([] :: p :: ps) = sep :: joined sep (p :: ps) := by
  simp [joined]

variable [DecidableEq α]

theorem pieces_ne_nil (sep : α) (xs : List α) : pieces sep xs ≠ [] := by
  cases xs with
  | nil => simp [pieces]
  | cons x xs =>
    unfold pieces
    split
    . simp
    . split <;> simp

theorem joined_pieces (sep : α) (xs : List α) : joined sep (pieces sep xs) = xs := by
  induction xs with
  | nil => rfl
  | cons x xs ih =>
    unfold pieces
    split
    . rename_i h
      cases hp : pieces sep xs with
      | nil => exact absurd hp (pieces_ne_nil sep xs)
      | cons p ps => rw [joined_nil_cons, ← hp, ih, h]
    . cases hp : pieces sep xs with
      | nil => exact absurd hp (pieces_ne_nil sep xs)
      | cons p ps =>
        rw [hp] at ih
        cases ps with
        | nil => simpa [joined] using ih
        | cons q qs => simpa [joined] using ih

def splitFirst? (sep : α) : List α → Option (List α × List α)
  | [] => none
  | x :: xs =>
    if x = sep then
      some ([], xs)
    else
      (splitFirst? sep xs).map fun (before, after) => (x :: before, after)

theorem length_after_lt {sep : α} {xs before after : List α}
    (h : splitFirst? sep xs = some (before, after)) : after.length < xs.length := by
  induction xs generalizing before with
  | nil => simp [splitFirst?] at h
  | cons x xs ih =>
    unfold splitFirst? at h
    split at h
    . simp at h
      simp [← h.2]
    . cases hs : splitFirst? sep xs with
      | none => simp [hs] at h
      | some p =>
        obtain ⟨b, a⟩ := p
        simp only [hs, Option.map_some, Option.some.injEq, Prod.mk.injEq] at h
        rw [h.2] at hs
        have := ih hs
        simp
        omega

def splitLast? (sep : α) (xs : List α) : Option (List α × List α) :=
  (splitFirst? sep xs.reverse).map fun (after, before) => (before.reverse, after.reverse)

def afterStart? (start xs : List α) : Option (List α) :=
  if start.isPrefixOf xs then some (xs.drop start.length) else none

def dropFinal (x : α) (xs : List α) : List α :=
  if xs.getLast? = some x then xs.dropLast else xs

end InkServer.Text
