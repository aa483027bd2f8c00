import InkServer.Service.Publication

/-!
This module contains lists of keys and values: what is found under a key after a change, and in a list
whose keys ascend.
-/

namespace InkServer

variable {α β : Type} [BEq α] [LawfulBEq α] [DecidableEq α] {k u : α} {v : β}
  {entries : List (α × β)}

theorem lookup_cons_eq_ite (u k : α) (v : β) (entries : List (α × β)) :
    ((k, v) :: entries).lookup u = if u = k then some v else entries.lookup u := by
  rw [List.lookup_cons]
  split
  . next h => rw [if_pos (eq_of_beq h)]
  . next h => rw [if_neg (by simpa using h)]

theorem lookup_setKey (k u : α) (v : β) (entries : List (α × β)) :
    (setKey k v entries).lookup u = if u = k then some v else entries.lookup u := by
  induction entries with
  | nil =>
    unfold setKey
    rw [lookup_cons_eq_ite]
  | cons entry rest ih =>
    rcases entry with ⟨key, value⟩
    unfold setKey
    split
    . next h =>
      rw [lookup_cons_eq_ite, lookup_cons_eq_ite, h]
      split <;> rfl
    . next h =>
      rw [lookup_cons_eq_ite, lookup_cons_eq_ite, ih]
      split
      . next hu =>
        rw [if_neg]
        rw [hu]
        exact h
      . rfl

theorem lookup_eraseKey (k u : α) (entries : List (α × β)) :
    (eraseKey k entries).lookup u = if u = k then none else entries.lookup u := by
  unfold eraseKey
  induction entries with
  | nil => simp
  | cons entry rest ih =>
    rcases entry with ⟨key, value⟩
    by_cases hk : key = k
    . rw [List.filter_cons_of_neg (by simp [hk]), ih, lookup_cons_eq_ite, hk]
      split <;> rfl
    . rw [List.filter_cons_of_pos (by simp [hk]), lookup_cons_eq_ite, lookup_cons_eq_ite, ih]
      split
      . next hu =>
        rw [if_neg]
        rw [hu]
        exact hk
      . rfl

omit [DecidableEq α] in
theorem mem_of_lookup (h : entries.lookup u = some v) : (u, v) ∈ entries := by
  obtain ⟨before, after, heq, _⟩ := List.lookup_eq_some_iff.mp h
  simp [heq]

theorem lookup_of_mem {entries : List (String × β)} {u : String}
    (h : entries.Pairwise fun a b => a.1 < b.1) (hmem : (u, v) ∈ entries) :
    entries.lookup u = some v := by
  induction entries with
  | nil => simp at hmem
  | cons entry rest ih =>
    rcases entry with ⟨key, value⟩
    obtain ⟨hkey, hrest⟩ := List.pairwise_cons.mp h
    rw [lookup_cons_eq_ite]
    cases hmem with
    | head => rw [if_pos rfl]
    | tail _ hmem =>
      rw [if_neg, ih hrest hmem]
      intro heq
      have hlt : key < u := hkey _ hmem
      rw [heq] at hlt
      exact String.lt_irrefl key hlt

end InkServer
