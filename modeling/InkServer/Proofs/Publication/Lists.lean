import InkServer.Proofs.Association
import InkServer.Service.Delivery

/-!
This module contains what a publication consists of: for each URI the list that is published for it,
and what is recorded about it.
-/

namespace InkServer

namespace Lists

variable {uri u : String} {f : List EditorDiagnostic → List EditorDiagnostic} {lists : Lists}

/-- The URIs ascend. -/
def Sorted (lists : Lists) : Prop :=
  lists.Pairwise fun a b => a.1 < b.1

theorem mem_alter {a : String × List EditorDiagnostic} (h : a ∈ lists.alter uri f) :
    a.1 = uri ∨ a ∈ lists := by
  induction lists with
  | nil =>
    rw [alter, List.mem_singleton] at h
    exact .inl (by rw [h])
  | cons entry rest ih =>
    rcases entry with ⟨k, ds⟩
    unfold alter at h
    split at h
    . next heq =>
      cases List.mem_cons.mp h with
      | inl h => exact .inl (by rw [h, heq])
      | inr h => exact .inr (.tail _ h)
    . split at h
      . cases List.mem_cons.mp h with
        | inl h => exact .inl (by rw [h])
        | inr h => exact .inr h
      . cases List.mem_cons.mp h with
        | inl h =>
          rw [h]
          exact .inr (.head _)
        | inr h => exact (ih h).imp_right (.tail _)

theorem Sorted.alter (h : lists.Sorted) (uri : String)
    (f : List EditorDiagnostic → List EditorDiagnostic) : (lists.alter uri f).Sorted := by
  induction lists with
  | nil => exact List.pairwise_singleton _ _
  | cons entry rest ih =>
    rcases entry with ⟨k, ds⟩
    obtain ⟨hkey, hrest⟩ := List.pairwise_cons.mp h
    unfold Lists.alter
    split
    . exact List.pairwise_cons.mpr ⟨hkey, hrest⟩
    . next hne =>
      split
      . next hlt =>
        refine List.pairwise_cons.mpr ⟨?_, h⟩
        intro a ha
        cases List.mem_cons.mp ha with
        | inl ha =>
          rw [ha]
          exact hlt
        | inr ha => exact String.lt_trans hlt (hkey a ha)
      . next hge =>
        refine List.pairwise_cons.mpr ⟨?_, ih hrest⟩
        intro a ha
        cases mem_alter ha with
        | inl ha =>
          rw [ha]
          exact Std.lt_of_le_of_ne (String.not_lt.mp hge) (Ne.symm hne)
        | inr ha => exact hkey a ha

theorem lookup_eq_none_of_lt (h : ∀ a ∈ lists, uri < a.1) : lists.lookup uri = none := by
  induction lists with
  | nil => rfl
  | cons entry rest ih =>
    rcases entry with ⟨k, ds⟩
    rw [lookup_cons_eq_ite, if_neg, ih fun a ha => h a (.tail _ ha)]
    intro heq
    have hlt : uri < k := h _ (.head _)
    rw [heq] at hlt
    exact String.lt_irrefl k hlt

theorem Sorted.lookup_alter (h : lists.Sorted) :
    (lists.alter uri f).lookup u
      =
    if u = uri then some (f ((lists.lookup uri).getD [])) else lists.lookup u := by
  induction lists with
  | nil =>
    unfold Lists.alter
    rw [lookup_cons_eq_ite]
    rfl
  | cons entry rest ih =>
    rcases entry with ⟨k, ds⟩
    obtain ⟨hkey, hrest⟩ := List.pairwise_cons.mp h
    unfold Lists.alter
    split
    . next heq =>
      subst heq
      rw [lookup_cons_eq_ite, lookup_cons_eq_ite, lookup_cons_eq_ite, if_pos rfl]
      split <;> rfl
    . next hne =>
      split
      . next hlt =>
        -- The URI is a new one: it comes before all others.
        have hnone : List.lookup uri ((k, ds) :: rest) = none := by
          apply lookup_eq_none_of_lt
          intro a ha
          cases List.mem_cons.mp ha with
          | inl ha =>
            rw [ha]
            exact hlt
          | inr ha => exact String.lt_trans hlt (hkey a ha)
        rw [lookup_cons_eq_ite, hnone]
        rfl
      . rw [lookup_cons_eq_ite, ih hrest, lookup_cons_eq_ite, lookup_cons_eq_ite, if_neg hne]
        split
        . next hu =>
          rw [if_neg]
          rw [hu]
          exact Ne.symm hne
        . rfl

theorem Sorted.touch (h : lists.Sorted) (uri : String) : (lists.touch uri).Sorted :=
  h.alter uri id

theorem Sorted.lookup_touch (h : lists.Sorted) :
    (Lists.touch uri lists).lookup u
      =
    if u = uri then some ((lists.lookup uri).getD []) else lists.lookup u :=
  h.lookup_alter

theorem Sorted.add (h : lists.Sorted) (uri : String) (d : EditorDiagnostic) :
    (Lists.add uri d lists).Sorted :=
  h.alter uri _

theorem Sorted.lookup_add (h : lists.Sorted) {d : EditorDiagnostic} :
    (Lists.add uri d lists).lookup u
      =
    if u = uri then some ((lists.lookup uri).getD [] ++ [d]) else lists.lookup u :=
  h.lookup_alter

theorem Sorted.touchAll (h : lists.Sorted) (uris : List String) :
    Sorted (uris.foldl (fun lists uri => Lists.touch uri lists) lists) := by
  induction uris generalizing lists with
  | nil => exact h
  | cons uri uris ih => exact ih (h.touch uri)

theorem Sorted.lookup_touchAll (h : lists.Sorted) (uris : List String) :
    (uris.foldl (fun lists uri => Lists.touch uri lists) lists).lookup u
      =
    if u ∈ uris then some ((lists.lookup u).getD []) else lists.lookup u := by
  induction uris generalizing lists with
  | nil => simp
  | cons uri uris ih =>
    rw [List.foldl_cons, ih (h.touch uri), h.lookup_touch]
    by_cases hu : u = uri
    . simp [hu]
    . simp [hu]

theorem Sorted.mem_nonEmpty (h : lists.Sorted) :
    u ∈ lists.nonEmpty ↔ (lists.lookup u).getD [] ≠ [] := by
  unfold nonEmpty
  induction lists with
  | nil => simp
  | cons entry rest ih =>
    rcases entry with ⟨k, ds⟩
    obtain ⟨hkey, hrest⟩ := List.pairwise_cons.mp h
    rw [lookup_cons_eq_ite, List.filter_cons]
    by_cases hu : u = k
    . subst hu
      -- The URIs ascend, so no later entry has this one.
      have hnone : rest.lookup u = none := lookup_eq_none_of_lt hkey
      rw [if_pos rfl]
      rw [hnone] at ih
      by_cases hds : ds = []
      . simpa [hds] using ih hrest
      . simp [hds]
    . rw [if_neg hu, ← ih hrest]
      by_cases hds : ds = []
      . simp [hds]
      . simp [hds, hu]

end Lists

def diagnosticsUnder (documents : List (Path × String)) (diagnostics : List Diagnostic)
    (uri : String) : List EditorDiagnostic :=
  (diagnostics.filter fun d => shownUri? documents d.path.normalize = some uri).map .ofDiagnostic

section

variable {documents : List (Path × String)} {diagnostics : List Diagnostic} {u : String}
  {lists : Lists}

def addAll (documents : List (Path × String)) (diagnostics : List Diagnostic) (lists : Lists) :
    Lists :=
  diagnostics.foldl (fun lists d =>
    match shownUri? documents d.path.normalize with
    | some uri => Lists.add uri (.ofDiagnostic d) lists
    | none => lists) lists

theorem addAll_cons (d : Diagnostic) :
    addAll documents (d :: diagnostics) lists
      =
    addAll documents diagnostics
      (match shownUri? documents d.path.normalize with
        | some uri => Lists.add uri (.ofDiagnostic d) lists
        | none => lists) := rfl

theorem sorted_addAll (h : lists.Sorted) : (addAll documents diagnostics lists).Sorted := by
  induction diagnostics generalizing lists with
  | nil => exact h
  | cons d diagnostics ih =>
    rw [addAll_cons]
    apply ih
    split
    . exact h.add _ _
    . exact h

theorem diagnosticsUnder_cons (d : Diagnostic) :
    diagnosticsUnder documents (d :: diagnostics) u
      =
    if shownUri? documents d.path.normalize = some u then
      .ofDiagnostic d :: diagnosticsUnder documents diagnostics u
    else
      diagnosticsUnder documents diagnostics u := by
  unfold diagnosticsUnder
  rw [List.filter_cons]
  by_cases h : shownUri? documents d.path.normalize = some u
  . simp [h]
  . simp [h]

theorem lookup_addAll (h : lists.Sorted) :
    (addAll documents diagnostics lists).lookup u
      =
    if diagnosticsUnder documents diagnostics u = [] then lists.lookup u
    else some ((lists.lookup u).getD [] ++ diagnosticsUnder documents diagnostics u) := by
  induction diagnostics generalizing lists with
  | nil => rfl
  | cons d diagnostics ih =>
    rw [addAll_cons, diagnosticsUnder_cons]
    cases hshown : shownUri? documents d.path.normalize with
    | none => simpa using ih h
    | some uri =>
      dsimp only
      rw [ih (h.add _ _), h.lookup_add]
      by_cases hu : u = uri
      . subst hu
        by_cases hrest : diagnosticsUnder documents diagnostics u = []
        . simp [hrest]
        . simp [hrest]
      . have hne : ¬ uri = u := fun heq => hu heq.symm
        simp [hu, hne]

theorem listsOf_eq (documents : List (Path × String)) (diagnostics : List Diagnostic) :
    listsOf documents diagnostics
      =
    addAll documents diagnostics
      ((documents.map Prod.snd).foldl (fun lists uri => Lists.touch uri lists) []) := by
  unfold listsOf
  rw [List.foldl_map]
  rfl

theorem sorted_opened (uris : List String) :
    Lists.Sorted (uris.foldl (fun lists uri => Lists.touch uri lists) []) :=
  Lists.Sorted.touchAll .nil uris

theorem sorted_listsOf : (listsOf documents diagnostics).Sorted := by
  rw [listsOf_eq]
  exact sorted_addAll (sorted_opened _)

/-- Open documents and files with diagnostics have a list, and it is that of their diagnostics. -/
theorem lookup_listsOf :
    (listsOf documents diagnostics).lookup u
      =
    if u ∈ documents.map Prod.snd ∨ diagnosticsUnder documents diagnostics u ≠ [] then
      some (diagnosticsUnder documents diagnostics u)
    else
      none := by
  rw [listsOf_eq, lookup_addAll (sorted_opened _), Lists.Sorted.lookup_touchAll .nil]
  by_cases hopen : u ∈ documents.map Prod.snd
  . by_cases hown : diagnosticsUnder documents diagnostics u = []
    . simp [hopen, hown]
    . simp [hopen, hown]
  . by_cases hown : diagnosticsUnder documents diagnostics u = []
    . simp [hopen, hown]
    . simp [hopen, hown]

theorem mem_nonEmpty_listsOf :
    u ∈ (listsOf documents diagnostics).nonEmpty
      ↔
    diagnosticsUnder documents diagnostics u ≠ [] := by
  rw [sorted_listsOf.mem_nonEmpty, lookup_listsOf]
  split
  . rfl
  . next h =>
    have hown := Classical.not_not.mp fun hne => h (.inr hne)
    simp [hown]

end

def Effect.listFor? (uri : String) : Effect → Option (List EditorDiagnostic)
  | publish u ds => if u = uri then some ds else none
  | _ => none

/-- The list that was published last for a URI. -/
def lastList? (uri : String) (es : List Effect) : Option (List EditorDiagnostic) :=
  es.reverse.findSome? (Effect.listFor? uri)

section

variable {uri : String} {es es' : List Effect} {lists : Lists}

theorem lastList?_append (uri : String) (es es' : List Effect) :
    lastList? uri (es ++ es') = (lastList? uri es').or (lastList? uri es) := by
  unfold lastList?
  rw [List.reverse_append, List.findSome?_append]

theorem lastList?_cons (e : Effect) :
    lastList? uri (e :: es) = (lastList? uri es).or (e.listFor? uri) := by
  rw [← List.singleton_append, lastList?_append]
  congr 1
  unfold lastList?
  simp

theorem lastList?_eq_none (h : ∀ e ∈ es, e.listFor? uri = none) : lastList? uri es = none := by
  unfold lastList?
  rw [List.findSome?_eq_none_iff]
  intro e he
  exact h e (List.mem_reverse.mp he)

theorem lastList?_publish (h : lists.Sorted) :
    lastList? uri (lists.map fun (uri, ds) => .publish uri ds) = lists.lookup uri := by
  induction lists with
  | nil => rfl
  | cons entry rest ih =>
    rcases entry with ⟨k, ds⟩
    obtain ⟨hkey, hrest⟩ := List.pairwise_cons.mp h
    rw [List.map_cons, lastList?_cons, ih hrest, lookup_cons_eq_ite]
    simp only [Effect.listFor?]
    by_cases hu : uri = k
    . subst hu
      rw [Lists.lookup_eq_none_of_lt hkey]
      simp
    . have hne : ¬ k = uri := fun heq => hu heq.symm
      simp [hu, hne]

end

end InkServer
