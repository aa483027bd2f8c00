import InkServer.Proofs.Publication.Spelling

/-!
This module contains how a cycle sorts diagnostics into lists: one list for each URI, one URI for each
file, and every diagnostic in the list of its file, once.
-/

namespace InkServer

namespace Lists

variable {uri : String} {d : EditorDiagnostic} {lists : Lists}

theorem flatMap_touch (uri : String) (lists : Lists) :
    (Lists.touch uri lists).flatMap Prod.snd = lists.flatMap Prod.snd := by
  unfold touch
  fun_induction alter uri id lists with
  | case1 => rfl
  | case2 => rfl
  | case3 => rfl
  | case4 u ds rest _ _ ih => rw [List.flatMap_cons, List.flatMap_cons, ih]

theorem flatMap_touchAll (uris : List String) (lists : Lists) :
    (uris.foldl (fun lists uri => Lists.touch uri lists) lists).flatMap Prod.snd
      =
    lists.flatMap Prod.snd := by
  induction uris generalizing lists with
  | nil => rfl
  | cons uri uris ih => rw [List.foldl_cons, ih, flatMap_touch]

theorem perm_flatMap_add (uri : String) (d : EditorDiagnostic) (lists : Lists) :
    ((Lists.add uri d lists).flatMap Prod.snd).Perm (d :: lists.flatMap Prod.snd) := by
  unfold add
  fun_induction alter uri (· ++ [d]) lists with
  | case1 => exact .refl _
  | case2 ds rest =>
    rw [List.flatMap_cons, List.flatMap_cons, List.append_assoc, List.singleton_append]
    exact List.perm_middle
  | case3 => exact .refl _
  | case4 u ds rest _ _ ih =>
    rw [List.flatMap_cons, List.flatMap_cons]
    exact (ih.append_left ds).trans List.perm_middle

end Lists

section

variable {documents : List (Path × String)} {diagnostics : List Diagnostic} {lists : Lists}

/-- What is shown of the given diagnostics, in the order in which they were reported. -/
def shownOf (documents : List (Path × String)) (diagnostics : List Diagnostic) :
    List EditorDiagnostic :=
  (diagnostics.filter fun d => (shownUri? documents d.path.normalize).isSome).map .ofDiagnostic

theorem perm_flatMap_addAll :
    ((addAll documents diagnostics lists).flatMap Prod.snd).Perm
      (shownOf documents diagnostics ++ lists.flatMap Prod.snd) := by
  induction diagnostics generalizing lists with
  | nil => exact .refl _
  | cons d diagnostics ih =>
    rw [addAll_cons]
    unfold shownOf at ih ⊢
    rw [List.filter_cons]
    cases hshown : shownUri? documents d.path.normalize with
    | none => exact ih
    | some uri =>
      rw [Option.isSome_some, if_pos rfl, List.map_cons]
      exact ih.trans (((Lists.perm_flatMap_add uri _ lists).append_left _).trans List.perm_middle)

theorem perm_flatMap_listsOf :
    ((listsOf documents diagnostics).flatMap Prod.snd).Perm (shownOf documents diagnostics) := by
  have hopened := Lists.flatMap_touchAll (documents.map Prod.snd) []
  have hadded := @perm_flatMap_addAll documents diagnostics
    ((documents.map Prod.snd).foldl (fun lists uri => Lists.touch uri lists) [])
  rw [hopened, List.flatMap_nil, List.append_nil] at hadded
  rw [listsOf_eq]
  exact hadded

end

namespace World

/-- The URI under which a file is shown for a workspace: the editor's own one if the file is open and
lies inside the workspace, or else the `file:` URI. -/
def uriFor? (w : World) (ws : Workspace) (p : Path) : Option String :=
  if p.isInside ws.root then (w.documents.lookup p).or (Uri.ofPath? p) else Uri.ofPath? p

variable {w : World} {ws : Workspace} {p q : Path} {uri : String} {diagnostics : List Diagnostic}
  {list : List EditorDiagnostic}

theorem find?_documentsInside (documents : List (Path × String)) (root p : Path) :
    (documentsInside documents root).find? (fun (q, _) => q = p)
      =
    if p.isInside root then (documents.lookup p).map (p, ·) else none := by
  unfold documentsInside
  rw [List.find?_filter]
  induction documents with
  | nil => simp
  | cons document documents ih =>
    rcases document with ⟨q, u⟩
    rw [List.find?_cons, lookup_cons_eq_ite, ih]
    by_cases hq : q = p
    . subst hq
      cases hin : q.isInside root with
      | true => simp [hin]
      | false => simp [hin]
    . simp [hq, Ne.symm hq]

theorem shownUri?_documentsInside (w : World) (ws : Workspace) (p : Path) :
    shownUri? (documentsInside w.documents ws.root) p = w.uriFor? ws p := by
  unfold shownUri? uriFor?
  rw [find?_documentsInside]
  cases p.isInside ws.root with
  | false => rfl
  | true =>
    cases w.documents.lookup p with
    | none => rfl
    | some u => rfl

/-- The URI under which a file is shown stands for this file. -/
theorem denotes_of_uriFor? (h : Spelled w.documents) (hp : p.normalize = p)
    (hu : w.uriFor? ws p = some uri) : Uri.Denotes uri p := by
  unfold uriFor? at hu
  split at hu
  . cases hl : w.documents.lookup p with
    | none =>
      rw [hl, Option.none_or] at hu
      exact Uri.normalize_of_ofPath? hp hu
    | some u =>
      rw [hl, Option.some_or, Option.some.injEq] at hu
      rw [← hu]
      exact h.denotes (mem_of_lookup hl)
  . exact Uri.normalize_of_ofPath? hp hu

theorem ofPath?_of_uriFor?_eq_none (h : w.uriFor? ws p = none) : Uri.ofPath? p = none := by
  unfold uriFor? at h
  split at h
  . exact (Option.or_eq_none_iff.mp h).2
  . exact h

/-- An open document inside the workspace is shown under the editor's own URI. -/
theorem uriFor?_of_open (h : Spelled w.documents) (hmem : (p, uri) ∈ w.documents)
    (hin : p.isInside ws.root = true) : w.uriFor? ws p = some uri := by
  rw [uriFor?, if_pos hin, lookup_of_nodup h.nodup hmem]
  rfl

theorem mem_renew_iff (w : World) (ws : Workspace) (diagnostics : List Diagnostic) {uri : String}
    {list : List EditorDiagnostic} :
    (uri, list) ∈ (w.renew ws diagnostics).2
      ↔
    (w.renew ws diagnostics).2.lookup uri = some list :=
  ⟨lookup_of_mem (w.sorted_renew ws diagnostics), mem_of_lookup⟩

/-- The list of a URI is the list of the file that is shown under it. -/
theorem shownBy_of_uriFor? (h : Spelled w.documents) (hp : p.normalize = p)
    (hu : w.uriFor? ws p = some uri) (diagnostics : List Diagnostic) :
    w.shownBy (ws, diagnostics) uri
      =
    (diagnostics.filter fun d => d.path.normalize = p).map .ofDiagnostic := by
  unfold shownBy diagnosticsUnder
  congr 1
  apply List.filter_congr
  intro d _
  rw [decide_eq_decide, shownUri?_documentsInside]
  constructor
  . intro hd
    have hdenotes := denotes_of_uriFor? h (Path.normalize_normalize _) hd
    exact hdenotes.unique (denotes_of_uriFor? h hp hu)
  . intro hd
    rw [hd, hu]

theorem shownBy_of_forall (h : ∀ p : Path, p.normalize = p → w.uriFor? ws p ≠ some uri)
    (diagnostics : List Diagnostic) : w.shownBy (ws, diagnostics) uri = [] := by
  unfold shownBy diagnosticsUnder
  rw [List.map_eq_nil_iff, List.filter_eq_nil_iff]
  intro d _ hd
  rw [decide_eq_true_eq, shownUri?_documentsInside] at hd
  exact h _ (Path.normalize_normalize _) hd

theorem shownBy_ne_nil_iff_exists (diagnostics : List Diagnostic) :
    w.shownBy (ws, diagnostics) uri ≠ []
      ↔
    ∃ d ∈ diagnostics, w.uriFor? ws d.path.normalize = some uri := by
  unfold shownBy diagnosticsUnder
  rw [ne_eq, List.map_eq_nil_iff, List.filter_eq_nil_iff]
  simp [shownUri?_documentsInside]

/-- A list is published for the open documents inside the workspace, for the files with diagnostics
and for the URIs that had some. -/
theorem exists_mem_renew_iff (w : World) (ws : Workspace) (diagnostics : List Diagnostic)
    (uri : String) :
    (∃ list, (uri, list) ∈ (w.renew ws diagnostics).2)
      ↔
    (∃ p, (p, uri) ∈ w.documents ∧ p.isInside ws.root = true)
      ∨ (∃ d ∈ diagnostics, w.uriFor? ws d.path.normalize = some uri)
      ∨ uri ∈ w.recorded ws.uri := by
  have hopen : uri ∈ (documentsInside w.documents ws.root).map Prod.snd
      ↔ ∃ p, (p, uri) ∈ w.documents ∧ p.isInside ws.root = true := by
    simp [documentsInside]
  simp only [mem_renew_iff, ← Option.isSome_iff_exists]
  rw [lookup_renew, ← hopen, ← shownBy_ne_nil_iff_exists, ← or_assoc]
  split
  . next hlisted => exact iff_of_true rfl (.inl hlisted)
  . next hnot =>
    simp only [hnot, false_or]
    split
    . next hrecorded => exact iff_of_true rfl hrecorded
    . next hrecorded => exact iff_of_false (by simp) hrecorded

theorem mem_renew (hmem : (uri, list) ∈ (w.renew ws diagnostics).2) :
    list = w.shownBy (ws, diagnostics) uri := by
  rw [mem_renew_iff, lookup_renew] at hmem
  split at hmem
  . exact (Option.some.inj hmem).symm
  . next hnot =>
    have hnone := Classical.not_not.mp fun hne => hnot (.inr hne)
    split at hmem
    . rw [hnone]
      exact (Option.some.inj hmem).symm
    . cases hmem

theorem perm_flatMap_renew (w : World) (ws : Workspace) (diagnostics : List Diagnostic) :
    ((w.renew ws diagnostics).2.flatMap Prod.snd).Perm
      ((diagnostics.filter fun d => (w.uriFor? ws d.path.normalize).isSome).map .ofDiagnostic) := by
  have hlists := @perm_flatMap_listsOf (documentsInside w.documents ws.root) diagnostics
  unfold shownOf at hlists
  simp only [shownUri?_documentsInside] at hlists
  dsimp only [renew, publication]
  rw [Lists.flatMap_touchAll]
  exact hlists

/-- A cycle publishes one list for each URI, in ascending order: for the open documents inside the
workspace, for the files with diagnostics, and for the URIs whose lists were not empty the last time.
The list of a file, under the one URI that it has, consists of its diagnostics in the order in which
they were reported; a URI that is no longer that of a file has an empty list. So every diagnostic is
published once, but for those of files without a URI. -/
theorem diagnostics_published_once (w : World) (ws : Workspace) (diagnostics : List Diagnostic)
    (h : Spelled w.documents) :
    ∃ lists : Lists, (w.publish ws diagnostics).trace = w.trace ++ lists.messages
      ∧ lists.Sorted
      ∧ (∀ uri, (∃ list, (uri, list) ∈ lists)
        ↔ (∃ p, (p, uri) ∈ w.documents ∧ p.isInside ws.root = true)
          ∨ (∃ d ∈ diagnostics, w.uriFor? ws d.path.normalize = some uri)
          ∨ uri ∈ w.recorded ws.uri)
      ∧ (∀ uri list p, (uri, list) ∈ lists → p.normalize = p → w.uriFor? ws p = some uri →
        list = (diagnostics.filter fun d => d.path.normalize = p).map .ofDiagnostic)
      ∧ (∀ uri list, (uri, list) ∈ lists →
        (∀ p : Path, p.normalize = p → w.uriFor? ws p ≠ some uri) → list = [])
      ∧ (∀ p uri, (p, uri) ∈ w.documents → p.isInside ws.root = true →
        w.uriFor? ws p = some uri)
      ∧ (∀ p q uri, p.normalize = p → q.normalize = q → w.uriFor? ws p = some uri →
        w.uriFor? ws q = some uri → p = q)
      ∧ (lists.flatMap Prod.snd).Perm
        ((diagnostics.filter fun d => (w.uriFor? ws d.path.normalize).isSome).map .ofDiagnostic)
      ∧ ∀ p, w.uriFor? ws p = none → Uri.ofPath? p = none := by
  refine ⟨(w.renew ws diagnostics).2, rfl, w.sorted_renew ws diagnostics,
    w.exists_mem_renew_iff ws diagnostics, ?_, ?_, ?_, ?_, w.perm_flatMap_renew ws diagnostics, ?_⟩
  . intro uri list p hmem hp hu
    rw [mem_renew hmem, shownBy_of_uriFor? h hp hu]
  . intro uri list hmem hnot
    rw [mem_renew hmem, shownBy_of_forall hnot]
  . intro p uri hmem hin
    exact uriFor?_of_open h hmem hin
  . intro p q uri hp hq hpu hqu
    exact (denotes_of_uriFor? h hp hpu).unique (denotes_of_uriFor? h hq hqu)
  . intro p hnone
    exact ofPath?_of_uriFor?_eq_none hnone

end World

/-- Faults in a story, one of them by a roundabout path and one of a file nobody can name. -/
def sortedReport : List Diagnostic :=
  [⟨.error, .ofString "/v/sub/../a.ink", 1, "first"⟩, ⟨.warning, .ofString "/v/b.ink", 2, "second"⟩,
    ⟨.error, .ofString "/v/a.ink", 3, "third"⟩, ⟨.error, .ofString "c.ink", 4, "lost"⟩]

def sortedWorkspace : Workspace := ⟨"/v", .ofString "/v", none⟩

/-- One story is open under a plain path, and its diagnostics were shown under its `file:` URI the
last time. -/
def sortedWorld : World :=
  { World.start ⟨[], []⟩ ⟨.ofString "/s", .standard⟩ ⟨"a.ink", "inklecate", none⟩ with
    documents := [(.ofString "/v/a.ink", "/v/a.ink")]
    published := [("/v", ["file:///v/a.ink"])] }

theorem sortedWorld_spelled : Spelled sortedWorld.documents where
  nodup := by simp [sortedWorld]
  denotes := by
    intro p uri h
    simp only [sortedWorld, List.mem_singleton, Prod.mk.injEq] at h
    rw [h.1, h.2]
    exact ⟨.ofString "/v/a.ink", by rfl, by decide⟩

theorem sortedWorld_uriFor? :
    sortedWorld.uriFor? sortedWorkspace (.ofString "/v/a.ink") = some "/v/a.ink"
      ∧ sortedWorld.uriFor? sortedWorkspace (.ofString "/v/b.ink") = some "file:///v/b.ink" := by
  have ha : (Path.ofString "/v/a.ink").isInside (.ofString "/v") = true := by decide +kernel
  have hb : (Path.ofString "/v/b.ink").isInside (.ofString "/v") = true := by decide +kernel
  have hu : Uri.ofPath? (Path.ofString "/v/b.ink") = some "file:///v/b.ink" := by rfl
  constructor
  . rewrite [World.uriFor?, sortedWorkspace, if_pos ha]
    rfl
  . rewrite [World.uriFor?, sortedWorkspace, if_pos hb, hu]
    rfl

/-- The `file:` URI of the open story stands for that story alone, whose diagnostics go elsewhere. -/
theorem sortedWorld_uriFor?_ne (p : Path) (hp : p.normalize = p) :
    sortedWorld.uriFor? sortedWorkspace p ≠ some "file:///v/a.ink" := by
  intro h
  have ha : Uri.Denotes "file:///v/a.ink" (.ofString "/v/a.ink") :=
    Uri.normalize_of_ofPath? (by decide) (by rfl)
  rw [(World.denotes_of_uriFor? sortedWorld_spelled hp h).unique ha,
    sortedWorld_uriFor?.1] at h
  simp at h

/-- Both faults of the open story come under the URI it was opened by, in the order of the report,
the story shown before under its `file:` URI is cleared there, and the other story has a list of its
own. -/
theorem sortedWorld_publishes :
    Spelled sortedWorld.documents
      ∧ ∃ lists : Lists,
        (sortedWorld.publish sortedWorkspace sortedReport).trace
          = sortedWorld.trace ++ lists.messages
        ∧ ("/v/a.ink", [⟨0, .error, "first"⟩, ⟨2, .error, "third"⟩]) ∈ lists
        ∧ ("file:///v/a.ink", []) ∈ lists
        ∧ ("file:///v/b.ink", [⟨1, .warning, "second"⟩]) ∈ lists := by
  obtain ⟨lists, htrace, _, hkeys, hfiles, hstale, _⟩ :=
    World.diagnostics_published_once sortedWorld sortedWorkspace sortedReport sortedWorld_spelled
  obtain ⟨la, ha⟩ : ∃ list, ("/v/a.ink", list) ∈ lists :=
    (hkeys _).mpr (.inr (.inl ⟨⟨.error, .ofString "/v/a.ink", 3, "third"⟩, by simp [sortedReport],
      sortedWorld_uriFor?.1⟩))
  obtain ⟨lb, hb⟩ : ∃ list, ("file:///v/b.ink", list) ∈ lists :=
    (hkeys _).mpr (.inr (.inl ⟨⟨.warning, .ofString "/v/b.ink", 2, "second"⟩, by simp [sortedReport],
      sortedWorld_uriFor?.2⟩))
  obtain ⟨lc, hc⟩ : ∃ list, ("file:///v/a.ink", list) ∈ lists :=
    (hkeys _).mpr (.inr (.inr (by decide)))
  have hla : la = [⟨0, .error, "first"⟩, ⟨2, .error, "third"⟩] :=
    (hfiles _ _ _ ha (by decide) sortedWorld_uriFor?.1).trans (by decide)
  have hlb : lb = [⟨1, .warning, "second"⟩] :=
    (hfiles _ _ _ hb (by decide) sortedWorld_uriFor?.2).trans (by decide)
  rw [hla] at ha
  rw [hlb] at hb
  rw [hstale _ _ hc sortedWorld_uriFor?_ne] at hc
  exact ⟨sortedWorld_spelled, lists, htrace, ha, hc, hb⟩

end InkServer
