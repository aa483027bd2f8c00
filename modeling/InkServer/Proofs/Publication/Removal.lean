import InkServer.Proofs.Publication.History

/-!
This module contains what the removal of a workspace leaves behind. It drops the record of what was
shown on behalf of the workspace and publishes nothing, so what was shown stays until somebody else
publishes for the same URIs.
-/

namespace InkServer

namespace World

variable {w v u : World} {o : Occurrence} {workspace uri : String}

/-- Nothing is recorded about a workspace. -/
def Unrecorded (w : World) (workspace : String) : Prop :=
  w.published.lookup workspace = none

/-- A workspace about which something is recorded is registered. -/
def Accounted (w : World) (workspace : String) : Prop :=
  (w.registry.get? workspace).isSome = true ∨ w.Unrecorded workspace

end World

section

variable {w v u : World} {o : Occurrence} {gone : List String} {workspace uri : String}

theorem Unpublished.unrecorded (h : Unpublished gone v u) (hv : v.Unrecorded workspace) :
    u.Unrecorded workspace :=
  h.lookup_eq_none hv

theorem Unpublished.accounted (h : Unpublished gone v u) (hv : v.Accounted workspace) :
    u.Accounted workspace := by
  cases hv with
  | inl hv => exact h.registered workspace hv
  | inr hv => exact .inr (h.unrecorded hv)

end

/-- What others do at a halt keeps the workspace accounted for, and unrecorded. -/
def Halt.Spares (workspace : String) (h : Halt) : Prop :=
  (h.before.Accounted workspace → h.after.Accounted workspace)
    ∧ (h.before.Unrecorded workspace → h.after.Unrecorded workspace)

namespace Step

variable {α : Type} {R : World → World → Prop} {Q : Halt → Prop} {I : World → Prop} {v : World}
  {t : Step α}

theorem Spans.along (h : t.Spans R v) (hR : ∀ {a b}, R a b → I a → I b)
    (hQ : ∀ h, Q h → I h.before → I h.after) (hv : I v) (ps : List Halt) :
    t.Along Q (fun _ _ _ => True) (fun _ w _ => I w) ps := by
  induction t generalizing v ps with
  | done w a => exact hR h hv
  | ask w q k ih =>
    refine ⟨trivial, ?_⟩
    intro answer u hq
    exact ih answer u (h.2 answer u) (hQ _ hq (hR h.1 hv)) _

end Step

namespace Job

variable {α : Type} {gone uris : List String} {workspace uri : String} {w : World} {ps : List Halt}

theorem Discreet.along_accounted {job : Job α} (h : job.Discreet gone)
    (hw : w.Accounted workspace) :
    (job w).Along (Halt.Spares workspace) (fun _ _ _ => True)
      (fun _ w _ => w.Accounted workspace) ps :=
  (h w).along Unpublished.accounted (fun _ hq => hq.1) hw ps

theorem Discreet.along_unrecorded {job : Job α} (h : job.Discreet gone)
    (hw : w.Unrecorded workspace) :
    (job w).Along (Halt.Spares workspace) (fun _ _ _ => True)
      (fun _ w _ => w.Unrecorded workspace) ps :=
  (h w).along Unpublished.unrecorded (fun _ hq => hq.2) hw ps

theorem folderRemoved_unrecorded (hw : w.Accounted workspace) :
    (folderRemoved workspace w).Along (Halt.Spares workspace) (fun _ _ _ => True)
      (fun _ w _ => w.Unrecorded workspace) ps := by
  rw [folderRemoved_eq]
  split
  . have hdropped : (w.without workspace).Unrecorded workspace := by
      simp only [World.Unrecorded, World.without, lookup_eraseKey, if_pos]
    have hdiscard : ∀ scratch, (discardScratch scratch).Discreet [] :=
      fun scratch => (made_discardScratch scratch).discreet
    exact (hdiscard _).along_unrecorded hdropped
  . next hnot =>
    cases hw with
    | inl hsome => exact absurd hsome hnot
    | inr hnone => exact hnone

theorem foldersRemoved_unrecorded (hmem : workspace ∈ uris) (hw : w.Accounted workspace) :
    (foldersRemoved uris w).Along (Halt.Spares workspace) (fun _ _ _ => True)
      (fun _ w _ => w.Unrecorded workspace) ps := by
  induction uris generalizing w ps with
  | nil => cases hmem
  | cons uri uris ih =>
    apply Step.along_bind
    by_cases huri : workspace = uri
    . subst huri
      refine (folderRemoved_unrecorded hw).mono (fun _ _ _ h => h) ?_
      intro ps' v _ hv
      exact (made_foldersRemoved fun _ h => h).discreet.along_unrecorded hv
    . -- Another folder goes first.
      have hrest : workspace ∈ uris := (List.mem_cons.mp hmem).resolve_left huri
      have hfirst : (folderRemoved uri).Made [uri] := made_folderRemoved (.head _)
      refine (hfirst.discreet.along_accounted hw).mono (fun _ _ _ h => h) ?_
      intro ps' v _ hv
      exact ih hrest hv

theorem foldersChanged_unrecorded {added removed : List String} (hmem : workspace ∈ removed)
    (hw : w.Accounted workspace) :
    (foldersChanged added removed w).Along (Halt.Spares workspace) (fun _ _ _ => True)
      (fun _ w _ => w.Unrecorded workspace) ps := by
  apply Step.along_bind
  refine (foldersRemoved_unrecorded hmem hw).mono (fun _ _ _ h => h) ?_
  intro ps' v _ hv
  have hrest : (do
      addFolders added
      let _ ← copyWorkspaces added).Made [] :=
    .bind (made_addFolders _) fun _ => .bind (made_copyWorkspaces _) fun _ => .pure _
  exact hrest.discreet.along_unrecorded hv

end Job

/-- An errand is carried on from a step, in turns between which others have theirs. -/
inductive Carries (e : Errand) : World → Step Unit → List Turn → World → Prop where
  | done {v w : World} {a : Unit} : Carries e v (.done w a) [⟨v, .work e, w⟩] w
  | ask {v w u w' : World} {q : Query} {k : q.Answer → World → Step Unit} {others rest : List Turn}
    {answer : q.Answer} (hothers : Chronicle w others u) (hrest : Carries e u (k answer u) rest w') :
    Carries e v (.ask w q k) (rest ++ (others ++ [⟨v, .work e, w⟩])) w'

section

variable {e : Errand} {w₀ w v u : World} {o : Occurrence} {t : Step Unit} {ts later : List Turn}
  {workspace uri : String} {cycle : Workspace × List Diagnostic}

theorem Chronicle.append (h : Chronicle w ts v) (h' : Chronicle v later u) :
    Chronicle w (later ++ ts) u := by
  induction h' with
  | nil => exact h
  | turn _ ht ih => exact .turn ih ht

theorem Carries.chronicle (h : Carries e v t ts w) (hgoes : e.Goes v t) : Chronicle v ts w := by
  induction h with
  | done => exact .turn .nil (.work hgoes)
  | ask hothers _ ih =>
    have hfirst := Chronicle.turn .nil (World.Takes.work hgoes)
    exact (hfirst.append hothers).append (ih (hgoes.resume _ _))

theorem World.Takes.spares (h : v.Takes o u) (hc : Turn.isCycleOf workspace ⟨v, o, u⟩ = false) :
    (v.Accounted workspace → u.Accounted workspace)
      ∧ (v.Unrecorded workspace → u.Unrecorded workspace) := by
  cases hcycle : v.cycle? o with
  | none =>
    have hsilent := h.unpublished hcycle
    exact ⟨hsilent.accounted, hsilent.unrecorded⟩
  | some cycle =>
    obtain ⟨_, _, hlookup, hregistry⟩ := h.of_cycle hcycle
    unfold Accounted Unrecorded
    rw [hlookup workspace (Turn.ne_of_cycle? hc hcycle), hregistry]
    exact ⟨id, id⟩

theorem Chronicle.spares (h : Chronicle w ts v) (hc : ∀ t ∈ ts, t.isCycleOf workspace = false) :
    (w.Accounted workspace → v.Accounted workspace)
      ∧ (w.Unrecorded workspace → v.Unrecorded workspace) := by
  induction h with
  | nil => exact ⟨id, id⟩
  | turn _ ht ih =>
    obtain ⟨haccounted, hunrecorded⟩ := ih fun t hmem => hc t (.tail _ hmem)
    obtain ⟨haccounted', hunrecorded'⟩ := ht.spares (hc _ (.head _))
    exact ⟨fun hw => haccounted' (haccounted hw), fun hw => hunrecorded' (hunrecorded hw)⟩

theorem Carries.of_along {Ends : List Halt → World → Unit → Prop} {ps : List Halt}
    (h : Carries e v t ts w) (hc : ∀ t ∈ ts, t.isCycleOf workspace = false)
    (ht : t.Along (Halt.Spares workspace) (fun _ _ _ => True) Ends ps) : ∃ ps', Ends ps' w () := by
  induction h generalizing ps with
  | done => exact ⟨ps, ht⟩
  | ask hothers _ ih =>
    have hspares := hothers.spares fun t hmem =>
      hc t (List.mem_append_right _ (List.mem_append_left _ hmem))
    exact ih (fun t hmem => hc t (List.mem_append_left _ hmem)) (ht.2 _ _ hspares)

/-- The list that the completion of a run published last for a URI. -/
def lastShown? (uri : String) : List Turn → Option (List EditorDiagnostic)
  | [] => none
  | t :: ts => if t.cycle?.isSome then (t.list? uri).or (lastShown? uri ts) else lastShown? uri ts

theorem Chronicle.lastList?_eq (h : Chronicle w ts v) :
    lastList? uri v.trace = (lastShown? uri ts).or (lastList? uri w.trace) := by
  induction h with
  | nil => rfl
  | @turn ts v u o h ht ih =>
    rw [lastShown?, Turn.cycle?]
    cases hcycle : v.cycle? o with
    | none =>
      obtain ⟨es, htrace, hes⟩ := (ht.unpublished hcycle).trace
      rw [htrace, lastList?_append, lastList?_eq_none, Option.none_or, ih]
      . rfl
      . intro e he
        have hnot := hes e he
        cases e with
        | publish => cases hnot
        | _ => rfl
    | some cycle =>
      obtain ⟨es, htrace, _⟩ := (ht.of_cycle hcycle).1
      rw [htrace, lastList?_append, ih, Option.isSome_some, if_pos rfl, Turn.list?_of_trace htrace,
        Option.or_assoc]

/-- After the record is gone, the completion of a run takes the place of what was shown before only
under the URIs of open documents and of its own diagnostics. -/
theorem World.Takes.shownFor_of_unrecorded (h : v.Takes o u) (hc : v.cycle? o = some cycle)
    (hws : cycle.1.uri = workspace) (hv : v.Unrecorded workspace) :
    shownFor workspace (⟨v, o, u⟩ :: ts) uri
      =
    if uri ∈ (documentsInside v.documents cycle.1.root).map Prod.snd ∨ v.shownBy cycle uri ≠ [] then
      v.shownBy cycle uri
    else
      shownFor workspace ts uri := by
  obtain ⟨es, htrace, hes⟩ := (h.of_cycle hc).1
  have hcycle : Turn.isCycleOf workspace ⟨v, o, u⟩ = true :=
    Turn.isCycleOf_iff.mpr ⟨cycle, hc, hws⟩
  have hnothing : v.recorded workspace = [] := by
    rw [World.recorded, hv]
    rfl
  rw [shownFor, if_pos hcycle, Turn.list?_of_trace htrace, hes uri, hws, hnothing]
  split
  . rfl
  . rfl

theorem World.Takes.clears_iff (ts : List Turn) (h : v.Takes o u) (hc : v.cycle? o = some cycle)
    (hws : cycle.1.uri = workspace) (hv : v.Unrecorded workspace) :
    (∀ uri, shownFor workspace (⟨v, o, u⟩ :: ts) uri ≠ [] → v.shownBy cycle uri ≠ [])
      ↔
    ∀ uri, shownFor workspace ts uri ≠ [] →
      v.shownBy cycle uri ≠ [] ∨ uri ∈ (documentsInside v.documents cycle.1.root).map Prod.snd := by
  refine forall_congr' fun uri => ?_
  rw [h.shownFor_of_unrecorded hc hws hv]
  by_cases hlisted : uri ∈ (documentsInside v.documents cycle.1.root).map Prod.snd
      ∨ v.shownBy cycle uri ≠ []
  . rw [if_pos hlisted]
    exact ⟨fun _ _ => hlisted.symm, fun _ hshown => hshown⟩
  . rw [if_neg hlisted]
    refine imp_congr_right fun _ => ⟨.inl, fun hcase => ?_⟩
    exact absurd hcase.symm hlisted

theorem lastShown?_append :
    lastShown? uri (later ++ ts) = (lastShown? uri later).or (lastShown? uri ts) := by
  induction later with
  | nil => rfl
  | cons t later ih =>
    rw [List.cons_append, lastShown?, lastShown?, ih]
    split
    . rw [Option.or_assoc]
    . rfl

theorem lastShown?_isSome (h : shownFor workspace ts uri ≠ []) :
    (lastShown? uri ts).isSome = true := by
  induction ts with
  | nil => exact absurd rfl h
  | cons t ts ih =>
    rw [shownFor] at h
    rw [lastShown?]
    split at h
    . next hcycle =>
      obtain ⟨cycle, hc, _⟩ := Turn.isCycleOf_iff.mp hcycle
      have hsome : t.cycle?.isSome = true := by
        rw [Turn.cycle?, hc]
        rfl
      rw [if_pos hsome, Option.isSome_or]
      -- A run that published nothing for the URI leaves there what was shown before.
      cases hlist : t.list? uri with
      | some ds => rfl
      | none =>
        rw [hlist] at h
        exact ih h
    . have hrest := ih h
      split
      . rw [Option.isSome_or, hrest, Bool.or_true]
      . exact hrest

/-- The turn completes a run with a list for the URI: of an open document or of faults, or in the place
of faults that were recorded. -/
def Turn.Lists (t : Turn) (uri : String) (cycle : Workspace × List Diagnostic) : Prop :=
  t.cycle? = some cycle
    ∧ (uri ∈ (documentsInside t.before.documents cycle.1.root).map Prod.snd
      ∨ t.before.shownBy cycle uri ≠ [] ∨ uri ∈ t.before.recorded cycle.1.uri)

/-- The turn completes the last run with a list for the URI. -/
inductive LastToList (uri : String) : List Turn → Turn → Workspace × List Diagnostic → Prop where
  | here {t : Turn} {ts : List Turn} {cycle : Workspace × List Diagnostic} (h : t.Lists uri cycle) :
    LastToList uri (t :: ts) t cycle
  | before {other t : Turn} {ts : List Turn} {cycle : Workspace × List Diagnostic}
    (hnot : ∀ cycle, ¬other.Lists uri cycle) (h : LastToList uri ts t cycle) :
    LastToList uri (other :: ts) t cycle

theorem World.Takes.list?_of_lists (h : v.Takes o u) (hl : Turn.Lists ⟨v, o, u⟩ uri cycle) :
    Turn.list? ⟨v, o, u⟩ uri = some (v.shownBy cycle uri) := by
  obtain ⟨hc, hnamed⟩ := hl
  obtain ⟨es, htrace, hes⟩ := (h.of_cycle hc).1
  rw [Turn.list?_of_trace htrace, hes uri]
  by_cases hshown : uri ∈ (documentsInside v.documents cycle.1.root).map Prod.snd
      ∨ v.shownBy cycle uri ≠ []
  . rw [if_pos hshown]
  . have hnone := Classical.not_not.mp fun hne => hshown (.inr hne)
    rw [← or_assoc] at hnamed
    rw [if_neg hshown, if_pos (hnamed.resolve_left hshown), hnone]

theorem World.Takes.list?_of_not_lists (h : v.Takes o u) (hc : v.cycle? o = some cycle)
    (hl : ¬Turn.Lists ⟨v, o, u⟩ uri cycle) : Turn.list? ⟨v, o, u⟩ uri = none := by
  obtain ⟨es, htrace, hes⟩ := (h.of_cycle hc).1
  have hnot := fun hnamed => hl ⟨hc, hnamed⟩
  rw [← or_assoc] at hnot
  rw [Turn.list?_of_trace htrace, hes uri, if_neg fun hshown => hnot (.inl hshown),
    if_neg fun hrecorded => hnot (.inr hrecorded)]

/-- What was published last for a URI comes from the last run with a list for it. -/
theorem Chronicle.lastShown?_eq_some_iff (h : Chronicle w ts v) {ds : List EditorDiagnostic} :
    lastShown? uri ts = some ds
      ↔
    ∃ t cycle, LastToList uri ts t cycle ∧ t.before.shownBy cycle uri = ds := by
  induction h with
  | nil =>
    refine ⟨nofun, ?_⟩
    rintro ⟨_, _, hlast, _⟩
    cases hlast
  | @turn ts v u o _ ht ih =>
    by_cases hl : ∃ cycle, Turn.Lists ⟨v, o, u⟩ uri cycle
    . obtain ⟨cycle, hl⟩ := hl
      rw [lastShown?, hl.1, Option.isSome_some, if_pos rfl, ht.list?_of_lists hl, Option.some_or,
        Option.some.injEq]
      refine ⟨fun heq => ⟨_, cycle, .here hl, heq⟩, ?_⟩
      rintro ⟨t, cycle', hlast, heq⟩
      cases hlast with
      | here hl' =>
        rw [Option.some.inj (hl.1.symm.trans hl'.1)]
        exact heq
      | before hnot => exact absurd hl (hnot cycle)
    . have hnot := not_exists.mp hl
      have hskip : lastShown? uri (⟨v, o, u⟩ :: ts) = lastShown? uri ts := by
        rw [lastShown?, Turn.cycle?]
        cases hc : v.cycle? o with
        | none => rfl
        | some cycle => rw [Option.isSome_some, if_pos rfl, ht.list?_of_not_lists hc (hnot cycle),
            Option.none_or]
      rw [hskip, ih]
      constructor
      . rintro ⟨t, cycle, hlast, heq⟩
        exact ⟨t, cycle, .before hnot hlast, heq⟩
      . rintro ⟨t, cycle, hlast, heq⟩
        cases hlast with
        | here hl' => exact absurd hl' (hnot cycle)
        | before _ hlast => exact ⟨t, cycle, hlast, heq⟩

/-- If that run is one of the workspace, then this is what is shown on behalf of the workspace. -/
theorem Chronicle.shownFor_of_lastToList {last : Turn} (h : Chronicle w ts v)
    (hlast : LastToList uri ts last cycle) (hws : cycle.1.uri = workspace) :
    shownFor workspace ts uri = last.before.shownBy cycle uri := by
  induction h with
  | nil => cases hlast
  | @turn ts v u o _ ht ih =>
    rw [shownFor]
    cases hlast with
    | here hl =>
      rw [if_pos (Turn.isCycleOf_iff.mpr ⟨cycle, hl.1, hws⟩), ht.list?_of_lists hl, Option.getD_some]
    | before hnot hlast =>
      split
      . next hcycle =>
        obtain ⟨other, hc, _⟩ := Turn.isCycleOf_iff.mp hcycle
        rw [ht.list?_of_not_lists hc (hnot other), Option.getD_none, ih hlast]
      . exact ih hlast

/-- When the removal of a workspace has come to its end, what was shown on its behalf under a URI is
cleared only if the last run with a list for the URI is one of another workspace, and found no faults
there. When the workspace is there again, its first completed run clears what was shown before only
under the URIs of open documents. -/
theorem removal_clears_iff {added removed : List String} {op : List Turn} (h : Chronicle w₀ ts w)
    (hregistered : (w.registry.get? workspace).isSome = true) (hremoved : workspace ∈ removed)
    (hop : Carries (.foldersChanged added removed) w (Job.foldersChanged added removed w) op v)
    (hflight : ∀ t ∈ op, t.isCycleOf workspace = false) :
    ((∀ uri, shownFor workspace ts uri ≠ [] → lastList? uri v.trace = some [])
        ↔
      ∀ uri, shownFor workspace ts uri ≠ [] →
        ∃ t cycle, LastToList uri (op ++ ts) t cycle ∧ cycle.1.uri ≠ workspace
          ∧ t.before.shownBy cycle uri = [])
      ∧ ∀ later last u cycle, Chronicle v (last :: later) u → last.cycle? = some cycle →
          cycle.1.uri = workspace → (∀ t ∈ later, t.isCycleOf workspace = false) →
          ((∀ uri, shownFor workspace (last :: (later ++ (op ++ ts))) uri ≠ [] →
              last.before.shownBy cycle uri ≠ [])
            ↔
          ∀ uri, shownFor workspace ts uri ≠ [] →
            last.before.shownBy cycle uri ≠ []
              ∨ uri ∈ (documentsInside last.before.documents cycle.1.root).map Prod.snd) := by
  have hchronicle := hop.chronicle (.begin w)
  have hdropped : v.Unrecorded workspace := by
    obtain ⟨_, hends⟩ := hop.of_along hflight
      (Job.foldersChanged_unrecorded hremoved (.inl hregistered) : Step.Along _ _ _ [] _)
    exact hends
  have hall := h.append hchronicle
  refine ⟨forall_congr' fun uri => imp_congr_right fun hshown => ?_, ?_⟩
  . -- Something was published for the URI, so the last list comes from the completion of a run.
    obtain ⟨ds, hds⟩ := Option.isSome_iff_exists.mp (lastShown?_isSome hshown)
    have hlist : lastList? uri v.trace = lastShown? uri (op ++ ts) := by
      rw [hall.lastList?_eq, lastShown?_append, hds]
      cases lastShown? uri op with
      | none => rfl
      | some _ => rfl
    rw [hlist, hall.lastShown?_eq_some_iff]
    constructor
    . rintro ⟨t, cycle, hlast, hclear⟩
      refine ⟨t, cycle, hlast, fun hws => hshown ?_, hclear⟩
      rw [← shownFor_append_of_not hflight, hall.shownFor_of_lastToList hlast hws, hclear]
    . rintro ⟨t, cycle, hlast, _, hclear⟩
      exact ⟨t, cycle, hlast, hclear⟩
  . intro later last u cycle hlast hc hws hlater
    cases hlast with
    | turn hbefore ht =>
      have hunrecorded := (hbefore.spares hlater).2 hdropped
      have hold : ∀ uri, shownFor workspace (later ++ (op ++ ts)) uri = shownFor workspace ts uri := by
        intro uri
        rw [shownFor_append_of_not hlater, shownFor_append_of_not hflight]
      have hiff := ht.clears_iff (later ++ (op ++ ts)) hc hws hunrecorded
      simp only [hold] at hiff
      exact hiff

end

def removalDelivery (uri : String) (diagnostics : List Diagnostic) : Delivery :=
  ⟨⟨uri, .ofString uri, none⟩, .compile, false, some (diagnostics, none), none⟩

/-- Two workspaces have runs with the same fault, which is no longer there in a third run. -/
def removalWorld : World :=
  { World.start ⟨[], []⟩ ⟨.ofString "/s", .standard⟩ ⟨"a.ink", "inklecate", none⟩ with
    registry := ⟨[("/v", .fresh (.ofString "/v"))]⟩
    deliveries :=
      [(1, removalDelivery "/w" [spellingFault]), (2, removalDelivery "/v" [spellingFault]),
        (3, removalDelivery "/w" [])] }

/-- The removal of the first workspace, which has no scratch folder, takes one turn. -/
theorem removal_carries (w : World) (h : w.registry = removalWorld.registry) :
    Carries (.foldersChanged [] ["/v"]) w (Job.foldersChanged [] ["/v"] w)
      [⟨w, .work (.foldersChanged [] ["/v"]), (Job.foldersChanged [] ["/v"] w).world⟩]
      (Job.foldersChanged [] ["/v"] w).world := by
  rcases w with ⟨disk, draws, settles, rules, registry, documents, published, initial, defaults,
    deliveries, trace⟩
  dsimp only at h
  subst h
  exact .done

/-- The first workspace is removed after the third run. -/
def removalCleared : World :=
  ((removalWorld.closeRun 1).closeRun 2).closeRun 3

def removalTurns : List Turn :=
  [⟨(removalWorld.closeRun 1).closeRun 2, .close 3, removalCleared⟩,
    ⟨removalWorld.closeRun 1, .close 2, (removalWorld.closeRun 1).closeRun 2⟩,
    ⟨removalWorld, .close 1, removalWorld.closeRun 1⟩]

theorem removal_clears_iff_cleared :
    shownFor "/v" removalTurns "file:///v/a.ink" = [.ofDiagnostic spellingFault]
      ∧ ∃ op v,
          Carries (.foldersChanged [] ["/v"]) removalCleared
            (Job.foldersChanged [] ["/v"] removalCleared) op v
          ∧ ∀ uri, shownFor "/v" removalTurns uri ≠ [] → lastList? uri v.trace = some [] := by
  have hchronicle : Chronicle removalWorld removalTurns removalCleared :=
    .turn (.turn (.turn .nil (.close 1)) (.close 2)) (.close 3)
  have hop := removal_carries removalCleared rfl
  have hflight : ∀ t ∈ [(⟨removalCleared, .work (.foldersChanged [] ["/v"]),
      (Job.foldersChanged [] ["/v"] removalCleared).world⟩ : Turn)], t.isCycleOf "/v" = false := by
    simp [Turn.isCycleOf, Turn.cycle?, World.cycle?]
  obtain ⟨hiff, _⟩ := removal_clears_iff hchronicle rfl (.head _) hop hflight
  refine ⟨by rfl, _, _, hop, hiff.mpr ?_⟩
  intro uri hshown
  have hkept : ∀ t ∈ removalTurns, "/v" ∉ t.what.removed := by
    simp [removalTurns, Occurrence.removed]
  have hrecorded := (hchronicle.mem_recorded_iff rfl hkept uri).mpr hshown
  have honly : removalCleared.recorded "/v" = ["file:///v/a.ink"] := by rfl
  rw [honly, List.mem_singleton] at hrecorded
  rw [hrecorded]
  refine ⟨_, ((removalDelivery "/w" []).workspace, []), .before ?_ (.here ⟨rfl, .inr (.inr ?_)⟩),
    by decide, by rfl⟩
  . rintro _ ⟨hc, _⟩
    cases hc
  . decide +kernel

/-- What is shown on behalf of a workspace with no run left stays when the workspace is removed. -/
theorem removal_leaves_list :
    ∃ w op v, Chronicle removalWorld [⟨removalWorld, .close 2, w⟩] w
      ∧ (w.registry.get? "/v").isSome = true
      ∧ (∀ d ∈ w.deliveries, d.2.workspace.uri ≠ "/v")
      ∧ Carries (.foldersChanged [] ["/v"]) w (Job.foldersChanged [] ["/v"] w) op v
      ∧ shownFor "/v" [⟨removalWorld, .close 2, w⟩] "file:///v/a.ink" ≠ []
      ∧ lastList? "file:///v/a.ink" v.trace = some [.ofDiagnostic spellingFault] := by
  refine ⟨removalWorld.closeRun 2, _, _, .turn .nil (.close 2), rfl, ?_, removal_carries _ rfl, ?_, ?_⟩
  . have hleft : (removalWorld.closeRun 2).deliveries
        = [(1, removalDelivery "/w" [spellingFault]), (3, removalDelivery "/w" [])] := by rfl
    rw [hleft]
    decide
  . have hshown : shownFor "/v" [⟨removalWorld, .close 2, removalWorld.closeRun 2⟩] "file:///v/a.ink"
        = [.ofDiagnostic spellingFault] := by rfl
    rw [hshown]
    simp
  . rfl

end InkServer
