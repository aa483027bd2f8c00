import InkServer.Proofs.Path.Legible
import InkServer.Proofs.Publication.Grouping

/-!
This module contains cycles of workspaces that have nothing to do with each other. Whatever a cycle
publishes stands for files inside the root of its workspace, so that cycles of unrelated workspaces
leave the lists of each other alone and can come in either order.
-/

namespace InkServer

/-- Two roots of which neither is or contains the other. -/
structure Path.Unrelated (a b : Path) : Prop where
  left : a.IsLegible
  right : b.IsLegible
  ne : a ≠ b
  not_inside : a.isInside b = false
  not_around : b.isInside a = false

theorem Path.Unrelated.symm {a b : Path} (h : Unrelated a b) : Unrelated b a :=
  ⟨h.right, h.left, h.ne.symm, h.not_around, h.not_inside⟩

/-- The URI stands for a file inside the root. -/
def Uri.IsWithin (uri : String) (root : Path) : Prop :=
  ∃ p, Denotes uri p ∧ p.isInside root = true

theorem Path.Unrelated.not_within {a b : Path} {uri : String} (h : Unrelated a b)
    (hna : a.normalize = a) (hnb : b.normalize = b) (ha : Uri.IsWithin uri a) :
    ¬ Uri.IsWithin uri b := by
  intro hb
  obtain ⟨p, hp, hpa⟩ := ha
  obtain ⟨q, hq, hqb⟩ := hb
  rw [← hp.unique hq] at hqb
  rcases h.left.related hna h.right hnb hpa hqb with heq | hinside | haround
  . exact h.ne heq
  . rw [h.not_inside] at hinside
    cases hinside
  . rw [h.not_around] at haround
    cases haround

/-- The faults lie inside the root of the workspace. -/
def ReportsInside (ws : Workspace) (diagnostics : List Diagnostic) : Prop :=
  ∀ d ∈ diagnostics, d.path.normalize.isInside ws.root = true

/-- All runs of the workspace that were completed reported faults inside its root. -/
def ReportedInside (ws : Workspace) (ts : List Turn) : Prop :=
  ∀ t ∈ ts, ∀ cycle, t.cycle? = some cycle → cycle.1.uri = ws.uri → ReportsInside ws cycle.2

namespace World

variable {w v u : World} {o : Occurrence} {ws : Workspace} {uri : String}
  {diagnostics : List Diagnostic} {list : List EditorDiagnostic}

theorem isWithin_of_shownBy {cycle : Workspace × List Diagnostic} (hw : Spelled w.documents)
    (hin : ReportsInside ws cycle.2) (h : w.shownBy cycle uri ≠ []) : Uri.IsWithin uri ws.root := by
  obtain ⟨d, hd, huri⟩ := (shownBy_ne_nil_iff_exists cycle.2).mp h
  exact ⟨_, denotes_of_uriFor? hw (Path.normalize_normalize _) huri, hin d hd⟩

/-- Everything that a cycle publishes stands for files inside the root, if this is so for what is
recorded. -/
theorem isWithin_of_mem_renew (hw : Spelled w.documents) (hin : ReportsInside ws diagnostics)
    (hrecorded : ∀ uri ∈ w.recorded ws.uri, Uri.IsWithin uri ws.root)
    (h : (uri, list) ∈ (w.renew ws diagnostics).2) : Uri.IsWithin uri ws.root := by
  rcases (w.exists_mem_renew_iff ws diagnostics uri).mp ⟨list, h⟩ with
    ⟨p, hmem, hp⟩ | ⟨d, hd, huri⟩ | hmem
  . exact ⟨p, hw.denotes hmem, hp⟩
  . exact ⟨_, denotes_of_uriFor? hw (Path.normalize_normalize _) huri, hin d hd⟩
  . exact hrecorded uri hmem

/-- A turn leaves only records of files inside the root. -/
theorem Takes.recorded_within (h : v.Takes o u) (hv : Spelled v.documents)
    (hin : ∀ cycle, v.cycle? o = some cycle → cycle.1.uri = ws.uri → ReportsInside ws cycle.2)
    (hrecorded : ∀ uri ∈ v.recorded ws.uri, Uri.IsWithin uri ws.root) :
    ∀ uri ∈ u.recorded ws.uri, Uri.IsWithin uri ws.root := by
  intro uri hmem
  cases hc : v.cycle? o with
  | none =>
    rcases (h.unpublished hc).published ws.uri with heq | ⟨_, hnone⟩
    . rw [recorded, heq] at hmem
      exact hrecorded uri hmem
    . rw [recorded, hnone] at hmem
      cases hmem
  | some cycle =>
    obtain ⟨_, hown, hothers, _⟩ := h.of_cycle hc
    by_cases hws : cycle.1.uri = ws.uri
    . rw [← hws, hown] at hmem
      exact isWithin_of_shownBy hv (hin cycle hc hws) hmem
    . rw [recorded, hothers _ (Ne.symm hws)] at hmem
      exact hrecorded uri hmem

/-- A turn shows only files inside the root on behalf of a workspace. -/
theorem Takes.list?_within (h : v.Takes o u) (hv : Spelled v.documents)
    {cycle : Workspace × List Diagnostic} (hc : v.cycle? o = some cycle)
    (hin : ReportsInside ws cycle.2) (hlist : Turn.list? ⟨v, o, u⟩ uri = some list)
    (hne : list ≠ []) : Uri.IsWithin uri ws.root := by
  obtain ⟨⟨es, htrace, hes⟩, _⟩ := h.of_cycle hc
  rw [Turn.list?_of_trace htrace, hes uri] at hlist
  split at hlist
  . rw [Option.some.injEq] at hlist
    rw [← hlist] at hne
    exact isWithin_of_shownBy hv hin hne
  . split at hlist
    . rw [Option.some.injEq] at hlist
      exact absurd hlist.symm hne
    . cases hlist

end World

section

variable {w₀ w : World} {ts : List Turn} {ws : Workspace} {uri : String}

theorem Chronicle.recorded_within (h : Chronicle w₀ ts w) (h₀ : w₀.Faithful)
    (hnone : w₀.published = []) (hin : ReportedInside ws ts) :
    ∀ uri ∈ w.recorded ws.uri, Uri.IsWithin uri ws.root := by
  induction h with
  | nil =>
    intro uri hmem
    simp [World.recorded, hnone] at hmem
  | turn h ht ih =>
    exact ht.recorded_within (h.faithful h₀).documents (hin _ (.head _))
      (ih fun t hmem => hin t (.tail _ hmem))

theorem Chronicle.shownFor_within (h : Chronicle w₀ ts w) (h₀ : w₀.Faithful)
    (hin : ReportedInside ws ts) (hshown : shownFor ws.uri ts uri ≠ []) :
    Uri.IsWithin uri ws.root := by
  induction h with
  | nil => exact absurd rfl hshown
  | @turn ts v u o h ht ih =>
    have hbefore := ih fun t hmem => hin t (.tail _ hmem)
    cases hc : Turn.isCycleOf ws.uri ⟨v, o, u⟩ with
    | false =>
      rw [shownFor_cons_of_not hc] at hshown
      exact hbefore hshown
    | true =>
      obtain ⟨cycle, hcycle, hws⟩ := Turn.isCycleOf_iff.mp hc
      rw [shownFor, if_pos hc] at hshown
      cases hlist : Turn.list? ⟨v, o, u⟩ uri with
      | none =>
        rw [hlist] at hshown
        exact hbefore hshown
      | some list =>
        rw [hlist] at hshown
        exact ht.list?_within (h.faithful h₀).documents hcycle (hin _ (.head _) cycle hcycle hws)
          hlist hshown

/-- What is published for a workspace stands for files inside its root. -/
theorem Chronicle.renew_within {diagnostics : List Diagnostic} {list : List EditorDiagnostic}
    (h : Chronicle w₀ ts w) (h₀ : w₀.Faithful) (hnone : w₀.published = [])
    (hin : ReportedInside ws ts) (hreports : ReportsInside ws diagnostics)
    (hlist : (w.renew ws diagnostics).2.lookup uri = some list) : Uri.IsWithin uri ws.root :=
  World.isWithin_of_mem_renew (h.faithful h₀).documents hreports (h.recorded_within h₀ hnone hin)
    (mem_of_lookup hlist)

theorem Chronicle.lookup_renew_of_within {diagnostics : List Diagnostic} {root : Path}
    (h : Chronicle w₀ ts w) (h₀ : w₀.Faithful) (hnone : w₀.published = [])
    (hin : ReportedInside ws ts) (hreports : ReportsInside ws diagnostics)
    (hroots : ws.root.Unrelated root) (hws : ws.root.normalize = ws.root)
    (hroot : root.normalize = root) (hwithin : Uri.IsWithin uri root) :
    (w.renew ws diagnostics).2.lookup uri = none := by
  rw [Option.eq_none_iff_forall_ne_some]
  intro list hlist
  exact hroots.not_within hws hroot (h.renew_within h₀ hnone hin hreports hlist) hwithin

end

namespace World

variable {w : World} {a b : Workspace} {da db : List Diagnostic}

theorem trace_publish (w : World) (ws : Workspace) (diagnostics : List Diagnostic) :
    (w.publish ws diagnostics).trace = w.trace ++ (w.renew ws diagnostics).2.messages := rfl

/-- A cycle has the same lists after a cycle of another workspace. -/
theorem renew_publish (h : b.uri ≠ a.uri) (da db : List Diagnostic) :
    ((w.publish a da).renew b db).2 = (w.renew b db).2 := by
  have hlookup := w.lookup_publish a da b.uri
  rw [if_neg h] at hlookup
  dsimp only [renew]
  rw [hlookup]
  rfl

theorem lookup_publish_publish (h : b.uri ≠ a.uri) (v : String) :
    ((w.publish a da).publish b db).published.lookup v
      =
    ((w.publish b db).publish a da).published.lookup v := by
  simp only [lookup_publish]
  by_cases hva : v = a.uri
  . have hvb : v ≠ b.uri := fun heq => h (heq.symm.trans hva)
    rw [if_neg hvb, if_pos hva, if_pos hva]
    rfl
  . rw [if_neg hva, if_neg hva]
    rfl

end World

/-- Lists with different URIs can be published in either order. -/
theorem lastList?_messages_comm {A B : Lists} (hA : A.Sorted) (hB : B.Sorted) {uri : String}
    (h : A.lookup uri = none ∨ B.lookup uri = none) (es : List Effect) :
    lastList? uri (es ++ A.messages ++ B.messages)
      =
    lastList? uri (es ++ B.messages ++ A.messages) := by
  have hlastA : lastList? uri A.messages = A.lookup uri := lastList?_publish hA
  have hlastB : lastList? uri B.messages = B.lookup uri := lastList?_publish hB
  simp only [lastList?_append, hlastA, hlastB]
  rcases h with h | h
  . rw [h, Option.none_or, Option.none_or]
  . rw [h, Option.none_or, Option.none_or]

/-- The cycles of two unrelated workspaces can come in either order: the editor is left with the same
lists and the same is recorded. Each cycle publishes the same lists before and after the other, and
has none for a URI that the other publishes or that was shown on behalf of the other workspace. -/
theorem Chronicle.cycles_commute {w₀ w : World} {ts : List Turn} {a b : Workspace}
    {da db : List Diagnostic} (h : Chronicle w₀ ts w) (h₀ : w₀.Faithful) (hnone : w₀.published = [])
    (ha : w.registry.workspace? a.uri = some a) (hb : w.registry.workspace? b.uri = some b)
    (hroots : a.root.Unrelated b.root) (hta : ReportedInside a ts) (htb : ReportedInside b ts)
    (hda : ReportsInside a da) (hdb : ReportsInside b db) :
    ∃ A B : Lists,
      ((w.publish a da).publish b db).trace = w.trace ++ A.messages ++ B.messages
      ∧ ((w.publish b db).publish a da).trace = w.trace ++ B.messages ++ A.messages
      ∧ (∀ uri, lastList? uri ((w.publish a da).publish b db).trace
          = lastList? uri ((w.publish b db).publish a da).trace)
      ∧ (∀ v, ((w.publish a da).publish b db).published.lookup v
          = ((w.publish b db).publish a da).published.lookup v)
      ∧ (∀ uri, A.lookup uri = none ∨ B.lookup uri = none)
      ∧ (∀ uri, shownFor b.uri ts uri ≠ [] → A.lookup uri = none)
      ∧ ∀ uri, shownFor a.uri ts uri ≠ [] → B.lookup uri = none := by
  have hw := h.faithful h₀
  have hna := hw.registry.denotes ha
  have hnb := hw.registry.denotes hb
  have hne : b.uri ≠ a.uri := by
    intro heq
    rw [heq] at hnb
    exact hroots.ne (hna.unique hnb)
  have hnotA : ∀ {uri}, Uri.IsWithin uri b.root → (w.renew a da).2.lookup uri = none :=
    h.lookup_renew_of_within h₀ hnone hta hda hroots hna.normal hnb.normal
  have hnotB : ∀ {uri}, Uri.IsWithin uri a.root → (w.renew b db).2.lookup uri = none :=
    h.lookup_renew_of_within h₀ hnone htb hdb hroots.symm hnb.normal hna.normal
  have hdisjoint : ∀ uri, (w.renew a da).2.lookup uri = none ∨ (w.renew b db).2.lookup uri = none := by
    intro uri
    cases hlist : (w.renew a da).2.lookup uri with
    | none => exact .inl rfl
    | some list => exact .inr (hnotB (h.renew_within h₀ hnone hta hda hlist))
  have hfirst : ((w.publish a da).publish b db).trace
      = w.trace ++ (w.renew a da).2.messages ++ (w.renew b db).2.messages := by
    rw [World.trace_publish, World.renew_publish hne, World.trace_publish]
  have hsecond : ((w.publish b db).publish a da).trace
      = w.trace ++ (w.renew b db).2.messages ++ (w.renew a da).2.messages := by
    rw [World.trace_publish, World.renew_publish hne.symm, World.trace_publish]
  refine ⟨_, _, hfirst, hsecond, ?_, World.lookup_publish_publish hne, hdisjoint, ?_, ?_⟩
  . intro uri
    rw [hfirst, hsecond]
    exact lastList?_messages_comm (w.sorted_renew a da) (w.sorted_renew b db) (hdisjoint uri) _
  . intro uri hshown
    exact hnotA (h.shownFor_within h₀ htb hshown)
  . intro uri hshown
    exact hnotB (h.shownFor_within h₀ hta hshown)

/-- Two workspaces side by side. The results of a run of the first are about to be shown. -/
def neighbourWorld : World :=
  { World.start ⟨[], []⟩ ⟨.ofString "/s", .standard⟩ ⟨"a.ink", "inklecate", none⟩ with
    registry := ⟨[("/v", .fresh (.ofString "/v")), ("/w", .fresh (.ofString "/w"))]⟩
    deliveries := [(1, spellingDelivery)] }

def neighbour (uri : String) : Workspace := ⟨uri, .ofString uri, none⟩

def neighbourFault : Diagnostic := ⟨.error, .ofString "/w/a.ink", 1, "fault"⟩

def neighbourTurn : Turn := ⟨neighbourWorld, .close 1, neighbourWorld.closeRun 1⟩

theorem neighbour_faithful : neighbourWorld.Faithful where
  documents := ⟨.nil, fun h => by cases h⟩
  registry := by
    intro uri e he
    have hmem : (uri, e) ∈ [("/v", Entry.fresh (.ofString "/v")), ("/w", .fresh (.ofString "/w"))] :=
      mem_of_lookup he
    simp only [List.mem_cons, List.not_mem_nil, or_false, Prod.mk.injEq] at hmem
    rcases hmem with ⟨rfl, rfl⟩ | ⟨rfl, rfl⟩
    . exact ⟨.ofString "/v", by rfl, by decide⟩
    . exact ⟨.ofString "/w", by rfl, by decide⟩

theorem neighbour_unrelated : (Path.ofString "/v").Unrelated (.ofString "/w") where
  left := ⟨by decide, "/v".toList, rfl, by decide⟩
  right := ⟨by decide, "/w".toList, rfl, by decide⟩
  ne := by decide
  not_inside := by decide +kernel
  not_around := by decide +kernel

/-- The fault of the first workspace is gone and the second one has a new fault. The cycles can come in
either order, and that of the second leaves alone what is shown for the first. -/
theorem neighbour_cycles_commute :
    Chronicle neighbourWorld [neighbourTurn] (neighbourWorld.closeRun 1)
      ∧ shownFor "/v" [neighbourTurn] "file:///v/a.ink" = [.ofDiagnostic spellingFault]
      ∧ ∃ A B : Lists,
        (((neighbourWorld.closeRun 1).publish (neighbour "/v") []).publish (neighbour "/w")
            [neighbourFault]).trace
          = (neighbourWorld.closeRun 1).trace ++ A.messages ++ B.messages
        ∧ (((neighbourWorld.closeRun 1).publish (neighbour "/w") [neighbourFault]).publish
            (neighbour "/v") []).trace
          = (neighbourWorld.closeRun 1).trace ++ B.messages ++ A.messages
        ∧ B.lookup "file:///v/a.ink" = none := by
  have hchronicle : Chronicle neighbourWorld [neighbourTurn] (neighbourWorld.closeRun 1) :=
    .turn .nil (.close 1)
  have hshown : shownFor "/v" [neighbourTurn] "file:///v/a.ink" = [.ofDiagnostic spellingFault] := by
    rfl
  have hcycle : neighbourTurn.cycle? = some (neighbour "/v", [spellingFault]) := by rfl
  have hregistry := (neighbourWorld.closeRun_keeps 1).2
  have hinside : (Path.ofString "/v/a.ink").normalize.isInside (.ofString "/v") = true := by
    decide +kernel
  have hother : (Path.ofString "/w/a.ink").normalize.isInside (.ofString "/w") = true := by
    decide +kernel
  have hfirst : ReportedInside (neighbour "/v") [neighbourTurn] := by
    intro t ht cycle hc _ d hd
    rw [List.mem_singleton.mp ht, hcycle, Option.some.injEq] at hc
    rw [← hc, List.mem_singleton] at hd
    rw [hd]
    exact hinside
  have hsecond : ReportedInside (neighbour "/w") [neighbourTurn] := by
    intro t ht cycle hc huri
    rw [List.mem_singleton.mp ht, hcycle, Option.some.injEq] at hc
    rw [← hc] at huri
    exact absurd huri (by decide)
  have hnow : ReportsInside (neighbour "/v") [] := by
    intro d hd
    cases hd
  have hnew : ReportsInside (neighbour "/w") [neighbourFault] := by
    intro d hd
    rw [List.mem_singleton.mp hd]
    exact hother
  obtain ⟨A, B, hAB, hBA, _, _, _, _, hkept⟩ :=
    hchronicle.cycles_commute neighbour_faithful rfl (by rewrite [hregistry]; rfl)
      (by rewrite [hregistry]; rfl) neighbour_unrelated hfirst hsecond hnow hnew
  refine ⟨hchronicle, hshown, A, B, hAB, hBA, hkept _ ?_⟩
  exact fun hnil => List.cons_ne_nil _ _ (hshown.symm.trans hnil)

end InkServer
