import InkServer.Proofs.Job.Stretch

/-!
This module contains the histories of the service: jobs go on a stretch at a time in any order, and
the results of runs come in between. What is shown on behalf of a workspace is what its last
completed run put there, as long as the workspace is not removed.
-/

namespace InkServer

/-- What a job is done for. -/
inductive Errand where
  | opened (uri text : String)
  | changed (uri text : String)
  | closed (uri : String)
  | filesChanged (changes : List FileChange)
  | foldersChanged (added removed : List String)
  | addFolders (uris : List String)
  | copyAll
  | command (name : String) (args : List Json)
  | stop

namespace Errand

def job : Errand → Job Unit
  | opened uri text => do
    let _ ← Job.documentOpened uri text
  | changed uri text => do
    let _ ← Job.documentChanged uri text
  | closed uri => Job.documentClosed uri
  | filesChanged changes => Job.filesChanged changes
  | foldersChanged added removed => Job.foldersChanged added removed
  | addFolders uris => Job.addFolders uris
  | copyAll => Job.copyAllWorkspaces
  | command name args => do
    let _ ← Job.executeCommand name args
  | stop => Job.stop

/-- The workspaces that are to be forgotten. -/
def removed : Errand → List String
  | foldersChanged _ removed => removed
  | _ => []

theorem made_job (e : Errand) : e.job.Made e.removed := by
  cases e with
  | opened uri text => exact .bind (Job.made_documentOpened _ _) fun _ => .pure _
  | changed uri text => exact .bind (Job.made_documentChanged _ _) fun _ => .pure _
  | closed uri => exact Job.made_documentClosed uri
  | filesChanged changes => exact Job.made_filesChanged changes
  | foldersChanged added removed => exact Job.made_foldersChanged added removed
  | addFolders uris => exact Job.made_addFolders uris
  | copyAll => exact Job.made_copyAllWorkspaces
  | command name args => exact .bind (Job.made_executeCommand _ _) fun _ => .pure _
  | stop => exact Job.made_stop

/-- The job begins in the state `w`, or goes on in it after a stop, and comes to the given step. -/
inductive Goes (e : Errand) : World → Step Unit → Prop where
  | begin (w : World) : Goes e w (e.job w)
  | resume {v w : World} {q : Query} {k : q.Answer → World → Step Unit}
    (h : Goes e v (.ask w q k)) (answer : q.Answer) (u : World) : Goes e u (k answer u)

theorem Goes.spans {e : Errand} {w : World} {t : Step Unit} (h : e.Goes w t) :
    t.Spans (Unpublished e.removed) w := by
  induction h with
  | begin w => exact e.made_job.discreet w
  | resume _ answer u ih => exact ih.2 answer u

end Errand

/-- Something that happens in the service. -/
inductive Occurrence where
  | work (e : Errand)
  | receive (generation : Nat) (event : RunEvent)
  /-- Everything of a run has come in. -/
  | close (generation : Nat)
  /-- Files change, the session settles its terms, replies are sent. -/
  | outside

def Occurrence.removed : Occurrence → List String
  | work e => e.removed
  | _ => []

namespace World

/-- How the state can go on to another. -/
inductive Takes (w : World) : Occurrence → World → Prop where
  | work {e : Errand} {t : Step Unit} (h : e.Goes w t) : Takes w (.work e) t.world
  | receive (generation : Nat) (event : RunEvent) :
    Takes w (.receive generation event) (w.receive generation event)
  | close (generation : Nat) : Takes w (.close generation) (w.closeRun generation)
  | outside (disk : Disk) (initial : Option SettingsTier) {es : List Effect}
    (hes : ∀ e ∈ es, e.isPublish = false) :
    Takes w .outside ({ w with disk, initial }.emitAll es)

/-- The workspace and the diagnostics of the run that an occurrence completes. -/
def cycle? (w : World) : Occurrence → Option (Workspace × List Diagnostic)
  | .close generation =>
    (w.deliveries.lookup generation).bind fun d => d.finished.map fun f => (d.workspace, f.1)
  | _ => none

/-- What the completion of a run shows under a URI. -/
def shownBy (w : World) (cycle : Workspace × List Diagnostic) (uri : String) :
    List EditorDiagnostic :=
  diagnosticsUnder (documentsInside w.documents cycle.1.root) cycle.2 uri

/-- What is recorded as shown on behalf of a workspace. -/
def recorded (w : World) (workspace : String) : List String :=
  (w.published.lookup workspace).getD []

variable {w u : World} {o : Occurrence} {cycle : Workspace × List Diagnostic}

theorem unpublished_receive {gone : List String} (w : World) (generation : Nat) (event : RunEvent) :
    Unpublished gone w (w.receive generation event) := by
  unfold receive
  split
  . exact .refl w
  . next d hd =>
    have heffects : ∀ e ∈ (d.receive event).1, e.isPublish = false := by
      unfold Delivery.receive
      split
      . simp [Effect.isPublish]
      . split
        . simp
        . simp [Effect.isPublish]
      . simp
      . simp
    generalize d.receive event = received at heffects
    exact .emitAll (.of_eq rfl rfl (.refl _)) heffects

theorem Takes.unpublished (h : w.Takes o u) (hc : w.cycle? o = none) :
    Unpublished o.removed w u := by
  cases h with
  | work h => exact h.spans.world
  | receive generation event => exact w.unpublished_receive generation event
  | close generation =>
    have hquiet : Unpublished (Occurrence.close generation).removed w (w.endRun generation).1
        ∧ (w.endRun generation).2 = [] := by
      unfold endRun
      split
      . exact ⟨.refl w, rfl⟩
      . next d hd =>
        -- The run did not come to results, so there is nothing to show.
        simp only [cycle?, hd, Option.bind_some, Option.map_eq_none_iff] at hc
        unfold conclude
        rw [hc]
        exact ⟨.of_eq rfl rfl (.refl _), rfl⟩
    have hnone : ∀ e ∈ (w.endRun generation).2, e.isPublish = false := by
      simp [hquiet.2]
    exact .emitAll hquiet.1 hnone
  | outside disk initial hes => exact .emitAll (.of_eq rfl rfl (.refl _)) hes

theorem sorted_renew (w : World) (ws : Workspace) (diagnostics : List Diagnostic) :
    (w.renew ws diagnostics).2.Sorted :=
  sorted_listsOf.touchAll _

/-- Open documents, files with diagnostics and files that had some are listed. -/
theorem lookup_renew (w : World) (ws : Workspace) (diagnostics : List Diagnostic) (uri : String) :
    (w.renew ws diagnostics).2.lookup uri
      =
    if uri ∈ (documentsInside w.documents ws.root).map Prod.snd
        ∨ w.shownBy (ws, diagnostics) uri ≠ [] then
      some (w.shownBy (ws, diagnostics) uri)
    else if uri ∈ w.recorded ws.uri then some []
    else none := by
  dsimp only [renew, publication]
  rw [sorted_listsOf.lookup_touchAll, lookup_listsOf]
  unfold shownBy recorded
  split
  . split
    . rfl
    . rfl
  . split
    . rfl
    . rfl

theorem publish_trace (w : World) (ws : Workspace) (diagnostics : List Diagnostic) :
    ∃ es, (w.publish ws diagnostics).trace = w.trace ++ es
      ∧ ∀ uri, lastList? uri es
          =
        if uri ∈ (documentsInside w.documents ws.root).map Prod.snd
            ∨ w.shownBy (ws, diagnostics) uri ≠ [] then
          some (w.shownBy (ws, diagnostics) uri)
        else if uri ∈ w.recorded ws.uri then some []
        else none := by
  refine ⟨_, rfl, ?_⟩
  intro uri
  exact (lastList?_publish (w.sorted_renew ws diagnostics)).trans (w.lookup_renew ws diagnostics uri)

theorem lookup_publish (w : World) (ws : Workspace) (diagnostics : List Diagnostic) (v : String) :
    (w.publish ws diagnostics).published.lookup v
      =
    if v = ws.uri then
      some (listsOf (documentsInside w.documents ws.root) diagnostics).nonEmpty
    else
      w.published.lookup v :=
  lookup_setKey _ _ _ _

theorem closeRun_of_finished {generation : Nat} {d : Delivery} {diagnostics : List Diagnostic}
    {artifact : Option Path} (hd : w.deliveries.lookup generation = some d)
    (hf : d.finished = some (diagnostics, artifact)) :
    w.closeRun generation
      =
    ({ w with deliveries := eraseKey generation w.deliveries }.publish d.workspace
      diagnostics).emitAll (d.announcement?.toList.map .notify) := by
  simp only [closeRun, endRun, hd, conclude, hf, publish, emitAll, List.append_assoc]

theorem Takes.of_cycle (h : w.Takes o u) (hc : w.cycle? o = some cycle) :
    (∃ es, u.trace = w.trace ++ es
        ∧ ∀ uri, lastList? uri es
            =
          if uri ∈ (documentsInside w.documents cycle.1.root).map Prod.snd
              ∨ w.shownBy cycle uri ≠ [] then
            some (w.shownBy cycle uri)
          else if uri ∈ w.recorded cycle.1.uri then some []
          else none)
      ∧ (∀ uri, uri ∈ u.recorded cycle.1.uri ↔ w.shownBy cycle uri ≠ [])
      ∧ (∀ v, v ≠ cycle.1.uri → u.published.lookup v = w.published.lookup v)
      ∧ u.registry = w.registry := by
  cases h with
  | close generation =>
    simp only [cycle?, Option.bind_eq_some_iff, Option.map_eq_some_iff] at hc
    obtain ⟨d, hd, ⟨diagnostics, artifact⟩, hfinished, hcycle⟩ := hc
    subst hcycle
    rw [closeRun_of_finished hd hfinished]
    refine ⟨?_, ?_, ?_, rfl⟩
    . obtain ⟨es, htrace, hes⟩ := publish_trace
        { w with deliveries := eraseKey generation w.deliveries } d.workspace diagnostics
      refine ⟨es ++ d.announcement?.toList.map .notify, ?_, fun uri => ?_⟩
      . rw [emitAll, htrace, List.append_assoc]
      . -- The announcement comes last, and it is no publication.
        rw [lastList?_append, lastList?_eq_none, Option.none_or]
        . exact hes uri
        . intro e he
          obtain ⟨notice, _, heq⟩ := List.mem_map.mp he
          rw [← heq]
          rfl
    . intro uri
      rw [recorded, emitAll, lookup_publish, if_pos rfl, Option.getD_some]
      exact mem_nonEmpty_listsOf
    . intro v hv
      rw [emitAll, lookup_publish, if_neg hv]
  | work => cases hc
  | receive => cases hc
  | outside => cases hc

end World

/-- One turn in a history of the service. -/
structure Turn where
  before : World
  what : Occurrence
  after : World

namespace Turn

/-- The workspace and the diagnostics of the run that is completed. -/
def cycle? (t : Turn) : Option (Workspace × List Diagnostic) :=
  t.before.cycle? t.what

/-- A run of the workspace is completed. -/
def isCycleOf (workspace : String) (t : Turn) : Bool :=
  t.cycle?.any fun cycle => cycle.1.uri = workspace

def list? (t : Turn) (uri : String) : Option (List EditorDiagnostic) :=
  lastList? uri (t.after.trace.drop t.before.trace.length)

end Turn

/-- What happened from one state to another, the latest first. -/
inductive Chronicle (w : World) : List Turn → World → Prop where
  | nil : Chronicle w [] w
  | turn {ts : List Turn} {v u : World} {o : Occurrence} (h : Chronicle w ts v) (ht : v.Takes o u) :
    Chronicle w (⟨v, o, u⟩ :: ts) u

/-- The list that was published last for a URI on behalf of a workspace. -/
def shownFor (workspace : String) : List Turn → String → List EditorDiagnostic
  | [], _ => []
  | t :: ts, uri =>
    if t.isCycleOf workspace then (t.list? uri).getD (shownFor workspace ts uri)
    else shownFor workspace ts uri

section

variable {workspace uri : String} {w₀ w v u : World} {o : Occurrence} {ts later before : List Turn}
  {t : Turn} {cycle : Workspace × List Diagnostic}

theorem Turn.isCycleOf_iff :
    t.isCycleOf workspace = true
      ↔
    ∃ cycle, t.before.cycle? t.what = some cycle ∧ cycle.1.uri = workspace := by
  unfold isCycleOf cycle?
  cases t.before.cycle? t.what with
  | none => simp
  | some cycle => simp

theorem shownFor_cons_of_not (h : t.isCycleOf workspace = false) :
    shownFor workspace (t :: ts) uri = shownFor workspace ts uri := by
  simp [shownFor, h]

theorem shownFor_append_of_not (h : ∀ t ∈ later, t.isCycleOf workspace = false) :
    shownFor workspace (later ++ ts) uri = shownFor workspace ts uri := by
  induction later with
  | nil => rfl
  | cons t later ih =>
    rw [List.cons_append, shownFor_cons_of_not (h t (.head _)), ih fun t ht => h t (.tail _ ht)]

theorem Turn.ne_of_cycle? (h : t.isCycleOf workspace = false)
    (hc : t.before.cycle? t.what = some cycle) : workspace ≠ cycle.1.uri := by
  intro heq
  rw [isCycleOf_iff.mpr ⟨cycle, hc, heq.symm⟩] at h
  cases h

theorem Turn.list?_of_trace {es : List Effect} (h : t.after.trace = t.before.trace ++ es) :
    t.list? uri = lastList? uri es := by
  rw [list?, h, List.drop_left]

/-- Nothing happens to the record of a workspace but when a run of it is completed or it is
removed. -/
theorem World.Takes.recorded_eq (h : v.Takes o u)
    (hc : Turn.isCycleOf workspace ⟨v, o, u⟩ = false) (hkept : workspace ∉ o.removed) :
    u.recorded workspace = v.recorded workspace := by
  unfold World.recorded
  cases hcycle : v.cycle? o with
  | none =>
    cases (h.unpublished hcycle).published workspace with
    | inl heq => rw [heq]
    | inr hgone => exact absurd hgone.1 hkept
  | some cycle =>
    rw [(h.of_cycle hcycle).2.2.1 workspace (Turn.ne_of_cycle? hc hcycle)]

/-- The completion of a run takes the place of what was shown before, if that was recorded. -/
theorem World.Takes.shownFor_eq (h : v.Takes o u) (hc : v.cycle? o = some cycle)
    (hws : cycle.1.uri = workspace)
    (hrecorded : ∀ uri, uri ∈ v.recorded workspace ↔ shownFor workspace ts uri ≠ []) :
    shownFor workspace (⟨v, o, u⟩ :: ts) uri = v.shownBy cycle uri := by
  obtain ⟨es, htrace, hes⟩ := (h.of_cycle hc).1
  have hcycle : Turn.isCycleOf workspace ⟨v, o, u⟩ = true :=
    Turn.isCycleOf_iff.mpr ⟨cycle, hc, hws⟩
  rw [shownFor, if_pos hcycle, Turn.list?_of_trace htrace, hes uri, hws]
  by_cases hlisted : uri ∈ (documentsInside v.documents cycle.1.root).map Prod.snd
      ∨ v.shownBy cycle uri ≠ []
  . rw [if_pos hlisted]
    rfl
  . have hnone := Classical.not_not.mp fun hne => hlisted (.inr hne)
    rw [if_neg hlisted, hnone]
    split
    . rfl
    . next hnot =>
      -- What was not recorded was not shown either.
      exact Classical.not_not.mp fun hne => hnot ((hrecorded uri).mpr hne)

theorem Chronicle.mem_recorded_iff (h : Chronicle w₀ ts w) (h₀ : w₀.published = [])
    (hkept : ∀ t ∈ ts, workspace ∉ t.what.removed) :
    ∀ uri, uri ∈ w.recorded workspace ↔ shownFor workspace ts uri ≠ [] := by
  induction h with
  | nil =>
    intro uri
    simp [World.recorded, h₀, shownFor]
  | @turn ts v u o h ht ih =>
    have hrecorded := ih fun t hmem => hkept t (.tail _ hmem)
    have hkeeps : workspace ∉ o.removed := hkept _ (.head _)
    intro uri
    cases hc : Turn.isCycleOf workspace ⟨v, o, u⟩ with
    | false =>
      rw [ht.recorded_eq hc hkeeps, shownFor_cons_of_not hc]
      exact hrecorded uri
    | true =>
      obtain ⟨cycle, hcycle, hws⟩ := Turn.isCycleOf_iff.mp hc
      rw [ht.shownFor_eq hcycle hws hrecorded, ← hws]
      exact (ht.of_cycle hcycle).2.1 uri

theorem Chronicle.of_append (h : Chronicle w₀ (later ++ ts) w) :
    ∃ v, Chronicle w₀ ts v ∧ Chronicle v later w := by
  induction later generalizing w with
  | nil => exact ⟨w, h, .nil⟩
  | cons t later ih =>
    cases h with
    | turn h ht =>
      obtain ⟨v, hfirst, hlast⟩ := ih h
      exact ⟨v, hfirst, .turn hlast ht⟩

/-- What is shown on behalf of a workspace that is not removed is what its last completed run put
there, and this is what is recorded. -/
theorem Chronicle.shown_by_last_cycle (h : Chronicle w₀ (later ++ t :: before) w)
    (h₀ : w₀.published = []) (hkept : ∀ t' ∈ later ++ t :: before, workspace ∉ t'.what.removed)
    (hc : t.cycle? = some cycle) (hws : cycle.1.uri = workspace)
    (hlater : ∀ t' ∈ later, t'.isCycleOf workspace = false) :
    (∀ uri, shownFor workspace (later ++ t :: before) uri = t.before.shownBy cycle uri)
      ∧ ∀ uri, uri ∈ w.recorded workspace ↔ t.before.shownBy cycle uri ≠ [] := by
  obtain ⟨v, hfirst, _⟩ := h.of_append
  cases hfirst with
  | turn hbefore ht =>
    have hrecorded := hbefore.mem_recorded_iff h₀ fun t' hmem =>
      hkept t' (List.mem_append_right _ (.tail _ hmem))
    have hshown : ∀ uri, shownFor workspace (later ++ _ :: before) uri = _ := fun uri =>
      (shownFor_append_of_not hlater).trans (ht.shownFor_eq hc hws hrecorded)
    refine ⟨hshown, fun uri => ?_⟩
    rw [h.mem_recorded_iff h₀ hkept uri, hshown uri]

end

def spellingFault : Diagnostic := ⟨.error, .ofString "/v/a.ink", 1, "fault"⟩

def spellingDelivery : Delivery :=
  ⟨⟨"/v", .ofString "/v", none⟩, .compile, false, some ([spellingFault], none), none⟩

/-- The results of two runs of the story are about to be shown. -/
def spellingWorld : World :=
  { World.start ⟨[], []⟩ ⟨.ofString "/s", .standard⟩ ⟨"a.ink", "inklecate", none⟩ with
    deliveries := [(1, spellingDelivery), (2, spellingDelivery)] }

/-- After the first of them the story is opened under another URI. -/
def spellingOpened : World :=
  ((Errand.opened "/v/a.ink" "").job (spellingWorld.closeRun 1)).world

def spellingTurns : List Turn :=
  [⟨spellingWorld.closeRun 1, .work (.opened "/v/a.ink" ""), spellingOpened⟩,
    ⟨spellingWorld, .close 1, spellingWorld.closeRun 1⟩]

def spellingLast : Turn :=
  ⟨spellingOpened, .close 2, spellingOpened.closeRun 2⟩

theorem spellingOpened_documents :
    spellingOpened.documents = [(.ofString "/v/a.ink", "/v/a.ink")] := by
  have hpath : Uri.toPath "/v/a.ink" = .ok (.ofString "/v/a.ink") := by rfl
  have hnormal : (Path.ofString "/v/a.ink").normalize = .ofString "/v/a.ink" := by decide
  simp only [spellingOpened, Errand.job, Job.documentOpened, Job.bind_apply, hpath, hnormal]
  rfl

theorem spelling_chronicle :
    Chronicle spellingWorld (spellingLast :: spellingTurns) (spellingOpened.closeRun 2) :=
  .turn (.turn (.turn .nil (.close 1)) (.work (.begin _))) (.close 2)

theorem shown_by_last_cycle_spelling :
    shownFor "/v" spellingTurns "file:///v/a.ink" = [.ofDiagnostic spellingFault]
      ∧ Chronicle spellingWorld (spellingLast :: spellingTurns) (spellingOpened.closeRun 2)
      ∧ shownFor "/v" (spellingLast :: spellingTurns) "file:///v/a.ink" = []
      ∧ shownFor "/v" (spellingLast :: spellingTurns) "/v/a.ink" = [.ofDiagnostic spellingFault] := by
  have hkept : ∀ t ∈ [] ++ spellingLast :: spellingTurns, "/v" ∉ t.what.removed := by
    simp [spellingLast, spellingTurns, Occurrence.removed, Errand.removed]
  have hcycle : spellingLast.cycle? = some (spellingDelivery.workspace, [spellingFault]) := by rfl
  have hlater : ∀ t ∈ ([] : List Turn), t.isCycleOf "/v" = false := by simp
  have hchronicle : Chronicle spellingWorld ([] ++ spellingLast :: spellingTurns)
      (spellingOpened.closeRun 2) := spelling_chronicle
  obtain ⟨hshown, _⟩ := hchronicle.shown_by_last_cycle rfl hkept hcycle rfl hlater
  have hold : spellingOpened.shownBy (spellingDelivery.workspace, [spellingFault]) "file:///v/a.ink"
      = [] := by
    rw [World.shownBy, spellingOpened_documents]
    decide +kernel
  have hnew : spellingOpened.shownBy (spellingDelivery.workspace, [spellingFault]) "/v/a.ink"
      = [.ofDiagnostic spellingFault] := by
    rw [World.shownBy, spellingOpened_documents]
    decide +kernel
  exact ⟨by rfl, spelling_chronicle, (hshown _).trans hold, (hshown _).trans hnew⟩

end InkServer
