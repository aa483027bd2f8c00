import InkServer.Proofs.Job.Ready
import InkServer.Proofs.Path.Inside
import InkServer.Proofs.Path.Lexical
import InkServer.Service.Documents

/-!
This module contains the way of an edit to the copy of its workspace: it is written there and stays
while nobody else works on the copies, or it fails after two attempts at most.
-/

namespace InkServer

open Text

namespace Path

variable {p q root rel scratch : Path}

/-- The relative location of a path below the root of a workspace that owns something is made of
names. -/
theorem exists_names_of_relativeTo? (hin : p.isInside root = true) (hn : root.normalize = root)
    (hne : root.bytes ≠ []) (h : q.relativeTo? root = some rel) :
    ∃ ns : List Name, ns ≠ [] ∧ (∀ n ∈ ns, IsName n)
      ∧ q.normalize.components = root.components ++ ns.map .name
      ∧ ∀ scratch : Path, scratch.join rel = scratch.inside ns := by
  have hup := up_not_mem_of_isInside hin hn
  have hcs : root.components ≠ [] := by
    intro hnil
    have hof := ofComponents_components_normalize root
    rw [hn, hnil] at hof
    rw [← hof] at hne
    exact hne rfl
  have hc := List.head_mem hcs
  have hc' : root.components.head hcs ∈ root.normalize.components := by rw [hn]; exact hc
  have hcup : root.components.head hcs ≠ .up := by
    intro heq
    rw [heq] at hc
    exact hup hc
  obtain ⟨ns, hns, hnames, heq, hrel⟩ := exists_below_of_relativeTo? h hc' hcup
  rw [hn] at heq
  refine ⟨ns, hns, hnames, heq, ?_⟩
  intro scratch
  rw [hrel, join_ofComponents scratch hns hnames]

theorem startsWith_iff : p.startsWith q = true ↔ q.components <+: p.components := by
  rw [startsWith, List.isPrefixOf_iff_prefix]

end Path

theorem Entry.exists_ready {e : Entry} {uri : String} {q target : Path}
    (h : (e.snapshot uri).scratchPathFor? q = some target) : ∃ scratch, e.state = .ready scratch := by
  unfold Workspace.scratchPathFor? Entry.snapshot Entry.scratch? at h
  cases hs : e.state with
  | ready scratch => exact ⟨scratch, rfl⟩
  | absent => simp [hs] at h
  | copying => simp [hs] at h
  | failed message => simp [hs] at h

namespace Registry.Sound

variable {rules : CopyRules} {r : Registry} {uri : String} {e : Entry} {scratch q target : Path}

theorem scratch_startsWith (h : r.Sound rules) (he : r.get? uri = some e)
    (hready : e.state = .ready scratch) : scratch.startsWith rules.scratchBase = true := by
  obtain ⟨n, d, hfilled⟩ := h.filled he hready
  have hscratch := rules.components_scratchOf n
  rw [Path.startsWith_iff, CopyRules.createCopy_eq_ok hfilled]
  unfold CopyRules.scratchOf at hscratch
  rw [hscratch]
  exact List.prefix_append _ _

/-- The place of a file in the copy lies below the scratch folder, as it lies in the workspace. -/
theorem exists_names (h : r.Sound rules) (howner : r.ownerUri? q = some uri)
    (he : r.get? uri = some e) (hready : e.state = .ready scratch)
    (htarget : (e.snapshot uri).scratchPathFor? q = some target) :
    ∃ ns : List Name, ns ≠ [] ∧ (∀ n ∈ ns, IsName n)
      ∧ q.normalize.components = e.root.components ++ ns.map .name ∧ target = scratch.inside ns := by
  obtain ⟨n, d, hfilled⟩ := h.filled he hready
  have hin := isInside_of_ownerUri? h.ordered howner he
  have hne := CopyRules.ne_nil_of_createCopy hfilled
  unfold Workspace.scratchPathFor? Entry.snapshot Entry.scratch? at htarget
  rw [hready] at htarget
  dsimp only at htarget
  split at htarget
  . next scratch' rel hs hrel =>
    obtain ⟨ns, hne', hns, hcs, hjoin⟩ := Path.exists_names_of_relativeTo? hin (h.normal he) hne hrel
    refine ⟨ns, hne', hns, hcs, ?_⟩
    rw [← Option.some.inj htarget, ← Option.some.inj hs, hjoin]
  . cases htarget

end Registry.Sound

/-- Nobody else worked on the copies meanwhile: besides the registry, what stands below the folder of
the scratch folders is as it was. -/
structure Halt.Quiet (h : Halt) : Prop extends h.Undisturbed where
  copies : ∀ (p : Path) (l : Location) (n : Node), p.startsWith h.before.rules.scratchBase = true →
    h.before.disk.find true p = .ok (l, n) → h.after.disk.find true p = .ok (l, n)

theorem Halt.Quiet.isFolder {h : Halt} {p : Path} (hq : h.Quiet)
    (hp : p.startsWith h.before.rules.scratchBase = true) (hfolder : h.before.disk.isFolder p = true) :
    h.after.disk.isFolder p = true := by
  obtain ⟨l, hl⟩ := Disk.isFolder_iff.mp hfolder
  exact Disk.isFolder_iff.mpr ⟨l, hq.copies p l .folder hp hl⟩

/-- The copy of the workspace that owns a document holds its text, if no device stands in its
place. -/
structure World.Holds (w : World) (uri : String) (path scratch : Path) (names : List Name)
    (text : String) : Prop where
  owner : w.registry.ownerUri? path = some uri
  entry : ∃ e, w.registry.get? uri = some e ∧ e.state = .ready scratch
    ∧ path.normalize.components = e.root.components ++ names.map .name
  names_ne : names ≠ []
  valid : ∀ n ∈ names, IsName n
  folder : w.disk.isFolder scratch = true
  taken : ∃ l n, w.disk.find true (scratch.inside names) = .ok (l, n)
    ∧ (n ≠ .sink → ∃ executable, n = .file (bytesOf text) executable)

namespace World.Holds

variable {w w' : World} {uri text : String} {path scratch : Path} {names : List Name} {q : Query}

theorem emit (h : w.Holds uri path scratch names text) (e : Effect) :
    (w.emit e).Holds uri path scratch names text :=
  ⟨h.owner, h.entry, h.names_ne, h.valid, h.folder, h.taken⟩

/-- What stands in the copy stays while nobody else works on it. -/
theorem quiet (h : w.Holds uri path scratch names text) (hsound : w.registry.Sound w.rules)
    (hq : Halt.Quiet ⟨w, q, w'⟩) :
    w'.registry.Sound w'.rules ∧ w'.Holds uri path scratch names text := by
  obtain ⟨e, he, hready, hnames⟩ := h.entry
  have hregistry : w'.registry = w.registry := hq.registry
  have hrules : w'.rules = w.rules := hq.rules
  have hscratch := hsound.scratch_startsWith he hready
  refine ⟨by rw [hregistry, hrules]; exact hsound, by rw [hregistry]; exact h.owner,
    by rw [hregistry]; exact h.entry, h.names_ne, h.valid, ?_, ?_⟩
  . exact hq.isFolder hscratch h.folder
  . obtain ⟨l, n, hfind, htook⟩ := h.taken
    refine ⟨l, n, hq.copies _ l n ?_ hfind, htook⟩
    rw [Path.startsWith_iff] at hscratch ⊢
    rw [Path.components_inside scratch h.valid]
    exact hscratch.trans (List.prefix_append _ _)

end World.Holds

namespace Ledger

def tried (l : Ledger) (r : Except EditError Unit) : Ledger :=
  { l with attempts := l.attempts ++ [r] }

def told (l : Ledger) : Ledger :=
  { l with messages := l.messages + 1 }

end Ledger

theorem ledger_message (hs : List Halt) (w : World) (level : MessageLevel) (text : String) :
    ledger hs (w.emit (.message level text)) = (ledger hs w).told := by
  simp only [ledger, World.shown, World.emit, List.countP_append, List.countP_singleton,
    Effect.isMessage, if_true, Ledger.told, Ledger.mk.injEq, true_and]
  omega

theorem ledger_emit (hs : List Halt) (w : World) {e : Effect} (he : e.isMessage = false) :
    ledger hs (w.emit e) = ledger hs w := by
  simp [ledger, World.shown, World.emit, he]

def EditError.isOutside : EditError → Bool
  | outside _ _ => true
  | _ => false

/-- What an attempt to write an edit adds to the ledger. -/
inductive EditAttempt.Adds (l : Ledger) : EditAttempt → Ledger → Prop where
  | written : Adds l .written (l.tried (.ok ()))
  | unready : Adds l .refused l.told
  | outside {e : EditError} (he : e.isOutside = true) : Adds l .refused (l.tried (.error e))
  | fault {ws : Workspace} {e : EditError} (he : e.isOutside = false) :
    Adds l (.fault ws) (l.tried (.error e))

/-- What an edit that could not be written adds to the ledger: one or two attempts at most, all of
them in vain, and a message unless the document lies outside the workspace. -/
structure Ledger.AddsFailure (l l' : Ledger) (failed : List EditError) : Prop where
  attempts : l'.attempts = l.attempts ++ failed.map .error
  length_le : failed.length ≤ 2
  starts : l'.starts = l.starts
  messages : l'.messages = l.messages + if failed.any EditError.isOutside then 0 else 1

namespace Job

variable {At : List Halt → World → Query → Prop} {uri text : String} {w w' : World}
  {hs : List Halt} {ws : Workspace} {path : Path}

/-- A query that a job stops for while it looks after copies or writes an edit. -/
inductive IsFileWork : Query → Prop where
  | upkeep {q : Query} (h : q.IsUpkeep) : IsFileWork q
  | edit {ws : Workspace} {document : Path} {text : String} :
    IsFileWork (@Query.rest (.edit ws document text))

theorem readyWorkspace_upholds {Q : Halt → Prop} {J : World → Prop} (hJ : Upholds Q J ws.uri)
    (hat : ∀ hs w q, q.IsUpkeep → At hs w q) (hsound : w.registry.Sound w.rules) (hw : J w)
    (document : String) (hs : List Halt) :
    (readyWorkspace ws document w).Along Q At
      (fun hs' w' r => Tended hs w hs' w' ∧ J w' ∧ ∀ ready, r = .ok ready → w'.Ready ws.uri ready)
      hs := by
  apply Step.along_bind
  refine (ensureReady_upholds hJ hat hsound hw hs).mono (fun _ _ _ h => h) ?_
  rintro hs' w' r ⟨ht, hw', hready⟩
  cases r with
  | ok ready =>
    refine ⟨ht, hw', ?_⟩
    intro ready' heq
    rw [← Except.ok.inj heq]
    exact hready ready rfl
  | error cause =>
    apply Step.along_bind
    refine (ensureReady_upholds hJ hat ht.sound hw' hs').mono (fun _ _ _ h => h) ?_
    rintro hs'' w'' r' ⟨ht', hw'', hready'⟩
    cases r' with
    | ok ready =>
      refine ⟨ht.trans ht', hw'', ?_⟩
      intro ready' heq
      rw [← Except.ok.inj heq]
      exact hready' ready rfl
    | error cause' => exact ⟨ht.trans ht', hw'', by simp⟩

/-- A job that needs the copy of a workspace comes to an error after a second attempt, or the copy
is ready. -/
theorem readyWorkspace_along (hat : ∀ hs w q, q.IsUpkeep → At hs w q)
    (hsound : w.registry.Sound w.rules) (ws : Workspace) (document : String) (hs : List Halt) :
    (readyWorkspace ws document w).Along Halt.Undisturbed At
      (fun hs' w' r => Tended hs w hs' w' ∧ ∀ ready, r = .ok ready → w'.Ready ws.uri ready) hs := by
  refine (readyWorkspace_upholds (upholds_true ws.uri) hat hsound trivial document hs).mono
    (fun _ _ _ h => h) ?_
  rintro hs' w' r ⟨ht, _, hready⟩
  exact ⟨ht, hready⟩

theorem readyWorkspace_of_ready {x : Entry} {scratch : Path}
    (hx : w.registry.get? ws.uri = some x) (hr : x.state = .ready scratch) (document : String) :
    ∃ k, readyWorkspace ws document w = .ask w (@Query.rest .upkeep) k
      ∧ ∀ answer w', w'.disk.isFolder scratch = true →
        k answer w' = .done w' (.ok (x.snapshot ws.uri)) := by
  obtain ⟨k, hjob, hk⟩ := ensureReady_of_ready hx hr
  unfold readyWorkspace
  rw [bind_apply, hjob]
  refine ⟨_, rfl, ?_⟩
  intro answer w' hfolder
  rw [hk answer w' hfolder]
  rfl

/-- What holds when an attempt to write an edit, or a whole edit, came to its end. -/
structure Kept (w w' : World) : Prop where
  sound : w'.registry.Sound w'.rules
  rules : w'.rules = w.rules
  outline : w'.registry.outline = w.registry.outline

theorem Kept.of_tended {hs' : List Halt} (h : Tended hs w hs' w') : Kept w w' :=
  ⟨h.sound, h.rules, h.outline⟩

theorem Kept.root_eq {u : String} {x e : Entry} (h : Kept w w') (hx : w.registry.get? u = some x)
    (he : w'.registry.get? u = some e) : e.root = x.root := by
  obtain ⟨e', he', hroot⟩ := Registry.get?_isSome_of_outline h.sound.ordered h.outline hx
  rw [he, Option.some.injEq] at he'
  rw [he', hroot]

/-- A text that was written to the copy of a workspace that owns the document stands there. -/
theorem holds_of_applyEdit {ready : Workspace} (hsound : w.registry.Sound w.rules)
    (howner : w.registry.ownerUri? path = some uri) (hready : w.Ready uri ready)
    (hq : Halt.Quiet ⟨w, @Query.rest (.edit ready path text), w'⟩)
    (hok : (ready.applyEdit path text w'.disk).2 = .ok ()) :
    ∃ scratch names, World.Holds { w' with disk := (ready.applyEdit path text w'.disk).1 } uri path
      scratch names text := by
  obtain ⟨e, scratch, he, hstate, hsnap, hfolder⟩ := hready
  have hregistry : w'.registry = w.registry := hq.registry
  obtain ⟨target, l, n, htarget, hfind, htook⟩ := Workspace.find_of_applyEdit hok
  rw [hsnap] at htarget
  obtain ⟨names, hne, hnames, hcs, hplace⟩ := hsound.exists_names howner he hstate htarget
  rw [hplace] at hfind
  refine ⟨scratch, names, ?_, ⟨e, ?_, hstate, hcs⟩, hne, hnames, ?_, l, n, hfind, htook⟩
  . rw [hregistry]
    exact howner
  . rw [hregistry]
    exact he
  . have hfolder' := hq.isFolder (hsound.scratch_startsWith he hstate) hfolder
    exact (Workspace.applyEdit_keeps ready path text w'.disk).isFolder hfolder'

def attemptOf (ready : Workspace) : Except EditError Unit → EditAttempt
  | .ok () => .written
  | .error e => if e.isOutside then .refused else .fault ready

theorem eq_ok_of_attemptOf {ready : Workspace} {r : Except EditError Unit}
    (h : attemptOf ready r = .written) : r = .ok () := by
  unfold attemptOf at h
  split at h
  . rfl
  . split at h
    . cases h
    . cases h

theorem eq_of_attemptOf_fault {ready ready' : Workspace} {r : Except EditError Unit}
    (h : attemptOf ready r = .fault ready') : ready' = ready := by
  unfold attemptOf at h
  split at h
  . cases h
  . split at h
    . cases h
    . exact (EditAttempt.fault.inj h).symm

theorem tryEdit_eq (uri : String) (path : Path) (text : String) (ws : Workspace) (w : World) :
    tryEdit uri path text ws w
      =
    (readyWorkspace ws uri w).bind fun r w =>
      match r with
      | .error e => .done (w.emit (.message e.level e.userMessage)) .refused
      | .ok ready =>
        .ask w (@Query.rest (.edit ready path text)) fun _ w =>
          .done { w with disk := (ready.applyEdit path text w.disk).1 }
            (attemptOf ready (ready.applyEdit path text w.disk).2) := by
  unfold tryEdit
  rw [bind_apply]
  refine congrArg (fun f => (readyWorkspace ws uri w).bind f) ?_
  funext r w
  cases r with
  | error e => rfl
  | ok ready =>
    refine congrArg (Step.ask _ _) ?_
    funext _ w
    dsimp only [Step.bind, bind, Job.bind, update]
    generalize ready.applyEdit path text w.disk = written
    rcases written with ⟨disk, result⟩
    cases result with
    | ok u => rfl
    | error e =>
      cases e with
      | _ => rfl

theorem tryEdit_along (hat : ∀ hs w q, IsFileWork q → At hs w q)
    (hsound : w.registry.Sound w.rules) (howner : w.registry.ownerUri? path = some ws.uri)
    (uri text : String) (hs : List Halt) :
    (tryEdit uri path text ws w).Along Halt.Quiet At
      (fun hs' w' a => Kept w w' ∧ a.Adds (ledger hs w) (ledger hs' w')
        ∧ (a = .written → ∃ scratch names, w'.Holds ws.uri path scratch names text)) hs := by
  rw [tryEdit_eq]
  apply Step.along_bind
  have hready := readyWorkspace_along (fun hs w q hq => hat hs w q (.upkeep hq)) hsound ws uri hs
  refine (hready.imp_halt fun _ hq => hq.toUndisturbed).mono (fun _ _ _ h => h) ?_
  rintro hs' w' r ⟨ht, hready⟩
  cases r with
  | error e =>
    refine ⟨⟨ht.sound, ht.rules, ht.outline⟩, ?_, by simp⟩
    rw [ledger_message, ht.ledger]
    exact .unready
  | ok ready =>
    refine ⟨hat _ _ _ .edit, ?_⟩
    intro answer w'' hq
    have hregistry : w''.registry = w'.registry := hq.registry
    have hrules : w''.rules = w'.rules := hq.rules
    have hledger : ledger (hs' ++ [⟨w', @Query.rest (.edit ready path text), w''⟩])
        { w'' with disk := (ready.applyEdit path text w''.disk).1 }
          = (ledger hs w).tried (ready.applyEdit path text w''.disk).2 := by
      refine Eq.trans (@ledger_congr w'' _ _ ?_) ?_
      . rfl
      . rw [ledger_concat, ht.ledger]
        simp [Halt.attempt?, Halt.start?, Ledger.tried]
    have howner' : w'.registry.ownerUri? path = some ws.uri := by
      rw [Registry.ownerUri?_congr ht.outline, howner]
    have hholds := holds_of_applyEdit ht.sound howner' (hready ready rfl) hq
    refine ⟨⟨?_, hrules.trans ht.rules, ?_⟩, ?_⟩
    . rw [hregistry, hrules]
      exact ht.sound
    . rw [hregistry]
      exact ht.outline
    . rw [hledger]
      cases hresult : (ready.applyEdit path text w''.disk).2 with
      | ok u => exact ⟨.written, fun _ => hholds hresult⟩
      | error e =>
        rw [attemptOf]
        split
        . next he => exact ⟨.outside he, by simp⟩
        . next he => exact ⟨.fault (by simpa using he), by simp⟩

theorem Kept.trans {w'' : World} (h : Kept w w') (h' : Kept w' w'') : Kept w w'' :=
  ⟨h'.sound, h'.rules.trans h.rules, h'.outline.trans h.outline⟩

theorem abandon_along {Q : Halt → Prop} (hsound : w.registry.Sound w.rules) (ready : Workspace)
    (hs : List Halt) :
    (abandon ready w).Along Q At (fun hs' w' _ => hs' = hs ∧ Kept w w' ∧ ledger hs w' = ledger hs w)
      hs := by
  dsimp only [abandon, modify, Step.Along]
  refine ⟨rfl, ?_⟩
  split
  . next scratch hscratch =>
    refine ⟨⟨hsound.markStale ready.uri scratch, rfl, ?_⟩, rfl⟩
    exact Registry.outline_markStale hsound.ordered ready.uri scratch
  . exact ⟨⟨hsound, rfl, rfl⟩, rfl⟩

/-- An edit is written to the copy, or fails after two attempts at most. -/
theorem copyEdit_along (hat : ∀ hs w q, IsFileWork q → At hs w q)
    (hsound : w.registry.Sound w.rules) (howner : w.registry.ownerUri? path = some ws.uri)
    (uri text : String) (hs : List Halt) :
    (copyEdit uri path text ws w).Along Halt.Quiet At
      (fun hs' w' b => Kept w w'
        ∧ (b = true → .ok () ∈ (ledger hs' w').attempts
          ∧ ∃ scratch names, w'.Holds ws.uri path scratch names text)
        ∧ (b = false → ∃ failed, (ledger hs w).AddsFailure (ledger hs' w') failed)) hs := by
  apply Step.along_bind
  refine (tryEdit_along hat hsound howner uri text hs).mono (fun _ _ _ h => h) ?_
  rintro hs' w' a ⟨hkept, hadds, hholds⟩
  generalize hl' : ledger hs' w' = l' at hadds
  cases hadds with
  | written =>
    refine ⟨hkept, fun _ => ⟨?_, hholds rfl⟩, by simp⟩
    rw [hl', Ledger.tried]
    simp
  | unready =>
    refine ⟨hkept, by simp, fun _ => ⟨[], ?_⟩⟩
    rw [hl']
    exact ⟨by simp [Ledger.told], by simp, rfl, rfl⟩
  | @outside e he =>
    refine ⟨hkept, by simp, fun _ => ⟨[e], ?_⟩⟩
    rw [hl']
    exact ⟨rfl, by simp, rfl, by simp [he, Ledger.tried]⟩
  | @fault ready e he =>
    apply Step.along_bind
    refine (abandon_along hkept.sound ready hs').mono (fun _ _ _ h => h) ?_
    rintro hs'' w'' _ ⟨heq, hkept', hledger'⟩
    subst heq
    have howner' : w''.registry.ownerUri? path = some ws.uri := by
      rw [Registry.ownerUri?_congr (hkept.trans hkept').outline, howner]
    apply Step.along_bind
    refine (tryEdit_along hat hkept'.sound howner' uri text hs'').mono (fun _ _ _ h => h) ?_
    rintro hs3 w3 a' ⟨hkept3, hadds', hholds'⟩
    have hall := (hkept.trans hkept').trans hkept3
    rw [hledger', hl'] at hadds'
    generalize hl3 : ledger hs3 w3 = l3 at hadds'
    cases hadds' with
    | written =>
      refine ⟨hall, fun _ => ⟨?_, hholds' rfl⟩, by simp⟩
      rw [hl3, Ledger.tried]
      simp
    | unready =>
      refine ⟨hall, by simp, fun _ => ⟨[e], ?_⟩⟩
      rw [hl3]
      exact ⟨rfl, by simp, rfl, by simp [he, Ledger.told, Ledger.tried]⟩
    | @outside e' he' =>
      refine ⟨hall, by simp, fun _ => ⟨[e, e'], ?_⟩⟩
      rw [hl3]
      exact ⟨by simp [Ledger.tried], by simp, rfl, by simp [he', Ledger.tried]⟩
    | @fault ready' e' he' =>
      refine ⟨⟨hall.sound, hall.rules, hall.outline⟩, by simp, fun _ => ⟨[e, e'], ?_⟩⟩
      rw [ledger_message, hl3]
      exact ⟨by simp [Ledger.told, Ledger.tried], by simp, rfl,
        by simp [he, he', Ledger.told, Ledger.tried]⟩

end Job

end InkServer
