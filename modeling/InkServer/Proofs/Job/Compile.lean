import InkServer.Proofs.Job.Edit

/-!
This module contains the way from an edit to the compiler: what is compiled holds the edit, and an edit
that cannot be written ends the job with one message.
-/

namespace InkServer

open Text

/-- A run is asked for that compiles the copy of the workspace that owns the document, and this copy
holds exactly the text of the document at its place, if no device stands there. -/
def CompilesEdit (uri text : String) (w : World) (mode : Mode) (request : RunRequest) : Prop :=
  mode = .compile ∧
    ∃ (path scratch : Path) (ws : Workspace) (names main : List Name),
      Uri.toPath uri = .ok path ∧ w.registry.findOwner? path.normalize = some ws
        ∧ ws.scratch = some scratch ∧ w.disk.isFolder scratch = true
        ∧ main ≠ [] ∧ (∀ n ∈ main, IsName n) ∧ request.scratchMain = scratch.inside main
        ∧ names ≠ [] ∧ (∀ n ∈ names, IsName n)
        ∧ path.normalize.components = ws.root.components ++ names.map .name
        ∧ ∃ l n, w.disk.find true (scratch.inside names) = .ok (l, n)
          ∧ (n ≠ .sink → ∃ executable, n = .file (bytesOf text) executable)

namespace Job

variable {At : List Halt → World → Query → Prop} {uri text : String} {w w' : World}
  {hs : List Halt} {ws : Workspace} {path scratch : Path} {names : List Name}

theorem owner?_eq (p : Path) (w : World) :
    owner? p w
      =
    match w.registry.findOwner? p with
    | some ws => .done w (some ws)
    | none =>
      (refreshFolders w).bind fun found w =>
        .done w (if found then w.registry.findOwner? p else none) := by
  unfold owner?
  dsimp only [bind, Job.bind, get, Step.bind]
  cases w.registry.findOwner? p with
  | some ws => rfl
  | none =>
    dsimp only
    congr 1
    funext found w
    cases found with
    | true => rfl
    | false => rfl

theorem documentChanged_of_owner (hpath : Uri.toPath uri = .ok path)
    (hfound : w.registry.findOwner? path.normalize = some ws) (text : String) :
    documentChanged uri text w
      =
    (copyEdit uri path.normalize text ws w).bind fun written w =>
      if written then startFor (some uri) .compile .edit w else .done w none := by
  unfold documentChanged
  rw [hpath]
  dsimp only
  rw [bind_apply, owner?_eq, hfound]
  refine congrArg (fun f => (copyEdit uri path.normalize text ws w).bind f) ?_
  funext written w
  cases written with
  | true => rfl
  | false => rfl

theorem refreshFolders_along {Q : Halt → Prop} (hat : ∀ hs w, At hs w .folders)
    (hq : ∀ h, Q h → h.Undisturbed) (hsound : w.registry.Sound w.rules) (hs : List Halt) :
    (refreshFolders w).Along Q At
      (fun hs' w' found => w'.registry.Sound w'.rules ∧ ledger hs' w' = ledger hs w
        ∧ (found = false → w'.registry = w.registry)) hs := by
  refine ⟨hat _ _, ?_⟩
  intro answer w' hhalt
  have hu := hq _ hhalt
  have hregistry : w'.registry = w.registry := hu.registry
  have hrules : w'.rules = w.rules := hu.rules
  have hsound' : w'.registry.Sound w'.rules := by
    rw [hregistry, hrules]
    exact hsound
  have hledger : ledger (hs ++ [⟨w.emit .askFolders, .folders, w'⟩]) w' = ledger hs w := by
    rw [ledger_concat, ledger_emit hs w rfl]
    simp [Halt.attempt?, Halt.start?]
  cases answer with
  | none => exact ⟨hsound', hledger, fun _ => hregistry⟩
  | some folders =>
    refine ⟨hsound'.registerAll _, hledger, ?_⟩
    intro hempty
    have hnil : folders = [] := by simpa using hempty
    rw [hnil]
    exact hregistry

/-- The workspace that is found for a path is its owner from then on. -/
theorem owner?_along (hat : ∀ hs w, At hs w .folders) (hsound : w.registry.Sound w.rules) (p : Path)
    (hs : List Halt) :
    (owner? p w).Along Halt.Quiet At
      (fun hs' w' r => w'.registry.Sound w'.rules ∧ ledger hs' w' = ledger hs w
        ∧ r = w'.registry.findOwner? p) hs := by
  rw [owner?_eq]
  cases howner : w.registry.findOwner? p with
  | some ws => exact ⟨hsound, rfl, howner.symm⟩
  | none =>
    apply Step.along_bind
    refine (refreshFolders_along hat (fun _ hq => hq.toUndisturbed) hsound hs).mono
      (fun _ _ _ h => h) ?_
    rintro hs' w' found ⟨hsound', hledger, hsame⟩
    refine ⟨hsound', hledger, ?_⟩
    cases found with
    | true => rfl
    | false =>
      rw [hsame rfl, howner]
      rfl

/-- The main story of a request for a workspace that owns something lies below its scratch folder. -/
theorem exists_main_of_requestFor {e : Entry} {u : String} {settings : Settings}
    {request : RunRequest} (hsound : w.registry.Sound w.rules)
    (howner : w.registry.ownerUri? path = some u) (he : w.registry.get? u = some e)
    (hstate : e.state = .ready scratch) (h : requestFor (e.snapshot u) settings = .ok request) :
    ∃ main : List Name, main ≠ [] ∧ (∀ n ∈ main, IsName n)
      ∧ request.scratchMain = scratch.inside main := by
  have hin := Registry.isInside_of_ownerUri? hsound.ordered howner he
  obtain ⟨m, d, hfilled⟩ := hsound.filled he hstate
  have hne := CopyRules.ne_nil_of_createCopy hfilled
  have hscratch := (@Entry.snapshot_scratch_iff e u scratch).mpr hstate
  unfold requestFor Workspace.scratchPathFor? at h
  dsimp only at h
  rw [hscratch] at h
  split at h
  . next scratchMain hmain =>
    split at hmain
    . next scratch' rel hs hrel =>
      obtain ⟨main, hmain_ne, hnames, _, hjoin⟩ :=
        Path.exists_names_of_relativeTo? hin (hsound.normal he) hne hrel
      refine ⟨main, hmain_ne, hnames, ?_⟩
      rw [← Except.ok.inj h]
      dsimp only
      rw [← Option.some.inj hmain, ← Option.some.inj hs, hjoin]
    . cases hmain
  . cases h

/-- Start a run once it is known whether the copy is ready. -/
def launchReady (mode : Mode) (settings : Settings) :
    Except RunError Workspace → Job (Except RunError Started)
  | .error e => pure (.error e)
  | .ok ready =>
    match requestFor ready settings with
    | .error e => pure (.error e)
    | .ok request => launch ready mode request

theorem tryRun_eq {target : Option String} {scope : String} (mode : Mode)
    (h : runTarget target w = .done w (.ok (ws, scope))) :
    tryRun target mode w
      =
    .ask (w.emit (.askSettings scope)) (.settings scope) fun tier w =>
      let settings := Settings.merge tier w.initial w.defaults
      .ask (w.emit (.checkTool settings)) (.checkTool settings) fun available w =>
        if available then
          (readyWorkspace ws scope w).bind fun r w => launchReady mode settings r w
        else
          .done w (.error .toolUnavailable) := by
  unfold tryRun
  rw [bind_apply, h]
  refine congrArg (Step.ask _ _) ?_
  funext tier w
  refine congrArg (Step.ask _ _) ?_
  funext available w
  cases available with
  | false => rfl
  | true =>
    refine congrArg (fun f => (readyWorkspace ws scope w).bind f) ?_
    funext r w
    cases r with
    | error e => rfl
    | ok ready => rfl

theorem runTarget_of_some (hpath : Uri.toPath uri = .ok path)
    (hfound : w.registry.findOwner? path.normalize = some ws) :
    runTarget (some uri) w = .done w (.ok (ws, uri)) := by
  unfold runTarget
  simp only [hpath]
  rw [bind_apply, owner?_eq, hfound]
  rfl

/-- What others and the bookkeeping of a job keep, as long as the copy of a workspace is ready. -/
structure Persists (Q : Halt → Prop) (I : World → Prop) (u : String) (scratch : Path) : Prop where
  registry : ∀ {h : Halt}, Q h → h.after.registry = h.before.registry
  halt : ∀ {w w' : World} {q : Query}, I w → Q ⟨w, q, w'⟩ → I w'
  emit : ∀ {w : World}, I w → ∀ e, I (w.emit e)
  deliver : ∀ {w : World}, I w → ∀ deliveries, I { w with deliveries }
  ready : ∀ {w : World}, I w →
    ∃ e, w.registry.get? u = some e ∧ e.state = .ready scratch ∧ w.disk.isFolder scratch = true

/-- A run for a document of a workspace whose copy is ready keeps what others keep. -/
theorem tryRun_along {Q : Halt → Prop} {I : World → Prop} (hI : Persists Q I ws.uri scratch)
    (hw : I w) (hpath : Uri.toPath uri = .ok path)
    (hfound : w.registry.findOwner? path.normalize = some ws)
    (hat : ∀ hs w q, (∀ mode request, q ≠ .start mode request) → At hs w q)
    (hstart : ∀ hs v e settings request, I v → v.registry.get? ws.uri = some e →
      e.state = .ready scratch → requestFor (e.snapshot ws.uri) settings = .ok request →
      At hs v (.start .compile request)) (hs : List Halt) :
    (tryRun (some uri) .compile w).Along Q At (fun _ w' _ => I w') hs := by
  rw [tryRun_eq _ (runTarget_of_some hpath hfound)]
  -- The settings and the tool are asked for first.
  refine ⟨hat _ _ _ (by simp), ?_⟩
  intro tier w1 hq1
  have hw1 := hI.halt (hI.emit hw _) hq1
  refine ⟨hat _ _ _ (by simp), ?_⟩
  intro available w2 hq2
  have hw2 := hI.halt (hI.emit hw1 _) hq2
  cases available with
  | false => exact hw2
  | true =>
    obtain ⟨e2, he2, hstate2, _⟩ := hI.ready hw2
    obtain ⟨k, hready, hk⟩ := readyWorkspace_of_ready he2 hstate2 uri
    dsimp only
    rw [if_pos rfl, hready]
    refine ⟨hat _ _ _ (by simp), ?_⟩
    intro answer w3 hq3
    have hw3 := hI.halt hw2 hq3
    obtain ⟨_, _, _, hfolder⟩ := hI.ready hw3
    have he3 : w3.registry.get? ws.uri = some e2 := by rw [hI.registry hq3, he2]
    dsimp only
    rw [hk answer w3 hfolder, Step.bind_done, launchReady]
    cases hrequest : requestFor (e2.snapshot ws.uri) (Settings.merge tier w1.initial w1.defaults) with
    | error cause => exact hw3
    | ok request =>
      refine ⟨hstart _ _ _ _ _ (hI.emit hw3 _) he3 hstate2 hrequest, ?_⟩
      intro answer w4 hq4
      have hw4 := hI.halt (hI.emit hw3 _) hq4
      cases answer with
      | error cause => exact hw4
      | ok generation => exact hI.deliver hw4 _

theorem startFor_along {Q : Halt → Prop} {I : World → Prop} (hI : Persists Q I ws.uri scratch)
    (hw : I w) (hpath : Uri.toPath uri = .ok path)
    (hfound : w.registry.findOwner? path.normalize = some ws)
    (hat : ∀ hs w q, (∀ mode request, q ≠ .start mode request) → At hs w q)
    (hstart : ∀ hs v e settings request, I v → v.registry.get? ws.uri = some e →
      e.state = .ready scratch → requestFor (e.snapshot ws.uri) settings = .ok request →
      At hs v (.start .compile request)) (hs : List Halt) :
    (startFor (some uri) .compile .edit w).Along Q At (fun _ w' _ => I w') hs := by
  apply Step.along_bind
  refine (tryRun_along hI hw hpath hfound hat hstart hs).mono (fun _ _ _ h => h) ?_
  intro hs' w' r hw'
  cases r with
  | ok started => exact hw'
  | error e =>
    cases e with
    | toolUnavailable => exact hw'
    | _ => exact hI.emit hw' _

/-- A text in the copy of a workspace stays there while nobody else works on the copies. -/
theorem holds_persists (u : String) (path scratch : Path) (names : List Name) (text : String) :
    Persists Halt.Quiet
      (fun v => v.registry.Sound v.rules ∧ v.Holds u path scratch names text) u scratch := by
  refine ⟨fun hq => hq.registry, fun hw hq => hw.2.quiet hw.1 hq, fun hw e => ⟨hw.1, hw.2.emit e⟩,
    fun hw _ => ⟨hw.1, hw.2.owner, hw.2.entry, hw.2.names_ne, hw.2.valid, hw.2.folder, hw.2.taken⟩,
    ?_⟩
  intro w hw
  obtain ⟨e, he, hstate, _⟩ := hw.2.entry
  exact ⟨e, he, hstate, hw.2.folder⟩

/-- Once an edit is in the copy, a run for the workspace compiles it. -/
theorem compilesEdit_of_holds {u : String} {e : Entry} {settings : Settings} {request : RunRequest}
    (hpath : Uri.toPath uri = .ok path) (hsound : w.registry.Sound w.rules)
    (hholds : w.Holds u path.normalize scratch names text) (he : w.registry.get? u = some e)
    (hstate : e.state = .ready scratch)
    (hrequest : requestFor (e.snapshot u) settings = .ok request) :
    CompilesEdit uri text w .compile request := by
  obtain ⟨main, hmain, hvalid, hplace⟩ :=
    exists_main_of_requestFor hsound hholds.owner he hstate hrequest
  have hfound := Registry.findOwner?_of_get? hsound.ordered hholds.owner he
  obtain ⟨e', he', _, hcs⟩ := hholds.entry
  rw [he, Option.some.injEq] at he'
  rw [Path.normalize_normalize, ← he'] at hcs
  exact ⟨rfl, path, scratch, e.snapshot u, names, main, hpath, hfound,
    Entry.snapshot_scratch_iff.mpr hstate, hholds.folder, hmain, hvalid, hplace, hholds.names_ne,
    hholds.valid, hcs, hholds.taken⟩

end Job

/-- A workspace contains the document. -/
def World.Owns (w : World) (uri : String) : Prop :=
  ∃ path ws, Uri.toPath uri = .ok path ∧ w.registry.findOwner? path.normalize = some ws

/-- The job came to its end without a run: it made two attempts to write the edit at most, and told
the user once, unless the document lies outside every workspace or outside its own. -/
structure EndsUnwritten (uri : String) (l l' : Ledger) (w : World) (started : Option Started) :
    Prop where
  started : started = none
  attempts : l'.attempts.length ≤ 2
  starts : l'.starts = l.starts
  told : w.Owns uri → (∀ e, .error e ∈ l'.attempts → e.isOutside = false) →
    l'.messages = l.messages + 1
  untold : (¬w.Owns uri ∨ ∃ e, .error e ∈ l'.attempts ∧ e.isOutside = true) →
    l'.messages = l.messages

theorem EndsUnwritten.of_not_owns {uri : String} {l : Ledger} {w : World} (hl : l.attempts = [])
    (hnot : ¬w.Owns uri) : EndsUnwritten uri l l w none :=
  ⟨rfl, by simp [hl], rfl, fun howns => absurd howns hnot, fun _ => rfl⟩

theorem EndsUnwritten.of_failure {uri : String} {l l' : Ledger} {w : World}
    {failed : List EditError} (h : l.AddsFailure l' failed) (hl : l.attempts = [])
    (howns : w.Owns uri) :
    EndsUnwritten uri l l' w none := by
  have hattempts := h.attempts
  rw [hl, List.nil_append] at hattempts
  refine ⟨rfl, ?_, h.starts, ?_, ?_⟩
  . rw [hattempts, List.length_map]
    exact h.length_le
  . intro _ hinside
    rw [h.messages, if_neg]
    rw [List.any_eq_true]
    rintro ⟨e, he, hout⟩
    have hin := hinside e (by rw [hattempts]; exact List.mem_map_of_mem he)
    rw [hin] at hout
    cases hout
  . intro houtside
    rcases houtside with hnot | ⟨e, he, hout⟩
    . exact absurd howns hnot
    . rw [hattempts] at he
      obtain ⟨e', he', heq⟩ := List.mem_map.mp he
      rw [Except.error.inj heq] at he'
      have hany : failed.any EditError.isOutside = true := List.any_eq_true.mpr ⟨e, he', hout⟩
      rw [h.messages, hany, if_pos rfl, Int.add_zero]

namespace Job

variable {uri text : String} {w w' : World} {hs : List Halt} {path : Path}

theorem mem_attempts_of_first {hs' : List Halt} {r : Except EditError Unit} (h : hs <+: hs')
    (hr : r ∈ (ledger hs w).attempts) : r ∈ (ledger hs' w').attempts := by
  obtain ⟨rest, hrest⟩ := h
  rw [← hrest, ledger, List.filterMap_append]
  exact List.mem_append_left _ hr

/-- An edit that was written is in the copy when a run is asked for. -/
theorem startFor_compiles {u : String} {scratch : Path} {names : List Name}
    (hsound : w.registry.Sound w.rules) (hpath : Uri.toPath uri = .ok path)
    (hholds : w.Holds u path.normalize scratch names text)
    (hok : .ok () ∈ (ledger hs w).attempts) (l : Ledger) :
    (startFor (some uri) .compile .edit w).Along Halt.Quiet
      (fun _ v q => ∀ mode request, q = .start mode request → CompilesEdit uri text v mode request)
      (fun hs' v started => (∀ r ∈ (ledger hs' v).attempts, r ≠ .ok ()) →
        EndsUnwritten uri l (ledger hs' v) v started) hs := by
  obtain ⟨e, he, _⟩ := hholds.entry
  have hfound := Registry.findOwner?_of_get? hsound.ordered hholds.owner he
  have hpersists := holds_persists u path.normalize scratch names text
  refine (@startFor_along _ uri w (e.snapshot u) path scratch _ _ hpersists
    ⟨hsound, hholds⟩ hpath hfound ?_ ?_ hs).extends.mono (fun _ _ _ h => h) ?_
  . intro hs v q hq mode request heq
    exact absurd heq (hq mode request)
  . intro hs v e settings request hv he hstate hrequest mode request' heq
    injection heq with hmode hsame
    rw [← hmode, ← hsame]
    exact compilesEdit_of_holds hpath hv.1 hv.2 he hstate hrequest
  . rintro hs' w' started ⟨hfirst, _⟩ hnone
    exact absurd rfl (hnone _ (mem_attempts_of_first hfirst hok))

theorem documentChanged_along (hsound : w.registry.Sound w.rules) (uri text : String)
    (hl : (ledger hs w).attempts = []) :
    (documentChanged uri text w).Along Halt.Quiet
      (fun _ v q => ∀ mode request, q = .start mode request → CompilesEdit uri text v mode request)
      (fun hs' v started => (∀ r ∈ (ledger hs' v).attempts, r ≠ .ok ()) →
        EndsUnwritten uri (ledger hs w) (ledger hs' v) v started) hs := by
  unfold documentChanged
  cases hpath : Uri.toPath uri with
  | error e =>
    have hnot : ¬w.Owns uri := by
      rintro ⟨path, ws, hpath', _⟩
      rw [hpath] at hpath'
      cases hpath'
    intro _
    exact .of_not_owns hl hnot
  | ok path =>
    apply Step.along_bind
    refine (owner?_along (by simp) hsound path.normalize hs).mono (fun _ _ _ h => h) ?_
    rintro hs1 w1 found ⟨hsound1, hledger1, hfound⟩
    cases found with
    | none =>
      have hnot : ¬w1.Owns uri := by
        rintro ⟨path', ws, hpath', hws⟩
        rw [hpath, Except.ok.injEq] at hpath'
        rw [← hpath', ← hfound] at hws
        cases hws
      intro _
      rw [hledger1]
      exact .of_not_owns hl hnot
    | some ws =>
      obtain ⟨e, he, hws, howner⟩ := Registry.of_findOwner? hsound1.ordered hfound.symm
      have hwork : ∀ (_ : List Halt) (v : World) (q : Query), IsFileWork q →
          ∀ mode request, q = .start mode request → CompilesEdit uri text v mode request := by
        intro _ v q hq mode request heq
        rw [heq] at hq
        cases hq with
        | upkeep h => cases h
      apply Step.along_bind
      refine (copyEdit_along hwork hsound1 howner uri text hs1).mono (fun _ _ _ h => h) ?_
      rintro hs2 w2 written ⟨hkept, hwritten, hfailed⟩
      cases written with
      | true =>
        obtain ⟨hok, scratch, names, hholds⟩ := hwritten rfl
        exact startFor_compiles hkept.sound hpath hholds hok _
      | false =>
        obtain ⟨failed, hfailure⟩ := hfailed rfl
        obtain ⟨e2, he2, _⟩ := Registry.get?_isSome_of_outline hkept.sound.ordered hkept.outline he
        have howner2 : w2.registry.ownerUri? path.normalize = some ws.uri := by
          rw [Registry.ownerUri?_congr hkept.outline, howner]
        intro _
        rw [hledger1] at hfailure
        exact .of_failure hfailure hl ⟨path, _, hpath,
          Registry.findOwner?_of_get? hkept.sound.ordered howner2 he2⟩

theorem documentOpened_along (hsound : w.registry.Sound w.rules) (uri text : String)
    (hl : (ledger hs w).attempts = []) :
    (documentOpened uri text w).Along Halt.Quiet
      (fun _ v q => ∀ mode request, q = .start mode request → CompilesEdit uri text v mode request)
      (fun hs' v started => (∀ r ∈ (ledger hs' v).attempts, r ≠ .ok ()) →
        EndsUnwritten uri (ledger hs w) (ledger hs' v) v started) hs := by
  unfold documentOpened
  cases hpath : Uri.toPath uri with
  | error e =>
    have hnot : ¬w.Owns uri := by
      rintro ⟨path, ws, hpath', _⟩
      rw [hpath] at hpath'
      cases hpath'
    intro _
    exact .of_not_owns hl hnot
  | ok path =>
    apply @documentChanged_along { w with documents := setKey path.normalize uri w.documents } hs
    . exact hsound
    . exact hl

def idle (w : World) (q : Query) : Halt :=
  ⟨w, q, w⟩

theorem idle_quiet (w : World) {q : Query} (hq : ∀ seen, q ≠ .settled seen) : (idle w q).Quiet :=
  ⟨⟨rfl, rfl, rfl, fun seen h => absurd h (hq seen)⟩, fun _ _ _ _ h => h⟩

theorem readyWorkspace_reaches {ws : Workspace} {x : Entry} {scratch : Path}
    (hx : w.registry.get? ws.uri = some x) (hr : x.state = .ready scratch)
    (hfolder : w.disk.isFolder scratch = true) (document : String) :
    (readyWorkspace ws document w).Reaches [idle w (@Query.rest .upkeep)]
      (.done w (.ok (x.snapshot ws.uri))) := by
  obtain ⟨k, hjob, hk⟩ := readyWorkspace_of_ready hx hr document
  rw [hjob, ← hk () w hfolder]
  exact .resume (.refl _)

theorem tryEdit_reaches {ws : Workspace} {x : Entry} {scratch : Path}
    (hx : w.registry.get? ws.uri = some x) (hr : x.state = .ready scratch)
    (hfolder : w.disk.isFolder scratch = true) (uri : String) (path : Path) (text : String) :
    (tryEdit uri path text ws w).Reaches
      [idle w (@Query.rest .upkeep), idle w (@Query.rest (.edit (x.snapshot ws.uri) path text))]
      (.done { w with disk := ((x.snapshot ws.uri).applyEdit path text w.disk).1 }
        (attemptOf (x.snapshot ws.uri) ((x.snapshot ws.uri).applyEdit path text w.disk).2)) := by
  rw [tryEdit_eq]
  refine ((readyWorkspace_reaches hx hr hfolder uri).bind _).append ?_
  exact @Step.Reaches.resume _ _ _ _ _ () _ _ (.refl _)

/-- Nothing happened while the job was stopped in the state `w`, whatever was recorded so far. -/
def IdlesAt (w : World) (h : Halt) : Prop :=
  ∃ trace q, h = idle { w with trace } q ∧ ∀ seen, q ≠ .settled seen

theorem IdlesAt.quiet {h : Halt} (hidle : IdlesAt w h) : h.Quiet := by
  obtain ⟨trace, q, heq, hq⟩ := hidle
  rw [heq]
  exact idle_quiet _ hq

theorem tryRun_reaches {ws : Workspace} {x : Entry} {scratch : Path} {request : RunRequest}
    (hpath : Uri.toPath uri = .ok path) (hfound : w.registry.findOwner? path.normalize = some ws)
    (hx : w.registry.get? ws.uri = some x) (hr : x.state = .ready scratch)
    (hfolder : w.disk.isFolder scratch = true)
    (hrequest : requestFor (x.snapshot ws.uri) (Settings.merge none w.initial w.defaults)
      = .ok request) :
    ∃ hs trace k, (tryRun (some uri) .compile w).Reaches hs
        (.ask { w with trace } (.start .compile request) k)
      ∧ ∀ h ∈ hs, IdlesAt w h := by
  let settings := Settings.merge none w.initial w.defaults
  let w1 := w.emit (.askSettings uri)
  let w2 := w1.emit (.checkTool settings)
  have hready := @readyWorkspace_reaches w2 ws x scratch hx hr hfolder uri
  have hlaunch : ∃ trace k, launchReady .compile settings (.ok (x.snapshot ws.uri)) w2
      = .ask { w with trace } (.start .compile request) k := by
    rw [launchReady, hrequest]
    exact ⟨_, _, rfl⟩
  obtain ⟨trace, k, hlaunch⟩ := hlaunch
  refine ⟨[idle w1 (.settings uri), idle w2 (.checkTool settings), idle w2 (@Query.rest .upkeep)],
    trace, k, ?_, ?_⟩
  . rw [tryRun_eq _ (runTarget_of_some hpath hfound), ← hlaunch]
    refine @Step.Reaches.resume _ _ _ _ _ none _ _ ?_
    refine @Step.Reaches.resume _ _ _ _ _ true _ _ ?_
    exact hready.bind _
  . intro h hh
    simp only [List.mem_cons, List.not_mem_nil, or_false] at hh
    rcases hh with hh | hh | hh
    . exact ⟨w1.trace, _, hh, by simp⟩
    . exact ⟨w2.trace, _, hh, by simp⟩
    . exact ⟨w2.trace, _, hh, by simp⟩

/-- When the copy is ready, the edit can be written and the compiler is there, a run is asked for. -/
theorem documentChanged_reaches_start {ws : Workspace} {scratch : Path} {request : RunRequest}
    (hsound : w.registry.Sound w.rules) (hpath : Uri.toPath uri = .ok path)
    (hfound : w.registry.findOwner? path.normalize = some ws) (hws : ws.scratch = some scratch)
    (hfolder : w.disk.isFolder scratch = true)
    (hok : (ws.applyEdit path.normalize text w.disk).2 = .ok ())
    (hrequest : requestFor ws (Settings.merge none w.initial w.defaults) = .ok request) :
    ∃ hs v k, (documentChanged uri text w).Reaches hs (.ask v (.start .compile request) k)
      ∧ ∀ h ∈ hs, h.Quiet := by
  obtain ⟨x, hx, hsnap, _⟩ := Registry.of_findOwner? hsound.ordered hfound
  have hr : x.state = .ready scratch := by
    rw [hsnap] at hws
    exact Entry.snapshot_scratch_iff.mp hws
  let halts := [idle w (@Query.rest .upkeep), idle w (@Query.rest (.edit ws path.normalize text))]
  let w1 := { w with disk := (ws.applyEdit path.normalize text w.disk).1 }
  have hedit := tryEdit_reaches hx hr hfolder uri path.normalize text
  rw [← hsnap, hok] at hedit
  have hcopy : (copyEdit uri path.normalize text ws w).Reaches halts (.done w1 true) := hedit.bind _
  have hfolder' := (ws.applyEdit_keeps path.normalize text w.disk).isFolder hfolder
  obtain ⟨hs, trace, k, hrun, hidle⟩ := @tryRun_reaches uri w1 path ws x scratch request hpath hfound
    hx hr hfolder' (by rw [← hsnap]; exact hrequest)
  have hstart : ∃ k, (startFor (some uri) .compile .edit w1).Reaches hs
      (.ask { w1 with trace } (.start .compile request) k) := ⟨_, hrun.bind _⟩
  obtain ⟨k', hstart⟩ := hstart
  refine ⟨halts ++ hs, { w1 with trace }, k', ?_, ?_⟩
  . rw [documentChanged_of_owner hpath hfound]
    exact (hcopy.bind _).append hstart
  . intro h hh
    cases List.mem_append.mp hh with
    | inr hh => exact (hidle h hh).quiet
    | inl hh =>
      simp only [halts, List.mem_cons, List.not_mem_nil, or_false] at hh
      rcases hh with hh | hh
      all_goals
        rw [hh]
        exact idle_quiet w (by simp)

/-- When the copy is ready, the edit can be written and there is no compiler, the call comes to its
end. -/
theorem documentChanged_reaches_end {ws : Workspace} {scratch : Path}
    (hsound : w.registry.Sound w.rules) (hpath : Uri.toPath uri = .ok path)
    (hfound : w.registry.findOwner? path.normalize = some ws) (hws : ws.scratch = some scratch)
    (hfolder : w.disk.isFolder scratch = true)
    (hok : (ws.applyEdit path.normalize text w.disk).2 = .ok ()) :
    let disk := (ws.applyEdit path.normalize text w.disk).1
    ∃ hs trace, (documentChanged uri text w).Reaches hs (.done { w with disk, trace } none)
      ∧ ∀ h ∈ hs, (h.before = w ∨ ∃ trace, h.before = { w with disk, trace })
        ∧ h.after = h.before ∧ ∀ r, h.attempt? = some r → r = .ok () := by
  obtain ⟨x, hx, hsnap, _⟩ := Registry.of_findOwner? hsound.ordered hfound
  have hr : x.state = .ready scratch := by
    rw [hsnap] at hws
    exact Entry.snapshot_scratch_iff.mp hws
  let halts := [idle w (@Query.rest .upkeep), idle w (@Query.rest (.edit ws path.normalize text))]
  let w1 := { w with disk := (ws.applyEdit path.normalize text w.disk).1 }
  let w2 := w1.emit (.askSettings uri)
  let settings := Settings.merge none w.initial w.defaults
  let w3 := w2.emit (.checkTool settings)
  have hedit := tryEdit_reaches hx hr hfolder uri path.normalize text
  rw [← hsnap, hok] at hedit
  have hcopy : (copyEdit uri path.normalize text ws w).Reaches halts (.done w1 true) := hedit.bind _
  have hrun : (startFor (some uri) .compile .edit w1).Reaches
      [idle w2 (.settings uri), idle w3 (.checkTool settings)] (.done w3 none) := by
    have hfound1 : w1.registry.findOwner? path.normalize = some ws := hfound
    unfold startFor
    rw [bind_apply, tryRun_eq _ (runTarget_of_some hpath hfound1)]
    refine @Step.Reaches.resume _ _ _ _ _ none _ _ ?_
    exact @Step.Reaches.resume _ _ _ _ _ false _ _ (.refl _)
  refine ⟨halts ++ [idle w2 (.settings uri), idle w3 (.checkTool settings)], w3.trace, ?_, ?_⟩
  . rw [documentChanged_of_owner hpath hfound]
    exact (hcopy.bind _).append hrun
  . intro h hh
    simp only [halts, List.cons_append, List.nil_append, List.mem_cons, List.not_mem_nil,
      or_false] at hh
    rcases hh with hh | hh | hh | hh
    . rw [hh]
      exact ⟨.inl rfl, rfl, by simp [Halt.attempt?, idle]⟩
    . rw [hh]
      exact ⟨.inl rfl, rfl, by simp [Halt.attempt?, idle, hok]⟩
    . rw [hh]
      exact ⟨.inr ⟨w2.trace, rfl⟩, rfl, by simp [Halt.attempt?, idle]⟩
    . rw [hh]
      exact ⟨.inr ⟨w3.trace, rfl⟩, rfl, by simp [Halt.attempt?, idle]⟩

/-- When nobody else works on the copies, a run that a change of a document asks for compiles the copy
that the owner of the document has, and this copy holds the text of the document. If no attempt to
write the text succeeds, the job asks for no run, makes two attempts at most, and tells the user once,
or not at all when the document turns out to lie outside. -/
theorem edit_compiled_or_told_once {job : Job (Option Started)} {t : Step (Option Started)}
    (hsound : w.registry.Sound w.rules) (hjob : job = documentChanged uri text
      ∨ job = documentOpened uri text) (hr : (job w).Reaches hs t) (hq : ∀ h ∈ hs, h.Quiet) :
    (∀ v mode request k, t = .ask v (.start mode request) k →
        CompilesEdit uri text v mode request)
      ∧ ∀ v started, t = .done v started → (∀ r ∈ (ledger hs v).attempts, r ≠ .ok ()) →
        EndsUnwritten uri (ledger [] w) (ledger hs v) v started := by
  have halong : (job w).Along Halt.Quiet
      (fun _ v q => ∀ mode request, q = .start mode request → CompilesEdit uri text v mode request)
      (fun hs' v started => (∀ r ∈ (ledger hs' v).attempts, r ≠ .ok ()) →
        EndsUnwritten uri (ledger [] w) (ledger hs' v) v started) [] := by
    rcases hjob with hjob | hjob
    . rw [hjob]
      exact documentChanged_along hsound uri text rfl
    . rw [hjob]
      exact documentOpened_along hsound uri text rfl
  have hreached := halong.of_reaches hr hq
  rw [List.nil_append] at hreached
  constructor
  . intro v mode request k ht
    rw [ht] at hreached
    exact hreached.1 mode request rfl
  . intro v started ht
    rw [ht] at hreached
    exact hreached

def storyDisk : Disk :=
  ⟨[([bytesOf "v"], .folder), ([bytesOf "v", bytesOf "a.ink"], .file (bytesOf "old") false),
    ([bytesOf "s"], .folder), ([bytesOf "s", scratchName 0], .folder)], []⟩

def storyRules : CopyRules := ⟨.ofString "/s", .standard⟩

def storyWorkspace : Workspace := ⟨"/v", .ofString "/v", some (storyRules.scratchOf 0)⟩

def storyWorld : World :=
  { World.start storyDisk storyRules ⟨"a.ink", "inklecate", none⟩ with
    registry := ⟨[("/v", ⟨.ofString "/v", .ready (storyRules.scratchOf 0), 1⟩)]⟩ }

theorem storyWorld_get? {u : String} {e : Entry} (h : storyWorld.registry.get? u = some e) :
    u = "/v" ∧ e = ⟨.ofString "/v", .ready (storyRules.scratchOf 0), 1⟩ := by
  simp only [storyWorld, Registry.get?, lookup_cons_eq_ite, List.lookup_nil] at h
  split at h
  . next hu => exact ⟨hu, (Option.some.inj h).symm⟩
  . cases h

theorem storyWorld_sound : storyWorld.registry.Sound storyWorld.rules := by
  constructor
  . exact List.pairwise_singleton _ _
  . intro u e he
    rw [(storyWorld_get? he).2]
    decide
  . intro u e scratch he hs
    rw [(storyWorld_get? he).2] at hs ⊢
    rw [← CopyState.ready.inj hs]
    refine ⟨0, storyDisk, ?_⟩
    decide +kernel

theorem storyWorld_reaches_start :
    ∃ hs v request k,
      (documentChanged "/v/a.ink" "new" storyWorld).Reaches hs (.ask v (.start .compile request) k)
        ∧ ∀ h ∈ hs, h.Quiet := by
  have hpath : Uri.toPath "/v/a.ink" = .ok (.ofString "/v/a.ink") := by rfl
  have hnormal : (Path.ofString "/v/a.ink").normalize = .ofString "/v/a.ink" := by decide
  have hfound : storyWorld.registry.findOwner? (.ofString "/v/a.ink") = some storyWorkspace := by
    decide +kernel
  have hfolder : storyWorld.disk.isFolder (storyRules.scratchOf 0) = true := by decide +kernel
  have hok : (storyWorkspace.applyEdit (.ofString "/v/a.ink") "new" storyWorld.disk).2 = .ok () := by
    decide +kernel
  have hrequest : ∃ request, requestFor storyWorkspace
      (Settings.merge none storyWorld.initial storyWorld.defaults) = .ok request := ⟨_, by rfl⟩
  obtain ⟨request, hrequest⟩ := hrequest
  rw [← hnormal] at hfound hok
  obtain ⟨hs, v, k, hreaches, hquiet⟩ := documentChanged_reaches_start storyWorld_sound hpath hfound
    rfl hfolder hok hrequest
  exact ⟨hs, v, request, k, hreaches, hquiet⟩

/-- A document outside of all workspaces is not written anywhere. -/
theorem storyWorld_reaches_done :
    ∃ hs v, (documentOpened "/x/b.ink" "new" storyWorld).Reaches hs (.done v none)
      ∧ (∀ h ∈ hs, h.Quiet) ∧ ∀ r ∈ (ledger hs v).attempts, r ≠ .ok () := by
  have hpath : Uri.toPath "/x/b.ink" = .ok (.ofString "/x/b.ink") := by rfl
  have hfound : storyWorld.registry.findOwner? (Path.ofString "/x/b.ink").normalize = none := by
    decide +kernel
  let w1 : World :=
    { storyWorld with
      documents := setKey (Path.ofString "/x/b.ink").normalize "/x/b.ink" storyWorld.documents }
  let w2 := w1.emit .askFolders
  have hfound1 : w1.registry.findOwner? (Path.ofString "/x/b.ink").normalize = none := hfound
  refine ⟨[idle w2 .folders], w2, ?_, ?_, by simp [ledger, idle, Halt.attempt?]⟩
  . unfold documentOpened
    rw [hpath]
    change (documentChanged "/x/b.ink" "new" w1).Reaches _ _
    unfold documentChanged
    rw [hpath]
    dsimp only
    rw [bind_apply, owner?_eq, hfound1]
    exact @Step.Reaches.resume _ _ _ _ _ none _ _ (.refl _)
  . intro h hh
    rw [List.mem_singleton.mp hh]
    exact idle_quiet w2 (by simp)

theorem edit_compiled_story :
    (∃ hs v request k,
      (documentChanged "/v/a.ink" "new" storyWorld).Reaches hs (.ask v (.start .compile request) k)
        ∧ (∀ h ∈ hs, h.Quiet) ∧ CompilesEdit "/v/a.ink" "new" v .compile request)
      ∧ ∃ hs v, (documentOpened "/x/b.ink" "new" storyWorld).Reaches hs (.done v none)
        ∧ (∀ h ∈ hs, h.Quiet)
        ∧ EndsUnwritten "/x/b.ink" (ledger [] storyWorld) (ledger hs v) v none := by
  constructor
  . obtain ⟨hs, v, request, k, hreaches, hquiet⟩ := storyWorld_reaches_start
    obtain ⟨hcompiles, _⟩ := edit_compiled_or_told_once storyWorld_sound (.inl rfl) hreaches hquiet
    exact ⟨hs, v, request, k, hreaches, hquiet, hcompiles v _ request k rfl⟩
  . obtain ⟨hs, v, hreaches, hquiet, hnone⟩ := storyWorld_reaches_done
    obtain ⟨_, hends⟩ := edit_compiled_or_told_once storyWorld_sound (.inr rfl) hreaches hquiet
    exact ⟨hs, v, hreaches, hquiet, hends v none rfl hnone⟩

end Job

end InkServer
