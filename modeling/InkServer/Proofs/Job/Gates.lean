import InkServer.Proofs.Job.Account
import InkServer.Proofs.Job.Compile

/-!
This module contains the gates that a run passes before the runner is called: the URI is valid, a
workspace owns it, the compiler is there, the copy is ready and the main story lies inside.
-/

namespace InkServer

namespace World

theorem trace_work (w : World) (c : Caller) : (w.work c).1.trace = w.trace := by
  unfold work
  split
  . dsimp only
    split <;> rfl
  . rfl
  . rfl

theorem trace_workFirst (w : World) (cs : List Caller) : (w.workFirst cs).1.trace = w.trace := by
  induction cs with
  | nil => rfl
  | cons c cs ih =>
    unfold workFirst
    split
    . exact w.trace_work c
    . exact ih

theorem trace_workAll (w : World) (cs : List Caller) : (w.workAll cs).1.trace = w.trace := by
  induction cs generalizing w with
  | nil => rfl
  | cons c cs ih => exact (ih (w.work c).1).trans (w.trace_work c)

def adopt (w : World) : Option (List Folder) → World
  | none => w
  | some folders => { w with registry := w.registry.registerAll (folders.map Folder.uri) }

end World

def Phase.found? : Phase → Option Workspace
  | checking ws => some ws
  | telling (.ok ws) => some ws
  | done (.ok ws) => some ws
  | _ => none

namespace Caller

variable {c : Caller} {uri : String}

/-- What a caller comes upon is the workspace that it is for. -/
def Bears (c : Caller) (uri : String) : Prop :=
  c.uri = uri ∧ ∀ ws, c.phase.found? = some ws → ws.uri = uri

theorem Bears.advance (h : c.Bears uri) (r : Registry) (settles : Nat) :
    (c.advance r settles).1.Bears uri := by
  have hnone : ∀ {waited phase}, Phase.found? phase = none → Bears ⟨c.uri, waited, phase⟩ uri := by
    intro waited phase hphase
    refine ⟨h.1, fun ws hws => ?_⟩
    rw [hphase] at hws
    cases hws
  unfold Caller.advance
  split
  . have hd := r.nextStep_decides c.uri c.waited
    unfold look
    generalize r.nextStep c.uri c.waited = next at hd
    cases hd with
    | absent => exact hnone rfl
    | check => exact ⟨h.1, fun ws hws => by rw [← Option.some.inj hws]; exact h.1⟩
    | wait => exact hnone rfl
    | copy => exact hnone rfl
  . exact hnone rfl
  . exact hnone rfl
  . split <;> exact hnone rfl
  . split <;> exact hnone rfl
  . split
    . exact hnone rfl
    . exact h
  . exact h

theorem Bears.advances (h : c.Bears uri) (settles n : Nat) (r : Registry) :
    (c.advances settles n r).1.Bears uri := by
  induction n generalizing c r with
  | zero => exact h
  | succ n ih => exact ih (h.advance r settles) _

theorem Bears.work (h : c.Bears uri) (w : World) : (w.work c).2.Bears uri := by
  unfold World.work
  split
  . next ws hp =>
    have hws : ws.uri = uri := h.2 ws (by rw [hp]; rfl)
    unfold check
    cases ws.scratch with
    | none =>
      refine ⟨h.1, ?_⟩
      intro _ hfound
      cases hfound
    | some scratch =>
      cases hfolder : (some scratch).any w.disk.isFolder with
      | true => exact ⟨h.1, fun ws' hfound => by rw [← Option.some.inj hfound]; exact hws⟩
      | false =>
        refine ⟨h.1, ?_⟩
        intro _ hfound
        cases hfound
  . next root generation hp =>
    have hcommit : ∀ (r : Registry) result ws,
        (r.commit c.uri generation result).1 = .ok ws → ws.uri = uri := by
      intro r result ws hok
      unfold Registry.commit at hok
      split at hok
      . cases hok
      . split at hok
        . split at hok
          . rw [← Except.ok.inj hok]
            exact h.1
          . cases hok
        . split at hok
          . rw [← Except.ok.inj hok]
            exact h.1
          . cases hok
    refine ⟨h.1, fun ws hfound => ?_⟩
    unfold World.copyPass settle tell at hfound
    dsimp only at hfound
    generalize hr : w.registry.commit c.uri generation _ = committed at hfound
    rcases committed with ⟨_ | ready, r⟩
    . cases hfound
    . rw [← Option.some.inj hfound]
      exact hcommit _ _ ready (by rw [hr])
  . exact h

end Caller

namespace Job

variable {P : Effect → Prop} {uri : Option String} {w v z : World} {xs ys : List Stay}
  {ws ready : Workspace} {scope : String} {request : RunRequest} {settings : Settings}

theorem attend_adds (fuel : Nat) (cs : List Caller) (w : World) :
    (attend fuel cs w).Spans (World.Adds P) w := by
  induction fuel generalizing cs w with
  | zero => exact .of_eq (w.trace_workAll cs)
  | succ fuel ih =>
    rw [Flight.attend_succ]
    dsimp only
    split
    . refine ⟨.of_eq rfl, fun _ u => ?_⟩
      exact .after .trans (.of_eq (u.trace_workFirst _)) (ih _ _)
    . split
      . exact ⟨.of_eq rfl, fun _ u => ih _ _⟩
      . exact .of_eq rfl

theorem ensureReady_adds (uri : String) (w : World) : (ensureReady uri w).Spans (World.Adds P) w := by
  rw [ensureReady_eq]
  refine .bind .trans (.bind .trans (attend_adds _ _ w) ?_) ?_
  . exact fun _ v => World.Adds.refl v
  . exact fun _ v => World.Adds.refl v

theorem readyWorkspace_adds (ws : Workspace) (scope : String) (w : World) :
    (readyWorkspace ws scope w).Spans (World.Adds P) w := by
  refine (ensureReady_adds ws.uri w).bind .trans fun r v => ?_
  cases r with
  | ok ready => exact .refl v
  | error _ =>
    refine (ensureReady_adds ws.uri v).bind .trans fun r u => ?_
    cases r with
    | ok ready => exact .refl u
    | error cause => exact .refl u

theorem attend_bears {c : Caller} {uri : String} (fuel : Nat) (h : c.Bears uri) (w : World)
    (hs : List Halt) :
    (attend fuel [c] w).Along (fun _ => True) (fun _ _ _ => True)
      (fun _ _ cs => ∃ c', cs = [c'] ∧ c'.Bears uri) hs := by
  induction fuel generalizing c w hs with
  | zero => exact ⟨_, rfl, h.work w⟩
  | succ fuel ih =>
    rw [attend_one, Caller.move]
    have hmoved := h.advances w.settles 4 w.registry
    dsimp only
    split
    . exact ⟨trivial, fun _ u _ => ih (hmoved.work u) _ _⟩
    . split
      . exact ⟨trivial, fun _ u _ => ih hmoved _ _⟩
      . exact ⟨_, rfl, hmoved⟩

theorem ensureReady_bears (uri : String) (w : World) (hs : List Halt) :
    (ensureReady uri w).Along (fun _ => True) (fun _ _ _ => True)
      (fun _ _ r => ∀ ready, r = .ok ready → ready.uri = uri) hs := by
  have hstart : (Caller.start uri).Bears uri := by
    refine ⟨rfl, ?_⟩
    intro _ hfound
    cases hfound
  rw [ensureReady_eq]
  apply Step.along_bind
  apply Step.along_bind
  refine (attend_bears _ hstart w hs).mono (fun _ _ _ h => h) ?_
  rintro _ _ cs ⟨c, hcs, _, hfound⟩ ready hok
  rw [hcs] at hok
  refine hfound ready ?_
  have hresult : c.result = .ok ready := hok
  unfold Caller.result at hresult
  split at hresult
  . next hphase =>
    rw [hphase, hresult]
    rfl
  . cases hresult

theorem readyWorkspace_bears (ws : Workspace) (scope : String) (w : World) (hs : List Halt) :
    (readyWorkspace ws scope w).Along (fun _ => True) (fun _ _ _ => True)
      (fun _ _ r => ∀ ready, r = .ok ready → ready.uri = ws.uri) hs := by
  apply Step.along_bind
  refine (ensureReady_bears ws.uri w hs).mono (fun _ _ _ h => h) ?_
  intro hs' v r hr
  cases r with
  | ok ready => exact fun _ hok => hr _ (congrArg Except.ok (Except.ok.inj hok))
  | error _ =>
    apply Step.along_bind
    refine (ensureReady_bears ws.uri v hs').mono (fun _ _ _ h => h) ?_
    intro _ _ r hr
    cases r with
    | ok ready => exact fun _ hok => hr _ (congrArg Except.ok (Except.ok.inj hok))
    | error cause =>
      intro _ hok
      cases hok

/-- The workspace whose copy is ready is the one that was asked for. -/
theorem uri_of_readyWorkspace (h : (readyWorkspace ws scope w).Follows xs (.done z (.ok ready))) :
    ready.uri = ws.uri :=
  ((readyWorkspace_bears ws scope w []).of_reaches h.reaches fun _ _ => trivial) ready rfl

theorem refreshFolders_eq (w : World) :
    refreshFolders w
      =
    .ask (w.emit .askFolders) .folders fun folders u =>
      .done (u.adopt folders) (folders.any fun folders => !folders.isEmpty) := by
  refine congrArg (Step.ask _ _) ?_
  funext folders u
  cases folders with
  | none => rfl
  | some folders => rfl

theorem firstWorkspace?_eq (w : World) :
    firstWorkspace? w
      =
    match w.registry.workspaces with
    | ws :: _ => .done w (some ws)
    | [] =>
      .ask (w.emit .askFolders) .folders fun folders u =>
        .done (u.adopt folders) (u.adopt folders).registry.workspaces.head? := by
  have hrefresh := refreshFolders_eq w
  unfold firstWorkspace?
  dsimp only [bind, Job.bind, get, Step.bind]
  cases w.registry.workspaces with
  | cons ws rest => rfl
  | nil => exact congrArg (Step.bind _) hrefresh

/-- The workspace that a run is for and the scope of its settings, and how they are found: the
workspace owns the URI or is the first one, at once or after the editor reported its folders. -/
inductive Finds (w : World) : Option String → List Stay → World → Workspace → String → Prop where
  | owner {uri : String} {path : Path} {ws : Workspace} (hpath : Uri.toPath uri = .ok path)
    (h : w.registry.findOwner? path.normalize = some ws) : Finds w (some uri) [] w ws uri
  | reportedOwner {uri : String} {path : Path} {ws : Workspace} {u : World} {folders : List Folder}
    (hpath : Uri.toPath uri = .ok path) (hnone : w.registry.findOwner? path.normalize = none)
    (hne : folders ≠ [])
    (h : (u.adopt (some folders)).registry.findOwner? path.normalize = some ws) :
    Finds w (some uri) [⟨⟨w.emit .askFolders, .folders, u⟩, some folders⟩] (u.adopt (some folders))
      ws uri
  | first {ws : Workspace} (h : w.registry.workspaces.head? = some ws) : Finds w none [] w ws ws.uri
  | reportedFirst {ws : Workspace} {u : World} {folders : Option (List Folder)}
    (hnone : w.registry.workspaces = [])
    (h : (u.adopt folders).registry.workspaces.head? = some ws) :
    Finds w none [⟨⟨w.emit .askFolders, .folders, u⟩, folders⟩] (u.adopt folders) ws ws.uri

def targetOf (what : String) (scope : Workspace → String) :
    Option Workspace → Except RunError (Workspace × String)
  | some ws => .ok (ws, scope ws)
  | none => .error (.noWorkspace what)

theorem runTarget_some_eq {u : String} {path : Path} (hpath : Uri.toPath u = .ok path) (w : World) :
    runTarget (some u) w
      =
    match w.registry.findOwner? path.normalize with
    | some ws => .done w (.ok (ws, u))
    | none =>
      .ask (w.emit .askFolders) .folders fun folders v =>
        .done (v.adopt folders) (targetOf u (fun _ => u)
          (if folders.any fun folders => !folders.isEmpty then
            (v.adopt folders).registry.findOwner? path.normalize else none)) := by
  unfold runTarget
  simp only [hpath]
  rw [bind_apply, owner?_eq]
  cases w.registry.findOwner? path.normalize with
  | some ws => rfl
  | none =>
    dsimp only
    rw [refreshFolders_eq]
    refine congrArg (Step.ask _ _) ?_
    funext folders v
    dsimp only [Step.bind]
    generalize (if folders.any fun folders => !folders.isEmpty then _ else none) = owner
    cases owner with
    | some ws => rfl
    | none => rfl

theorem runTarget_none_eq (w : World) :
    runTarget none w
      =
    match w.registry.workspaces with
    | ws :: _ => .done w (.ok (ws, ws.uri))
    | [] =>
      .ask (w.emit .askFolders) .folders fun folders u =>
        .done (u.adopt folders) (targetOf "the default story" Workspace.uri
          (u.adopt folders).registry.workspaces.head?) := by
  unfold runTarget
  dsimp only
  rw [bind_apply, firstWorkspace?_eq]
  cases w.registry.workspaces with
  | cons ws rest => rfl
  | nil =>
    dsimp only
    refine congrArg (Step.ask _ _) ?_
    funext folders u
    dsimp only [Step.bind]
    generalize (u.adopt folders).registry.workspaces.head? = first
    cases first with
    | some ws => rfl
    | none => rfl

theorem targetOf_eq_ok {what : String} {scope : Workspace → String} {found : Option Workspace}
    {target : Workspace × String} (h : targetOf what scope found = .ok target) :
    found = some target.1 ∧ target.2 = scope target.1 := by
  cases found with
  | none => cases h
  | some ws =>
    rw [← Except.ok.inj h]
    exact ⟨rfl, rfl⟩

theorem Finds.of_follows (h : (runTarget uri w).Follows xs (.done v (.ok (ws, scope)))) :
    Finds w uri xs v ws scope := by
  cases uri with
  | none =>
    rw [runTarget_none_eq] at h
    cases hfirst : w.registry.workspaces with
    | cons first rest =>
      rw [hfirst] at h
      obtain ⟨hxs, hdone⟩ := h.of_done
      injection hdone with hv hr
      injection hr with hr
      injection hr with hws hscope
      rw [hxs, hv, hscope, hws]
      exact .first (by rw [hfirst]; rfl)
    | nil =>
      rw [hfirst] at h
      cases h with
      | @resume _ u _ _ folders _ _ h =>
        obtain ⟨hxs, hdone⟩ := h.of_done
        injection hdone with hv hr
        obtain ⟨hfound, hscope⟩ := targetOf_eq_ok hr.symm
        dsimp only at hscope
        rw [hxs, hv, hscope]
        exact .reportedFirst hfirst hfound
  | some text =>
    cases hpath : Uri.toPath text with
    | error e =>
      unfold runTarget at h
      simp only [hpath] at h
      cases h.of_done.2
    | ok path =>
      rw [runTarget_some_eq hpath] at h
      cases howner : w.registry.findOwner? path.normalize with
      | some owner =>
        rw [howner] at h
        obtain ⟨hxs, hdone⟩ := h.of_done
        injection hdone with hv hr
        injection hr with hr
        injection hr with hws hscope
        rw [hxs, hv, hscope, hws]
        exact .owner hpath howner
      | none =>
        rw [howner] at h
        cases h with
        | @resume _ u _ _ folders _ _ h =>
          obtain ⟨hxs, hdone⟩ := h.of_done
          injection hdone with hv hr
          obtain ⟨hfound, hscope⟩ := targetOf_eq_ok hr.symm
          dsimp only at hscope hfound
          rw [hxs, hv, hscope]
          split at hfound
          . next hany =>
            cases folders with
            | none => cases hany
            | some folders => exact .reportedOwner hpath howner (by simpa using hany) hfound
          . cases hfound

theorem Finds.follows (h : Finds w uri xs v ws scope) :
    (runTarget uri w).Follows xs (.done v (.ok (ws, scope))) := by
  cases h with
  | owner hpath h =>
    rw [runTarget_some_eq hpath, h]
    exact .refl _
  | @reportedOwner _ path _ u folders hpath hnone hne h =>
    rw [runTarget_some_eq hpath, hnone]
    have hany : (some folders).any (fun folders => !folders.isEmpty) = true := by
      simpa using hne
    refine .resume ?_
    rw [if_pos hany, h]
    exact .refl _
  | first h =>
    rw [runTarget_none_eq]
    cases hws : w.registry.workspaces with
    | nil =>
      rw [hws] at h
      cases h
    | cons first rest =>
      rw [hws] at h
      rw [Option.some.inj h]
      exact .refl _
  | reportedFirst hnone h =>
    rw [runTarget_none_eq, hnone]
    refine .resume ?_
    rw [h]
    exact .refl _

theorem runTarget_error_ne {e : RunError} (h : (runTarget uri w).Follows xs (.done v (.error e))) :
    e ≠ .toolUnavailable := by
  have htarget : ∀ {what scope found}, targetOf what scope found = .error e → e ≠ .toolUnavailable := by
    intro what scope found hfound
    cases found with
    | some ws => cases hfound
    | none =>
      rw [← Except.error.inj hfound]
      simp
  cases uri with
  | none =>
    rw [runTarget_none_eq] at h
    split at h
    . cases h.of_done.2
    . cases h with
      | resume h =>
        injection h.of_done.2 with _ hr
        exact htarget hr.symm
  | some text =>
    cases hpath : Uri.toPath text with
    | error cause =>
      unfold runTarget at h
      simp only [hpath] at h
      injection h.of_done.2 with _ hr
      injection hr with hr
      rw [hr]
      simp
    | ok path =>
      rw [runTarget_some_eq hpath] at h
      split at h
      . cases h.of_done.2
      . cases h with
        | resume h =>
          injection h.of_done.2 with _ hr
          exact htarget hr.symm

theorem runTarget_adds (uri : Option String) (w : World) :
    (runTarget uri w).Spans (World.Adds fun e => e.isQuestion) w := by
  have hadopt : ∀ (u : World) folders, u.Adds (fun e => e.isQuestion = true) (u.adopt folders) := by
    intro u folders
    cases folders with
    | none => exact .refl u
    | some folders => exact .of_eq rfl
  cases uri with
  | none =>
    rw [runTarget_none_eq]
    split
    . exact World.Adds.refl w
    . exact ⟨.emit w rfl, fun folders u => hadopt u folders⟩
  | some text =>
    cases hpath : Uri.toPath text with
    | error e =>
      unfold runTarget
      simp only [hpath]
      exact World.Adds.refl w
    | ok path =>
      rw [runTarget_some_eq hpath]
      split
      . exact World.Adds.refl w
      . exact ⟨.emit w rfl, fun folders u => hadopt u folders⟩

def callRunner (mode : Mode) : Except RunError (Workspace × RunRequest) → Job (Except RunError Started)
  | .error e => pure (.error e)
  | .ok (ready, request) => launch ready mode request

def laterGates : Except RunError (Workspace × String) → Job (Except RunError (Workspace × RunRequest))
  | .error e, w => .done w (.error e)
  | .ok (ws, scope), w =>
    .ask (w.emit (.askSettings scope)) (.settings scope) fun tier a =>
      let settings := Settings.merge tier a.initial a.defaults
      .ask (a.emit (.checkTool settings)) (.checkTool settings) fun available b =>
        if available then
          (readyWorkspace ws scope b).bind fun r z =>
            .done z (r.bind fun ready => (requestFor ready settings).map (ready, ·))
        else
          .done b (.error .toolUnavailable)

/-- The part of a run before the runner is called: it comes to the workspace with its copy ready and
to the request. -/
def gates (uri : Option String) : Job (Except RunError (Workspace × RunRequest)) :=
  runTarget uri >>= laterGates

theorem tryRun_eq_gates (uri : Option String) (mode : Mode) (w : World) :
    tryRun uri mode w = (gates uri w).bind fun r v => callRunner mode r v := by
  rw [gates, bind_apply, Step.bind_bind]
  refine congrArg ((runTarget uri w).bind ·) ?_
  funext target v
  rcases target with e | ⟨ws, scope⟩
  . rfl
  . refine congrArg (Step.ask _ _) ?_
    funext tier a
    refine congrArg (Step.ask _ _) ?_
    funext available b
    cases available with
    | false => rfl
    | true =>
      dsimp only
      rw [if_pos rfl, Step.bind_bind]
      refine congrArg ((readyWorkspace ws scope b).bind ·) ?_
      funext r z
      cases r with
      | error e => rfl
      | ok ready =>
        dsimp only [Except.bind, Step.bind]
        cases requestFor ready (Settings.merge tier a.initial a.defaults) with
        | error e => rfl
        | ok request => rfl

theorem requestFor_eq_ok_iff :
    requestFor ready settings = .ok request
      ↔
    ∃ scratch rel, ready.scratch = some scratch
      ∧ (ready.root.join (.ofString settings.mainStory)).normalize.relativeTo? ready.root = some rel
      ∧ request = ⟨settings, scratch.join rel,
          (ready.root.join (.ofString settings.mainStory)).normalize⟩ := by
  unfold requestFor Workspace.scratchPathFor?
  dsimp only
  cases ready.scratch with
  | none => simp
  | some scratch =>
    cases (ready.root.join (.ofString settings.mainStory)).normalize.relativeTo? ready.root with
    | none => simp
    | some rel => simp [eq_comm]

/-- The way through all the gates: a workspace is found, the compiler is there with the merged settings,
the copy of the workspace is ready and the main story lies inside. -/
inductive Passes (w : World) (uri : Option String) : List Stay → Workspace → RunRequest → Prop where
  | mk {found made : List Stay} {v a b z : World} {ws ready : Workspace} {scope : String}
    {tier : Option SettingsTier} {settings : Settings} {scratch rel : Path}
    (hfinds : Finds w uri found v ws scope)
    (hsettings : settings = Settings.merge tier a.initial a.defaults)
    (hready : (readyWorkspace ws scope b).Follows made (.done z (.ok ready)))
    (hws : ready.uri = ws.uri) (hscratch : ready.scratch = some scratch)
    (hinside : (ready.root.join (.ofString settings.mainStory)).normalize.relativeTo? ready.root
      = some rel) :
    Passes w uri
      (found ++ ⟨⟨v.emit (.askSettings scope), .settings scope, a⟩, tier⟩
        :: ⟨⟨a.emit (.checkTool settings), .checkTool settings, b⟩, true⟩ :: made) ready
      ⟨settings, scratch.join rel, (ready.root.join (.ofString settings.mainStory)).normalize⟩

/-- A workspace is found, but the compiler is not there with the merged settings. -/
inductive Lacks (w : World) (uri : Option String) : List Stay → Prop where
  | mk {found : List Stay} {v a b : World} {ws : Workspace} {scope : String}
    {tier : Option SettingsTier} {settings : Settings} (hfinds : Finds w uri found v ws scope)
    (hsettings : settings = Settings.merge tier a.initial a.defaults) :
    Lacks w uri
      (found ++ [⟨⟨v.emit (.askSettings scope), .settings scope, a⟩, tier⟩,
        ⟨⟨a.emit (.checkTool settings), .checkTool settings, b⟩, false⟩])

theorem Passes.follows (h : Passes w uri xs ready request) :
    ∃ z, (gates uri w).Follows xs (.done z (.ok (ready, request))) := by
  cases h with
  | @mk found made v a b z ws ready scope tier settings scratch rel hfinds hsettings hready _ hscratch
      hinside =>
    subst hsettings
    have hrequest := requestFor_eq_ok_iff.mpr ⟨scratch, rel, hscratch, hinside, rfl⟩
    have hlast := hready.bind fun r z => Step.done z (r.bind fun ready =>
      (requestFor ready (Settings.merge tier a.initial a.defaults)).map (ready, ·))
    rw [Step.bind_done] at hlast
    dsimp only [Except.bind] at hlast
    rw [hrequest] at hlast
    exact ⟨z, (hfinds.follows.bind _).append (.resume (.resume hlast))⟩

theorem Lacks.follows (h : Lacks w uri xs) :
    ∃ z, (gates uri w).Follows xs (.done z (.error .toolUnavailable)) := by
  cases h with
  | mk hfinds hsettings =>
    subst hsettings
    exact ⟨_, (hfinds.follows.bind _).append (.resume (.resume (.refl _)))⟩

theorem readyWorkspace_error_ne {e : RunError}
    (h : (readyWorkspace ws scope w).Follows xs (.done v (.error e))) : e ≠ .toolUnavailable := by
  obtain ⟨_, _, u, r, _, _, hrest⟩ := Step.Follows.bind_done h
  cases r with
  | ok ready => cases hrest.of_done.2
  | error _ =>
    obtain ⟨_, _, u', r, _, _, hrest⟩ := Step.Follows.bind_done hrest
    cases r with
    | ok ready => cases hrest.of_done.2
    | error cause =>
      injection hrest.of_done.2 with _ hr
      injection hr with hr
      rw [hr]
      simp

theorem gates_cases {r : Except RunError (Workspace × RunRequest)}
    (h : (gates uri w).Follows xs (.done z r)) :
    (∃ e, r = .error e ∧ (e = .toolUnavailable → Lacks w uri xs))
      ∨ ∃ ready request, r = .ok (ready, request) ∧ Passes w uri xs ready request := by
  obtain ⟨found, later, v, target, hxs, hfound, hlater⟩ := Step.Follows.bind_done h
  rcases target with e | ⟨ws, scope⟩
  . injection hlater.of_done.2 with _ hr
    exact .inl ⟨e, hr, fun heq => absurd heq (runTarget_error_ne hfound)⟩
  . have hfinds := Finds.of_follows hfound
    cases hlater with
    | @resume _ a _ _ tier _ _ hlater =>
      cases hlater with
      | @resume _ b _ _ available made _ hlater =>
        cases available with
        | false =>
          obtain ⟨hnil, hdone⟩ := hlater.of_done
          injection hdone with _ hr
          rw [hxs, hnil]
          exact .inl ⟨_, hr, fun _ => .mk hfinds rfl⟩
        | true =>
          obtain ⟨made', rest, u, r', hmade, hready, hlast⟩ := Step.Follows.bind_done hlater
          obtain ⟨hnil, hdone⟩ := hlast.of_done
          injection hdone with _ hr
          rw [hnil, List.append_nil] at hmade
          cases r' with
          | error e => exact .inl ⟨e, hr, fun heq => absurd heq (readyWorkspace_error_ne hready)⟩
          | ok ready =>
            dsimp only [Except.bind] at hr
            cases hrequest : requestFor ready (Settings.merge tier a.initial a.defaults) with
            | error e =>
              rw [hrequest] at hr
              refine .inl ⟨e, hr, fun heq => ?_⟩
              unfold requestFor at hrequest
              dsimp only at hrequest
              split at hrequest
              . cases hrequest
              . rw [← Except.error.inj hrequest] at heq
                cases heq
            | ok request =>
              rw [hrequest] at hr
              obtain ⟨scratch, rel, hscratch, hinside, hrequest⟩ := requestFor_eq_ok_iff.mp hrequest
              refine .inr ⟨ready, request, hr, ?_⟩
              rw [hxs, hmade, hrequest]
              exact .mk hfinds rfl hready (uri_of_readyWorkspace hready) hscratch hinside

theorem laterGates_adds (target : Except RunError (Workspace × String)) (w : World) :
    (laterGates target w).Spans (World.Adds fun e => e.isQuestion) w := by
  rcases target with e | ⟨ws, scope⟩
  . exact World.Adds.refl w
  . refine ⟨.emit w rfl, fun tier a => ⟨.emit a rfl, fun available b => ?_⟩⟩
    cases available with
    | false => exact World.Adds.refl b
    | true => exact (readyWorkspace_adds ws scope b).bind .trans fun _ z => World.Adds.refl z

/-- Before the runner is called, nothing is recorded but questions. -/
theorem gates_adds (uri : Option String) (w : World) :
    (gates uri w).Spans (World.Adds fun e => e.isQuestion) w :=
  (runTarget_adds uri w).bind .trans laterGates_adds

end Job

end InkServer
