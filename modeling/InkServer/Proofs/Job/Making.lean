import InkServer.Proofs.Job.Course
import InkServer.Proofs.Publication.Lists
import InkServer.Service.Documents

/-!
This module contains what the jobs of the service are made of. Whatever its parts keep, a job keeps
between two stops.
-/

namespace InkServer

/-- The effect is neither a publication nor one of the connection itself. -/
def Effect.isOrdinary : Effect → Bool
  | publish _ _ => false
  | send _ => false
  | hangUp => false
  | _ => true

def Query.isOrdinary : Query → Bool
  | settled _ => false
  | _ => true

/-- The caller is about to look at the entry, or it has its result. -/
def Caller.isFresh (c : Caller) : Bool :=
  match c.phase with
  | .looking => true
  | .done _ => true
  | _ => false

namespace World

/-- The state without a workspace and without the record of what was published for it. -/
def without (w : World) (uri : String) : World :=
  { w with
    registry := w.registry.forget uri
    settles := w.settles + 1
    published := eraseKey uri w.published }

/-- The changes that jobs make besides their work on copies. Workspaces in `gone` may be forgotten. -/
inductive Alters (gone : List String) : World → World → Prop where
  | refl (w : World) : Alters gone w w
  | trans {w v u : World} (h : Alters gone w v) (h' : Alters gone v u) : Alters gone w u
  | emit (w : World) {e : Effect} (h : e.isOrdinary = true) : Alters gone w (w.emit e)
  | keep (w : World) (disk : Disk) (initial : Option SettingsTier)
    (deliveries : List (Nat × Delivery)) : Alters gone w { w with disk, initial, deliveries }
  | openDocument (w : World) {uri : String} {path : Path} (h : Uri.toPath uri = .ok path) :
    Alters gone w { w with documents := setKey path.normalize uri w.documents }
  | closeDocument (w : World) (path : Path) :
    Alters gone w { w with documents := eraseKey path w.documents }
  | register (w : World) {uri : String} {ws : Workspace} {registry : Registry}
    (h : w.registry.register uri = .ok (ws, registry)) : Alters gone w { w with registry }
  | markStale (w : World) (uri : String) (scratch : Path) :
    Alters gone w { w with registry := w.registry.markStale uri scratch }
  | without (w : World) {uri : String} (h : uri ∈ gone) : Alters gone w (w.without uri)

variable {gone : List String}

theorem alters_registerAll (w : World) (uris : List String) :
    Alters gone w { w with registry := w.registry.registerAll uris } := by
  unfold Registry.registerAll
  induction uris generalizing w with
  | nil => exact .refl w
  | cons uri uris ih =>
    rw [List.foldl_cons]
    split
    . next registry hr => exact .trans (.register w hr) (ih { w with registry })
    . exact ih w

theorem alters_enrollAll (w : World) (cs : List Caller) (uris : List String) :
    Alters gone w (uris.foldl (fun (w, cs) uri => w.enroll cs uri) (w, cs)).1 := by
  induction uris generalizing w cs with
  | nil => exact .refl w
  | cons uri uris ih =>
    rw [List.foldl_cons]
    refine .trans ?_ (ih _ _)
    split
    . next hr => exact .register w hr
    . exact .refl w

theorem isFresh_enrollAll (w : World) {cs : List Caller} (h : ∀ c ∈ cs, c.isFresh = true)
    (uris : List String) :
    ∀ c ∈ (uris.foldl (fun (w, cs) uri => w.enroll cs uri) (w, cs)).2, c.isFresh = true := by
  induction uris generalizing w cs with
  | nil => exact h
  | cons uri uris ih =>
    rw [List.foldl_cons]
    apply ih
    intro c hc
    split at hc
    . rcases List.mem_append.mp hc with hc | hc
      . exact h c hc
      . rw [List.mem_singleton.mp hc]
        rfl
    . rcases List.mem_append.mp hc with hc | hc
      . exact h c hc
      . rw [List.mem_singleton.mp hc]
        rfl

end World

namespace Job

/-- The job is put together from changes, queries and the waiting for copies. -/
inductive Made (gone : List String) : {α : Type} → Job α → Prop where
  | pure {α : Type} (a : α) : Made gone (Pure.pure a)
  | get : Made gone Job.get
  | update {α : Type} {f : World → World × α} (h : ∀ w : World, w.Alters gone (f w).1) :
    Made gone (Job.update f)
  | query (q : Query) (h : q.isOrdinary = true) : Made gone (Job.query q)
  /-- Callers that have not begun are attended to. -/
  | attend {f : World → World × List Caller} (h : ∀ w : World, w.Alters gone (f w).1)
    (hfresh : ∀ w, ∀ c ∈ (f w).2, c.isFresh = true) (fuel : Nat) :
    Made gone (Job.update f >>= Job.attend fuel)
  | bind {α β : Type} {job : Job α} {f : α → Job β} (h : Made gone job)
    (hf : ∀ a, Made gone (f a)) : Made gone (job >>= f)

variable {α β : Type} {gone : List String}

theorem made_modify {f : World → World} (h : ∀ w : World, w.Alters gone (f w)) : (modify f).Made gone :=
  @Made.update gone Unit (fun w => (f w, ())) h

theorem made_emit {e : Effect} (h : e.isOrdinary = true) : (emit e).Made gone :=
  made_modify fun w => .emit w h

theorem made_ensureReady (uri : String) : (ensureReady uri).Made gone := by
  have hfresh : ∀ c ∈ [Caller.start uri], c.isFresh = true := by
    intro c hc
    rw [List.mem_singleton.mp hc]
    rfl
  have hattend : (attend (attendFuel 1) [Caller.start uri]).Made gone :=
    (Made.attend (fun w => .refl w) (fun _ => hfresh) (attendFuel 1) :
      (update (fun w => (w, [Caller.start uri])) >>= attend (attendFuel 1)).Made gone)
  exact .bind (.bind hattend fun _ => .pure _) fun _ => .pure _

theorem made_copyWorkspaces (uris : List String) : (copyWorkspaces uris).Made gone := by
  have hattend := @Made.attend gone _ (fun w => w.alters_enrollAll [] uris)
    (fun w => w.isFresh_enrollAll (by simp) uris) (attendFuel uris.length)
  have hmade := Made.bind hattend fun cs => .pure (cs.map fun c => (c.uri, c.result))
  exact hmade

theorem made_addFolders (uris : List String) : (addFolders uris).Made gone :=
  made_modify fun w => w.alters_registerAll uris

theorem made_refreshFolders : refreshFolders.Made gone := by
  refine .bind (.bind (made_emit rfl) fun _ => .query _ rfl) fun folders => ?_
  cases folders with
  | none => exact .pure _
  | some folders => exact .bind (made_addFolders _) fun _ => .pure _

theorem made_owner? (p : Path) : (owner? p).Made gone := by
  refine .bind .get fun w => ?_
  split
  . exact .pure _
  . refine .bind made_refreshFolders fun found => ?_
    split
    . exact .bind .get fun _ => .pure _
    . exact .pure _

theorem made_firstWorkspace? : firstWorkspace?.Made gone := by
  refine .bind .get fun w => ?_
  split
  . exact .pure _
  . exact .bind made_refreshFolders fun _ => .bind .get fun _ => .pure _

theorem made_readyWorkspace (ws : Workspace) (document : String) :
    (readyWorkspace ws document).Made gone := by
  refine .bind (made_ensureReady _) fun result => ?_
  cases result with
  | ok ready => exact .pure _
  | error e =>
    refine .bind (made_ensureReady _) fun result => ?_
    cases result with
    | ok ready => exact .pure _
    | error e => exact .pure _

theorem made_runTarget (uri : Option String) : (runTarget uri).Made gone := by
  cases uri with
  | some uri =>
    unfold runTarget
    dsimp only
    split
    . exact .pure _
    . refine .bind (made_owner? _) fun found => ?_
      cases found with
      | some ws => exact .pure _
      | none => exact .pure _
  | none =>
    refine .bind made_firstWorkspace? fun found => ?_
    cases found with
    | some ws => exact .pure _
    | none => exact .pure _

theorem made_stop : stop.Made gone :=
  .bind (made_emit rfl) fun _ => .bind (.query _ rfl) fun _ => .pure _

theorem made_startRun (mode : Mode) (request : RunRequest) :
    (startRun mode request).Made gone :=
  .bind (made_emit rfl) fun _ => .query _ rfl

theorem made_startAndDeliver (ws : Workspace) (mode : Mode) (request : RunRequest) :
    (do
      match ← startRun mode request with
      | .error e => pure (.error (.start e))
      | .ok generation =>
        modify fun w =>
          { w with deliveries := w.deliveries ++ [(generation, Delivery.start ws mode)] }
        pure (.ok ⟨generation, mode⟩) : Job (Except RunError Started)).Made gone := by
  refine .bind (made_startRun mode request) fun result => ?_
  cases result with
  | error e => exact .pure _
  | ok generation =>
    exact .bind (made_modify fun w => .keep w _ _ _) fun _ => .pure _

theorem made_launch (ws : Workspace) (mode : Mode) (request : RunRequest) :
    (launch ws mode request).Made gone := by
  -- A run to play differs only in what goes before.
  cases mode with
  | compile => exact made_startAndDeliver ws .compile request
  | play => exact .bind made_stop fun _ => made_startAndDeliver ws .play request

theorem made_tryRun (uri : Option String) (mode : Mode) : (tryRun uri mode).Made gone := by
  refine .bind (made_runTarget uri) fun target => ?_
  cases target with
  | error e => exact .pure _
  | ok target =>
    refine .bind (.bind (.bind (made_emit rfl) fun _ => .query _ rfl) fun _ =>
      .bind .get fun _ => .pure _) fun settings => ?_
    refine .bind (.bind (made_emit rfl) fun _ => .query _ rfl) fun found => ?_
    split
    . refine .bind (made_readyWorkspace _ _) fun ready => ?_
      cases ready with
      | error e => exact .pure _
      | ok ready =>
        dsimp only
        split
        . exact .pure _
        . exact made_launch _ _ _
    . exact .pure _

theorem made_startFor (uri : Option String) (mode : Mode) (trigger : Trigger) :
    (startFor uri mode trigger).Made gone := by
  refine .bind (made_tryRun uri mode) fun result => ?_
  cases result with
  | ok started => exact .pure _
  | error e =>
    dsimp only
    split
    . exact .pure _
    . exact .bind (made_emit rfl) fun _ => .pure _

theorem made_tryEdit (uri : String) (path : Path) (text : String) (ws : Workspace) :
    (tryEdit uri path text ws).Made gone := by
  refine .bind (made_readyWorkspace ws uri) fun ready => ?_
  cases ready with
  | error e => exact .bind (made_emit rfl) fun _ => .pure _
  | ok ready =>
    refine .bind (.query _ rfl) fun _ => .bind (.update fun w => ?_) fun result => ?_
    . exact .keep w _ _ _
    . split
      . exact .pure _
      . exact .pure _
      . exact .pure _

theorem made_copyEdit (uri : String) (path : Path) (text : String) (ws : Workspace) :
    (copyEdit uri path text ws).Made gone := by
  refine .bind (made_tryEdit uri path text ws) fun attempt => ?_
  cases attempt with
  | written => exact .pure _
  | refused => exact .pure _
  | fault ready =>
    refine .bind (made_modify fun w => ?_) fun _ =>
      .bind (made_tryEdit uri path text ws) fun attempt => ?_
    . split
      . exact .markStale w _ _
      . exact .refl w
    . cases attempt with
      | written => exact .pure _
      | refused => exact .pure _
      | fault again => exact .bind (made_emit rfl) fun _ => .pure _

theorem made_documentChanged (uri text : String) : (documentChanged uri text).Made gone := by
  unfold documentChanged
  split
  . exact .pure _
  . refine .bind (made_owner? _) fun found => ?_
    cases found with
    | none => exact .pure _
    | some ws =>
      refine .bind (made_copyEdit _ _ _ _) fun written => ?_
      split
      . exact made_startFor _ _ _
      . exact .pure _

theorem made_documentOpened (uri text : String) : (documentOpened uri text).Made gone := by
  unfold documentOpened
  split
  . exact .pure _
  . next hpath =>
    refine .bind (made_modify fun w => ?_) fun _ => made_documentChanged uri text
    exact .openDocument w hpath

theorem made_documentClosed (uri : String) : (documentClosed uri).Made gone := by
  unfold documentClosed
  split
  . exact .pure _
  . refine .bind (made_modify fun w => .closeDocument w _) fun _ =>
      .bind .get fun w => ?_
    split
    . exact .pure _
    . split
      . refine .bind (.query _ rfl) fun _ => made_modify fun w => ?_
        split <;> exact .keep w _ _ _
      . exact .pure _

theorem made_fileChanged (change : FileChange) : (fileChanged change).Made gone := by
  unfold fileChanged
  split
  . exact .pure _
  . refine .bind .get fun w => ?_
    split
    . exact .pure _
    . split
      . split
        . exact .bind (.query _ rfl) fun _ => made_modify fun w => .keep w _ _ _
        . split
          . exact .pure _
          . exact .bind (.query _ rfl) fun _ => made_modify fun w => .keep w _ _ _
      . exact .pure _

theorem made_filesChanged (changes : List FileChange) : (filesChanged changes).Made gone := by
  induction changes with
  | nil => exact .pure _
  | cons change changes ih => exact .bind (made_fileChanged change) fun _ => ih

theorem made_copyAllWorkspaces : copyAllWorkspaces.Made gone := by
  refine .bind .get fun w => ?_
  have hcopy : (do
      let w ← Job.get
      let _ ← copyWorkspaces (w.registry.entries.map Prod.fst)).Made gone :=
    .bind .get fun w => .bind (made_copyWorkspaces _) fun _ => .pure _
  dsimp only
  split
  . exact .bind made_refreshFolders fun _ => hcopy
  . exact hcopy

theorem made_submit (index : Nat) : (submit index).Made gone :=
  .bind (made_emit rfl) fun _ => .bind (.query _ rfl) fun _ => .pure _

theorem made_executeCommand (name : String) (args : List Json) :
    (executeCommand name args).Made gone := by
  unfold executeCommand
  split
  . exact .pure _
  . split
    . exact .pure _
    . exact .bind (made_startFor _ _ _) fun _ => .pure _
  . split
    . exact .pure _
    . exact .bind (made_startFor _ _ _) fun _ => .pure _
  . split
    . exact .pure _
    . exact .bind (made_submit _) fun _ => .pure _
  . exact .bind made_stop fun _ => .pure _

/-- Take away the scratch folder of a workspace that was forgotten, if it has one. -/
def discardScratch (scratch : Option Path) : Job Unit :=
  match scratch with
  | some scratch => do
    rest .upkeep
    modify fun w =>
      match w.disk.removeTree scratch with
      | .ok disk => { w with disk }
      | .error _ => w
  | none => pure ()

theorem made_discardScratch (scratch : Option Path) : (discardScratch scratch).Made gone := by
  cases scratch with
  | none => exact .pure _
  | some scratch =>
    refine .bind (.query _ rfl) fun _ => made_modify fun w => ?_
    split
    . exact .keep w _ _ _
    . exact .refl w

theorem folderRemoved_eq (uri : String) (w : World) :
    folderRemoved uri w
      =
    if (w.registry.get? uri).isSome then
      discardScratch ((w.registry.workspace? uri).bind Workspace.scratch) (w.without uri)
    else
      .done w () := by
  unfold folderRemoved
  simp only [bind_apply, get, Step.bind_done, forget, update]
  split
  . next h =>
    simp only [if_true, bind_apply, modify, Step.bind_done]
    rfl
  . rfl

theorem made_folderRemoved {uri : String} (h : uri ∈ gone) : (folderRemoved uri).Made gone := by
  have heq : folderRemoved uri = (do
      let w ← Job.get
      if (w.registry.get? uri).isSome then do
        modify fun w => w.without uri
        discardScratch ((w.registry.workspace? uri).bind Workspace.scratch)
      else
        pure ()) := by
    funext w
    rw [folderRemoved_eq]
    simp only [bind_apply, get, Step.bind_done]
    split
    . rfl
    . rfl
  rw [heq]
  refine .bind .get fun w => ?_
  split
  . exact .bind (made_modify fun w => .without w h) fun _ => made_discardScratch _
  . exact .pure _

theorem made_foldersRemoved {uris : List String} (h : ∀ uri ∈ uris, uri ∈ gone) :
    (foldersRemoved uris).Made gone := by
  induction uris with
  | nil => exact .pure _
  | cons uri uris ih =>
    exact .bind (made_folderRemoved (h uri (.head _))) fun _ =>
      ih fun uri hu => h uri (.tail _ hu)

theorem made_foldersChanged (added removed : List String) :
    (foldersChanged added removed).Made removed :=
  .bind (made_foldersRemoved fun _ h => h) fun _ =>
    .bind (made_addFolders _) fun _ => .bind (made_copyWorkspaces _) fun _ => .pure _

end Job

end InkServer
