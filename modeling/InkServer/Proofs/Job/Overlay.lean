import InkServer.Proofs.Copy.Overlay
import InkServer.Proofs.Job.Compile

/-!
This module contains what the calls about documents make of the copy of a workspace: over any sequence
of them it is the disk with the texts that the editor holds laid over it.
-/

namespace InkServer

open Text

/-- A call of the editor about a document. -/
inductive DocumentCall where
  | opened (uri text : String)
  | changed (uri text : String)
  | closed (uri : String)

namespace DocumentCall

/-- The document that the call is about. -/
def uri : DocumentCall → String
  | opened uri _ => uri
  | changed uri _ => uri
  | closed uri => uri

def text? : DocumentCall → Option String
  | opened _ text => some text
  | changed _ text => some text
  | closed _ => none

/-- What the server does. -/
def job : DocumentCall → Job Unit
  | opened uri text => do
    let _ ← Job.documentOpened uri text
  | changed uri text => do
    let _ ← Job.documentChanged uri text
  | closed uri => Job.documentClosed uri

/-- The texts of the editor after the call. -/
def texts (before : Texts) (call : DocumentCall) : Texts :=
  match Uri.toPath call.uri with
  | .ok path => before.set path.normalize call.text?
  | .error _ => before

/-- The document is a source in the workspace, and stands on the disk as a regular file or not at
all. -/
def Concerns (call : DocumentCall) (u : String) (w : World) : Prop :=
  ∃ path ws, Uri.toPath call.uri = .ok path ∧ w.registry.findOwner? path.normalize = some ws
    ∧ ws.uri = u ∧ w.rules.filter.hasSourceExtension path.normalize = true
    ∧ w.disk.IsFileOrNothing path.normalize

end DocumentCall

/-- The texts that the editor holds after some calls. -/
def liveTexts (calls : List DocumentCall) : Texts :=
  calls.foldl DocumentCall.texts fun _ => none

section

variable (root scratch : Path) (R S : Location)

/-- Others left the registry, the workspace and the sources in its copy alone. -/
structure World.Spares (w w' : World) : Prop where
  registry : w'.registry = w.registry
  rules : w'.rules = w.rules
  disk : Disk.Spares w.rules.filter root scratch R S w.disk w'.disk

/-- While the job was stopped others left the workspace and its copy alone, and an edit that it
writes when it goes on is written. -/
structure Halt.Fair (h : Halt) : Prop where
  spares : World.Spares root scratch R S h.before h.after
  written : ∀ r, h.attempt? = some r → r = .ok ()

/-- The server comes from one state to the other by calls about sources in a workspace, one after the
other. Before, between and after them others do their work. -/
inductive Serves (u : String) : World → List DocumentCall → World → Prop where
  | nil {w w' : World} (h : World.Spares root scratch R S w w') : Serves u w [] w'
  | cons {w v v' w' : World} {call : DocumentCall} {calls : List DocumentCall} {hs : List Halt}
    (h : World.Spares root scratch R S w v) (hc : call.Concerns u v)
    (hr : (call.job v).Reaches hs (.done v' ())) (hq : ∀ h ∈ hs, h.Fair root scratch R S)
    (hrest : Serves u v' calls w') : Serves u w (call :: calls) w'

end

/-- The copy of a workspace is ready and is the disk under the given texts. -/
structure World.Mirrors (w : World) (rules : CopyRules) (u : String) (root scratch : Path)
    (R S : Location) (texts : Texts) : Prop where
  rules_eq : w.rules = rules
  sound : w.registry.Sound rules
  entry : ∃ e, w.registry.get? u = some e ∧ e.state = .ready scratch ∧ e.root = root
  place : root.IsPlace
  overlaid : w.disk.Overlaid rules.filter root scratch R S texts

namespace World.Mirrors

variable {rules : CopyRules} {w w' : World} {u : String} {root scratch : Path} {R S : Location}
  {texts : Texts}

theorem spares (h : w.Mirrors rules u root scratch R S texts) (hs : Spares root scratch R S w w') :
    w'.Mirrors rules u root scratch R S texts := by
  have hdisk := hs.disk
  rw [h.rules_eq] at hdisk
  refine ⟨hs.rules.trans h.rules_eq, ?_, ?_, h.place, h.overlaid.spares hdisk⟩
  . rw [hs.registry]
    exact h.sound
  . rw [hs.registry]
    exact h.entry

theorem isFolder (h : w.Mirrors rules u root scratch R S texts) : w.disk.isFolder scratch = true :=
  Disk.isFolder_iff.mpr ⟨S, h.overlaid.clean.leads⟩

/-- What is said about a copy stays true through halts and through the bookkeeping of a job. -/
theorem persists (rules : CopyRules) (u : String) (root scratch : Path) (R S : Location)
    (texts : Texts) :
    Job.Persists (Halt.Fair root scratch R S) (fun w => w.Mirrors rules u root scratch R S texts) u
      scratch := by
  refine ⟨fun hq => hq.spares.registry, fun hw hq => hw.spares hq.spares,
    fun hw _ => ⟨hw.rules_eq, hw.sound, hw.entry, hw.place, hw.overlaid⟩,
    fun hw _ => ⟨hw.rules_eq, hw.sound, hw.entry, hw.place, hw.overlaid⟩, ?_⟩
  intro w hw
  obtain ⟨e, he, hready, _⟩ := hw.entry
  exact ⟨e, he, hready, hw.isFolder⟩

end World.Mirrors

namespace Job

variable {rules : CopyRules} {w : World} {u uri text : String} {root scratch path : Path}
  {R S : Location} {texts : Texts} {ws : Workspace} {hs : List Halt}

theorem tryEdit_mirrors (h : w.Mirrors rules u root scratch R S texts) (hpath : path.normalize = path)
    (hws : ws.uri = u) (uri text : String) (hs : List Halt) :
    (tryEdit uri path text ws w).Along (Halt.Fair root scratch R S) (fun _ _ _ => True)
      (fun _ w' a => a = .written ∧ w'.registry = w.registry
        ∧ w'.Mirrors rules u root scratch R S (texts.set path (some text))) hs := by
  obtain ⟨e, he, hready, hroot⟩ := h.entry
  rw [← hws] at he
  obtain ⟨k, hjob, hk⟩ := readyWorkspace_of_ready he hready uri
  rw [tryEdit_eq, hjob]
  refine ⟨trivial, ?_⟩
  intro answer w1 hq1
  have h1 := h.spares hq1.spares
  dsimp only
  rw [hk answer w1 h1.isFolder]
  refine ⟨trivial, ?_⟩
  intro answer w2 hq2
  have h2 := h1.spares hq2.spares
  have hok : ((e.snapshot ws.uri).applyEdit path text w2.disk).2 = .ok () := hq2.written _ rfl
  have hscratch := (@Entry.snapshot_scratch_iff e ws.uri scratch).mpr hready
  have hover := h2.overlaid.applyEdit h2.place hroot hscratch hpath hok
  refine ⟨?_, ?_, h2.rules_eq, h2.sound, h2.entry, h2.place, hover⟩
  . rw [hok]
    rfl
  . exact hq2.spares.registry.trans hq1.spares.registry

theorem documentChanged_mirrors (h : w.Mirrors rules u root scratch R S texts)
    (hpath : Uri.toPath uri = .ok path)
    (hfound : w.registry.findOwner? path.normalize = some ws) (hws : ws.uri = u) (text : String)
    (hs : List Halt) :
    (documentChanged uri text w).Along (Halt.Fair root scratch R S) (fun _ _ _ => True)
      (fun _ w' _ => w'.Mirrors rules u root scratch R S (texts.set path.normalize (some text)))
      hs := by
  rw [documentChanged_of_owner hpath hfound]
  apply Step.along_bind
  apply Step.along_bind
  have hedit := tryEdit_mirrors h path.normalize_normalize hws uri text hs
  refine hedit.mono (fun _ _ _ h => h) ?_
  rintro hs1 w1 _ ⟨rfl, hregistry, h1⟩
  have hpersists := World.Mirrors.persists rules ws.uri root scratch R S
    (texts.set path.normalize (some text))
  rw [← hws] at h1 ⊢
  refine startFor_along hpersists h1 hpath ?_ (fun _ _ _ _ => trivial)
    (fun _ _ _ _ _ _ _ _ _ => trivial) hs1
  rw [hregistry, hfound]

theorem documentOpened_mirrors (h : w.Mirrors rules u root scratch R S texts)
    (hpath : Uri.toPath uri = .ok path)
    (hfound : w.registry.findOwner? path.normalize = some ws) (hws : ws.uri = u) (text : String)
    (hs : List Halt) :
    (documentOpened uri text w).Along (Halt.Fair root scratch R S) (fun _ _ _ => True)
      (fun _ w' _ => w'.Mirrors rules u root scratch R S (texts.set path.normalize (some text)))
      hs := by
  unfold documentOpened
  rw [hpath]
  apply @documentChanged_mirrors rules { w with documents := setKey path.normalize uri w.documents }
  . exact ⟨h.rules_eq, h.sound, h.entry, h.place, h.overlaid⟩
  . exact hpath
  . exact hfound
  . exact hws

theorem documentClosed_eq (hpath : Uri.toPath uri = .ok path)
    (hfound : w.registry.findOwner? path.normalize = some ws) (hscratch : ws.scratch = some scratch) :
    documentClosed uri w
      =
    .ask { w with documents := eraseKey path.normalize w.documents } (@Query.rest .upkeep) fun _ w =>
      .done { w with disk := w.disk.restored ws w.rules.filter path.normalize } () := by
  unfold documentClosed
  rw [hpath]
  dsimp only [bind, Job.bind, modify, get, Step.bind]
  rw [hfound]
  dsimp only
  rw [hscratch, Option.isSome_some, if_pos rfl]
  refine congrArg (Step.ask _ _) ?_
  funext _ w
  refine congrArg (fun v => Step.done v ()) ?_
  dsimp only [Disk.restored]
  split
  . rfl
  . rfl

theorem documentClosed_mirrors (h : w.Mirrors rules u root scratch R S texts)
    (hpath : Uri.toPath uri = .ok path)
    (hfound : w.registry.findOwner? path.normalize = some ws) (hws : ws.uri = u)
    (hext : rules.filter.hasSourceExtension path.normalize = true)
    (hfile : w.disk.IsFileOrNothing path.normalize) (hs : List Halt) :
    (documentClosed uri w).Along (Halt.Fair root scratch R S) (fun _ _ _ => True)
      (fun _ w' _ => w'.Mirrors rules u root scratch R S (texts.set path.normalize none)) hs := by
  obtain ⟨e, he, hready, hroot⟩ := h.entry
  obtain ⟨e', he', hsnap, _⟩ := Registry.of_findOwner? h.sound.ordered hfound
  have heq : e' = e := by
    rw [hws, he, Option.some.injEq] at he'
    exact he'.symm
  have hscratch : ws.scratch = some scratch := by
    rw [hsnap, heq]
    exact Entry.snapshot_scratch_iff.mpr hready
  have hwsroot : ws.root = root := by
    rw [hsnap, heq]
    exact hroot
  rw [documentClosed_eq hpath hfound hscratch]
  refine ⟨trivial, ?_⟩
  intro answer w' hq
  have hspares : World.Spares root scratch R S w w' :=
    ⟨hq.spares.registry, hq.spares.rules, hq.spares.disk⟩
  have h' := h.spares hspares
  refine ⟨h'.rules_eq, h'.sound, h'.entry, h'.place, ?_⟩
  dsimp only
  rw [h'.rules_eq]
  refine h'.overlaid.restored h'.place hwsroot hscratch path.normalize_normalize hext ?_
  intro ns hns hinside
  rw [hinside] at hfile ⊢
  exact h.overlaid.roots.isFileOrNothing_congr h'.overlaid.roots hns (hq.spares.disk.tree ns) hfile

end Job

namespace DocumentCall

variable {rules : CopyRules} {w w' : World} {u : String} {root scratch : Path} {R S : Location}
  {texts : Texts} {call : DocumentCall} {calls : List DocumentCall}

/-- Every call keeps the copy the disk under the texts of the editor. -/
theorem job_mirrors (h : w.Mirrors rules u root scratch R S texts) (hc : call.Concerns u w)
    (hs : List Halt) :
    (call.job w).Along (Halt.Fair root scratch R S) (fun _ _ _ => True)
      (fun _ w' _ => w'.Mirrors rules u root scratch R S (call.texts texts)) hs := by
  obtain ⟨path, ws, hpath, hfound, hws, hext, hfile⟩ := hc
  rw [h.rules_eq] at hext
  have htexts : call.texts texts = texts.set path.normalize call.text? := by
    rw [DocumentCall.texts, hpath]
  rw [htexts]
  cases call with
  | opened uri text =>
    apply Step.along_bind
    exact Job.documentOpened_mirrors h hpath hfound hws text hs
  | changed uri text =>
    apply Step.along_bind
    exact Job.documentChanged_mirrors h hpath hfound hws text hs
  | closed uri => exact Job.documentClosed_mirrors h hpath hfound hws hext hfile hs

theorem hasSourceExtension_of_texts (hc : call.Concerns u w)
    (h : ∀ p text, texts p = some text → w.rules.filter.hasSourceExtension p = true) (p : Path)
    (text : String) (hp : call.texts texts p = some text) :
    w.rules.filter.hasSourceExtension p = true := by
  obtain ⟨path, ws, hpath, _, _, hext, _⟩ := hc
  rw [DocumentCall.texts, hpath] at hp
  dsimp only [Texts.set] at hp
  split at hp
  . next heq =>
    rw [heq]
    exact hext
  . exact h p text hp

end DocumentCall

/-- Sequences of calls keep the copy the disk under the texts of the editor. -/
theorem Serves.mirrors {rules : CopyRules} {w w' : World} {u : String} {root scratch : Path}
    {R S : Location} {texts : Texts} {calls : List DocumentCall}
    (hs : Serves root scratch R S u w calls w') (h : w.Mirrors rules u root scratch R S texts)
    (htexts : ∀ p text, texts p = some text → rules.filter.hasSourceExtension p = true) :
    w'.Mirrors rules u root scratch R S (calls.foldl DocumentCall.texts texts)
      ∧ ∀ p text, calls.foldl DocumentCall.texts texts p = some text →
        rules.filter.hasSourceExtension p = true := by
  induction hs generalizing texts with
  | nil hspares => exact ⟨h.spares hspares, htexts⟩
  | cons hspares hc hr hq _ ih =>
    have hv := h.spares hspares
    have hreached := (DocumentCall.job_mirrors hv hc []).of_reaches hr hq
    rw [List.foldl_cons]
    refine ih hreached ?_
    rw [← hv.rules_eq] at htexts ⊢
    exact DocumentCall.hasSourceExtension_of_texts hc htexts

/-- A pass that succeeded leaves the disk under no texts at all. -/
theorem World.Mirrors.of_pass {rules : CopyRules} {n : Nat} {before : Disk} {w : World} {u : String}
    {root scratch : Path} {R S : Location} (habs : root.isAbsolute = true)
    (hbegins : rules.Begins n root R before)
    (hok : (rules.createCopy (scratchName n) root before).2 = .ok scratch)
    (hdisk : w.disk = (rules.createCopy (scratchName n) root before).1) (hrules : w.rules = rules)
    (hsound : w.registry.Sound rules)
    (hentry : ∃ e, w.registry.get? u = some e ∧ e.state = .ready scratch ∧ e.root = root)
    (hS : w.disk.find true scratch = .ok (S, .folder)) :
    w.Mirrors rules u root scratch R S fun _ => none := by
  obtain ⟨e, he, hready, hroot⟩ := hentry
  have hnormal := hsound.normal he
  rw [hroot] at hnormal
  have hplace := hbegins.isPlace habs hnormal
  obtain ⟨S', hover⟩ : ∃ S', (rules.createCopy (scratchName n) root before).1.Overlaid rules.filter
      root scratch R S' fun _ => none := hbegins.rendered hplace.isNamed hok _
  rw [← hdisk] at hover
  have hS' := hover.clean.leads
  rw [hS, Except.ok.injEq, Prod.mk.injEq] at hS'
  rw [← hS'.1] at hover
  exact ⟨hrules, hsound, ⟨e, he, hready, hroot⟩, hplace, hover⟩

/-- A workspace was copied once, and its scratch folder stays. After any sequence of calls about sources
in it, where every edit is written, the source files in the scratch folder are those on the disk, with
the texts that the editor holds in their place or added to them. -/
theorem Serves.copy_is_disk_under_texts {rules : CopyRules} {n : Nat} {before : Disk} {w w' : World}
    {u : String} {root scratch : Path} {R S : Location} {calls : List DocumentCall}
    (habs : root.isAbsolute = true) (hbegins : rules.Begins n root R before)
    (hok : (rules.createCopy (scratchName n) root before).2 = .ok scratch)
    (hdisk : w.disk = (rules.createCopy (scratchName n) root before).1) (hrules : w.rules = rules)
    (hsound : w.registry.Sound rules)
    (hentry : ∃ e, w.registry.get? u = some e ∧ e.state = .ready scratch ∧ e.root = root)
    (hS : w.disk.find true scratch = .ok (S, .folder))
    (hserves : Serves root scratch R S u w calls w') :
    ∀ ns : List Name, ns ≠ [] → (∀ m ∈ ns, IsName m) →
      rules.filter.sourceAt? w'.disk scratch ns
        =
      ((liveTexts calls (root.inside ns)).map bytesOf).or (rules.filter.sourceAt? w'.disk root ns) := by
  have hstart := World.Mirrors.of_pass habs hbegins hok hdisk hrules hsound hentry hS
  obtain ⟨hmirrors, htexts⟩ := hserves.mirrors hstart (by simp)
  intro ns hne hns
  exact hmirrors.overlaid.sourceAt?_eq htexts hne hns

namespace Job

variable {rules : CopyRules} {w : World} {u uri text : String} {root scratch path : Path}
  {R S : Location} {texts : Texts} {ws : Workspace}

theorem spares_self (h : w.Mirrors rules u root scratch R S texts) :
    World.Spares root scratch R S w w := by
  have hover := h.overlaid
  exact ⟨rfl, rfl, hover.clean.isTree, hover.roots.leads, fun _ => rfl, hover.clean.leads,
    fun ns => ⟨hover.clean.regular ns, hover.clean.plain ns⟩, fun _ _ => rfl⟩

theorem idle_fair {q : Query} (h : w.Mirrors rules u root scratch R S texts)
    (hq : ∀ r, (idle w q).attempt? = some r → r = .ok ()) :
    (idle w q).Fair root scratch R S :=
  ⟨spares_self h, hq⟩

/-- When the edit can be written and there is no compiler, the call comes to its end. -/
theorem documentChanged_reaches_done (h : w.Mirrors rules u root scratch R S texts)
    (hpath : Uri.toPath uri = .ok path)
    (hfound : w.registry.findOwner? path.normalize = some ws) (hws : ws.uri = u)
    (hok : (ws.applyEdit path.normalize text w.disk).2 = .ok ()) :
    ∃ hs trace, (documentChanged uri text w).Reaches hs
        (.done { w with disk := (ws.applyEdit path.normalize text w.disk).1, trace } none)
      ∧ ∀ h ∈ hs, h.Fair root scratch R S := by
  obtain ⟨x, hx, hsnap, _⟩ := Registry.of_findOwner? h.sound.ordered hfound
  obtain ⟨e, he, hready, hroot⟩ := h.entry
  have heq : x = e := by
    rw [hws, he, Option.some.injEq] at hx
    exact hx.symm
  have hr : x.state = .ready scratch := by rw [heq, hready]
  have hscratch : ws.scratch = some scratch := by
    rw [hsnap]
    exact Entry.snapshot_scratch_iff.mpr hr
  have hwsroot : ws.root = root := by
    rw [hsnap, heq]
    exact hroot
  have hover := h.overlaid.applyEdit h.place hwsroot hscratch path.normalize_normalize hok
  have hsound : w.registry.Sound w.rules := by
    rw [h.rules_eq]
    exact h.sound
  obtain ⟨hs, trace, hreaches, hhalts⟩ :=
    documentChanged_reaches_end hsound hpath hfound hscratch h.isFolder hok
  refine ⟨hs, trace, hreaches, ?_⟩
  intro halt hh
  obtain ⟨hbefore, hafter, hwritten⟩ := hhalts halt hh
  refine ⟨?_, hwritten⟩
  rw [hafter]
  rcases hbefore with hbefore | ⟨trace, hbefore⟩
  . rw [hbefore]
    exact spares_self h
  . rw [hbefore]
    exact @spares_self rules _ u root scratch R S (texts.set path.normalize (some text))
      ⟨h.rules_eq, h.sound, h.entry, h.place, hover⟩

theorem documentClosed_reaches_end (hpath : Uri.toPath uri = .ok path)
    (hfound : w.registry.findOwner? path.normalize = some ws) (hscratch : ws.scratch = some scratch) :
    (documentClosed uri w).Reaches
      [idle { w with documents := eraseKey path.normalize w.documents } (@Query.rest .upkeep)]
      (.done { w with
        documents := eraseKey path.normalize w.documents
        disk := w.disk.restored ws w.rules.filter path.normalize } ()) := by
  rw [documentClosed_eq hpath hfound hscratch]
  exact @Step.Reaches.resume _ _ _ _ _ () _ _ (.refl _)

theorem documentClosed_reaches_done (h : w.Mirrors rules u root scratch R S texts)
    (hpath : Uri.toPath uri = .ok path)
    (hfound : w.registry.findOwner? path.normalize = some ws) (hscratch : ws.scratch = some scratch) :
    ∃ hs v, (documentClosed uri w).Reaches hs (.done v ())
      ∧ ∀ h ∈ hs, h.Fair root scratch R S := by
  let w1 := { w with documents := eraseKey path.normalize w.documents }
  have h1 : w1.Mirrors rules u root scratch R S texts :=
    ⟨h.rules_eq, h.sound, h.entry, h.place, h.overlaid⟩
  refine ⟨_, _, documentClosed_reaches_end hpath hfound hscratch, ?_⟩
  intro halt hh
  rw [List.mem_singleton.mp hh]
  exact idle_fair h1 (by simp [Halt.attempt?, idle])

end Job

/-- A folder with a story that was not copied yet. -/
def draftDisk : Disk :=
  ⟨[([bytesOf "v"], .folder), ([bytesOf "v", bytesOf "a.ink"], .file (bytesOf "old") false),
    ([bytesOf "s"], .folder)], []⟩

def draftWorld : World :=
  { Job.storyWorld with
    disk := (Job.storyRules.createCopy (scratchName 0) (.ofString "/v") draftDisk).1 }

theorem draftDisk_begins :
    Job.storyRules.Begins 0 (.ofString "/v") [bytesOf "v"] draftDisk := by
  have hname : IsName (bytesOf "v") ∧ IsName (bytesOf "a.ink") ∧ IsName (bytesOf "s") := by
    refine ⟨⟨?_, ?_, ?_, ?_⟩, ⟨?_, ?_, ?_, ?_⟩, ⟨?_, ?_, ?_, ?_⟩⟩ <;> decide
  have hS : (draftDisk.createFolders (Job.storyRules.scratchOf 0)).1.find true
      (Job.storyRules.scratchOf 0) = .ok ([bytesOf "s", scratchName 0], .folder) := by decide +kernel
  refine ⟨?_, by decide +kernel, ?_, ⟨by decide, by decide⟩, by decide +kernel, ?_⟩
  . refine Disk.isTree_of_mem rfl ?_
    intro l n hmem
    simp only [draftDisk, List.mem_cons, Prod.mk.injEq, List.not_mem_nil, or_false] at hmem
    rcases hmem with ⟨hl, _⟩ | ⟨hl, _⟩ | ⟨hl, _⟩
    . exact ⟨[], _, hl, hname.1, rfl⟩
    . exact ⟨[bytesOf "v"], _, hl, hname.2.1, by decide⟩
    . exact ⟨[], _, hl, hname.2.2, rfl⟩
  . intro ns target hnode
    have hmem := Disk.mem_of_node? (by simp) hnode
    simp [draftDisk] at hmem
  . intro S hfind
    rw [hS, Except.ok.injEq, Prod.mk.injEq] at hfind
    rw [← hfind.1]
    decide

theorem createCopy_draftDisk :
    (Job.storyRules.createCopy (scratchName 0) (.ofString "/v") draftDisk).2
        = .ok (Job.storyRules.scratchOf 0)
      ∧ draftWorld.disk.find true (Job.storyRules.scratchOf 0)
        = .ok ([bytesOf "s", scratchName 0], .folder)
      ∧ draftWorld.disk.pathExists (Path.ofString "/v/b.ink").normalize = false := by
  decide +kernel

theorem draftWorld_mirrors :
    draftWorld.Mirrors Job.storyRules "/v" (.ofString "/v") (Job.storyRules.scratchOf 0)
      [bytesOf "v"] [bytesOf "s", scratchName 0] fun _ => none :=
  .of_pass (by decide) draftDisk_begins createCopy_draftDisk.1 rfl rfl Job.storyWorld_sound
    ⟨_, rfl, rfl, rfl⟩ createCopy_draftDisk.2.1

theorem draftWorld_findOwner? {name : String} (h : name = "/v/a.ink" ∨ name = "/v/b.ink") :
    draftWorld.registry.findOwner? (Path.ofString name).normalize = some Job.storyWorkspace := by
  rcases h with rfl | rfl
  . decide +kernel
  . decide +kernel

theorem draftWorld_edit :
    (Job.storyWorkspace.applyEdit (Path.ofString "/v/b.ink").normalize "more" draftWorld.disk).2
        = .ok ()
      ∧ (Job.storyWorkspace.applyEdit (Path.ofString "/v/b.ink").normalize "more"
        draftWorld.disk).1.isFile (Path.ofString "/v/a.ink").normalize = true := by
  decide +kernel

theorem storyRules_source {name : String} (h : name = "/v/a.ink" ∨ name = "/v/b.ink") :
    Job.storyRules.filter.hasSourceExtension (Path.ofString name).normalize = true := by
  rcases h with rfl | rfl
  . decide +kernel
  . decide +kernel

theorem draftWorld_opened : (DocumentCall.opened "/v/b.ink" "more").Concerns "/v" draftWorld :=
  ⟨.ofString "/v/b.ink", _, rfl, draftWorld_findOwner? (.inr rfl), rfl, storyRules_source (.inr rfl),
    .inr createCopy_draftDisk.2.2⟩

theorem draftWorld_serves :
    ∃ w', Serves (.ofString "/v") (Job.storyRules.scratchOf 0) [bytesOf "v"]
      [bytesOf "s", scratchName 0] "/v" draftWorld
      [.opened "/v/b.ink" "more", .closed "/v/a.ink"] w' := by
  have hstart := draftWorld_mirrors
  have hb : Uri.toPath "/v/b.ink" = .ok (.ofString "/v/b.ink") := by rfl
  have ha : Uri.toPath "/v/a.ink" = .ok (.ofString "/v/a.ink") := by rfl
  let w0 : World :=
    { draftWorld with documents := setKey (Path.ofString "/v/b.ink").normalize "/v/b.ink" [] }
  have h0 : w0.Mirrors Job.storyRules "/v" (.ofString "/v") (Job.storyRules.scratchOf 0)
      [bytesOf "v"] [bytesOf "s", scratchName 0] fun _ => none :=
    ⟨rfl, hstart.sound, hstart.entry, hstart.place, hstart.overlaid⟩
  obtain ⟨hs, trace, hreaches, hfair⟩ :=
    Job.documentChanged_reaches_done h0 hb (draftWorld_findOwner? (.inr rfl)) rfl draftWorld_edit.1
  let v : World :=
    { w0 with
      disk := (Job.storyWorkspace.applyEdit (Path.ofString "/v/b.ink").normalize "more"
        draftWorld.disk).1
      trace }
  have hopened : (Job.documentOpened "/v/b.ink" "more" draftWorld).Reaches hs (.done v none) := by
    unfold Job.documentOpened
    rw [hb]
    exact hreaches
  have hjob : ((DocumentCall.opened "/v/b.ink" "more").job draftWorld).Reaches hs (.done v ()) :=
    hopened.bind _
  have hv : v.Mirrors Job.storyRules "/v" (.ofString "/v") (Job.storyRules.scratchOf 0)
      [bytesOf "v"] [bytesOf "s", scratchName 0] _ :=
    (DocumentCall.job_mirrors hstart draftWorld_opened []).of_reaches hjob hfair
  have hfound : v.registry.findOwner? (Path.ofString "/v/a.ink").normalize
      = some Job.storyWorkspace := draftWorld_findOwner? (.inl rfl)
  have hclose : (DocumentCall.closed "/v/a.ink").Concerns "/v" v :=
    ⟨_, _, ha, hfound, rfl, storyRules_source (.inl rfl), .inl draftWorld_edit.2⟩
  obtain ⟨hs', v', hclosed, hfair'⟩ := Job.documentClosed_reaches_done hv ha hfound rfl
  have hv' := (DocumentCall.job_mirrors hv hclose []).of_reaches hclosed hfair'
  exact ⟨v', .cons (Job.spares_self hstart) draftWorld_opened hjob hfair
    (.cons (Job.spares_self hv) hclose hclosed hfair' (.nil (Job.spares_self hv')))⟩

theorem Serves.copy_is_disk_under_texts_story :
    ∃ w', Serves (.ofString "/v") (Job.storyRules.scratchOf 0) [bytesOf "v"]
        [bytesOf "s", scratchName 0] "/v" draftWorld
        [.opened "/v/b.ink" "more", .closed "/v/a.ink"] w'
      ∧ Job.storyRules.filter.sourceAt? w'.disk (Job.storyRules.scratchOf 0) [bytesOf "b.ink"]
        = some (bytesOf "more") := by
  obtain ⟨w', hserves⟩ := draftWorld_serves
  refine ⟨w', hserves, ?_⟩
  have hcopy := copy_is_disk_under_texts (by decide) draftDisk_begins createCopy_draftDisk.1 rfl rfl
    draftWorld_mirrors.sound draftWorld_mirrors.entry draftWorld_mirrors.overlaid.clean.leads hserves
  have hname : IsName (bytesOf "b.ink") := ⟨by decide, by decide, by decide, by decide⟩
  have hlive : liveTexts [.opened "/v/b.ink" "more", .closed "/v/a.ink"]
      ((Path.ofString "/v").inside [bytesOf "b.ink"]) = some "more" := by
    have hb : Uri.toPath "/v/b.ink" = .ok (.ofString "/v/b.ink") := by rfl
    have ha : Uri.toPath "/v/a.ink" = .ok (.ofString "/v/a.ink") := by rfl
    simp only [liveTexts, List.foldl_cons, List.foldl_nil, DocumentCall.texts, DocumentCall.uri, ha,
      hb]
    decide
  rw [hcopy [bytesOf "b.ink"] (by simp) (by simpa using hname), hlive]
  rfl

end InkServer
