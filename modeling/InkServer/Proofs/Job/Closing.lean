import InkServer.Proofs.Job.Renewal
import InkServer.Proofs.Job.Watch
import InkServer.Proofs.Path.Agreement

/-!
This module contains what a document leaves in the copy of its workspace when it is closed. A source,
and a file that is gone, leave what a new pass would put there. A file that is on the disk and is no
source leaves the text of the editor.
-/

namespace InkServer

open Text Disk

namespace Disk

variable {d d' : Disk} {p : Path} {loc : Location} {ns : List Name} {bytes : Bytes}
  {content : Option Bytes}

/-- The content of the file at a path, if there is one. -/
def content? (d : Disk) (p : Path) : Option Bytes :=
  (d.content p).toOption

theorem content?_eq_some_iff : d.content? p = some bytes ↔ d.content p = .ok bytes :=
  toOption_eq_some_iff

theorem Clean.content?_inside_iff (h : d.Clean p loc) (hns : ∀ m ∈ ns, IsName m) :
    d.content? (p.inside ns) = some bytes ↔ p.Spans ns ∧ d.fileAt? (loc ++ ns) = some bytes := by
  rw [content?_eq_some_iff, h.content_inside_iff hns]

theorem Clean.content?_of_sets (h : d.Clean p loc) (hns : ∀ m ∈ ns, IsName m)
    (hs : d.Sets loc ns content d') (hspans : content ≠ none → p.Spans ns) :
    d'.content? (p.inside ns) = content := by
  apply Option.ext
  intro bytes
  rw [(h.sets hs).content?_inside_iff hns, hs.file_inside, if_pos rfl]
  constructor
  . exact fun hc => hc.2
  . intro hc
    exact ⟨hspans (by simp [hc]), hc⟩

end Disk

theorem SourceFilter.sourceAt?_eq_none {filter : SourceFilter} {d : Disk} {p : Path}
    (h : filter.isSource d p false = false) : filter.sourceAt? d p [] = none := by
  rw [Option.eq_none_iff_forall_ne_some]
  intro content hsource
  obtain ⟨l, executable, hext, hfind⟩ := sourceAt?_nil_iff.mp hsource
  rw [isSource, hfind] at h
  dsimp only at h
  rw [hext] at h
  cases h

theorem SourceFilter.pathExists_of_isSource {filter : SourceFilter} {d : Disk} {p : Path}
    (h : filter.isSource d p false = true) : d.pathExists p = true := by
  obtain ⟨l, n, hfind, _⟩ := of_isSource_file h
  rw [pathExists, hfind]

namespace Workspace

variable {ws : Workspace} {filter : SourceFilter} {d : Disk} {file scratch : Path} {loc : Location}
  {ns : List Name}

/-- If the file is a source, the disk lets it be copied. -/
def CanCopy (ws : Workspace) (filter : SourceFilter) (file : Path) (d : Disk) : Prop :=
  filter.isSource d file false = true →
    ∃ target made copied, ws.scratchPathFor? file = some target
      ∧ makeParent d target = (made, .ok ()) ∧ made.copyFile file target = .ok copied

/-- A file that is gone leaves no copy, whether there was one or not. -/
theorem content?_applyDeleted (h : d.Clean scratch loc) (hne : ns ≠ []) (hns : ∀ n ∈ ns, IsName n)
    (htarget : ws.scratchPathFor? file = some (scratch.inside ns)) :
    (ws.applyDeleted file d).content? (scratch.inside ns) = none := by
  unfold applyDeleted
  rw [htarget]
  dsimp only
  split
  . next hu => exact h.content?_of_sets hns (.unlink h hne hns hu) (by simp)
  . next hu =>
    rw [Option.eq_none_iff_forall_ne_some]
    intro content hcontent
    obtain ⟨hspans, hfile⟩ := (h.content?_inside_iff hns).mp hcontent
    rw [h.fileAt?_eq_none_of_unlink hne hns hspans hu] at hfile
    cases hfile

theorem content?_restored (h : d.Clean scratch loc) (hne : ns ≠ []) (hns : ∀ n ∈ ns, IsName n)
    (htarget : ws.scratchPathFor? file = some (scratch.inside ns)) (hcan : ws.CanCopy filter file d) :
    (d.restored ws filter file).content? (scratch.inside ns)
      =
    if d.pathExists file = true ∧ filter.isSource d file false = false then
      d.content? (scratch.inside ns)
    else
      filter.sourceAt? d file [] := by
  unfold restored
  cases hsource : filter.isSource d file false with
  | true =>
    obtain ⟨target, made, copied, hplace, hparent, hcopy⟩ := hcan hsource
    rw [htarget, Option.some.injEq] at hplace
    rw [← hplace] at hparent hcopy
    obtain ⟨l, content, executable, hext, hfind, hsets, hspans⟩ :=
      applyCreated_of_copyFile h hne hns htarget hsource hparent hcopy
    rw [if_pos (SourceFilter.pathExists_of_isSource hsource), if_neg (by simp),
      h.content?_of_sets hns hsets fun _ => hspans,
      SourceFilter.sourceAt?_nil_iff.mpr ⟨l, executable, hext, hfind⟩]
  | false =>
    by_cases hexists : d.pathExists file = true
    . -- The file is no source, so it is not copied, and nothing takes its copy away.
      have hstays : ws.applyCreated filter file d = d := by simp [applyCreated, hsource]
      rw [if_pos hexists, if_pos ⟨hexists, rfl⟩, hstays]
    . rw [if_neg hexists, if_neg (fun hc => hexists hc.1), SourceFilter.sourceAt?_eq_none hsource]
      exact content?_applyDeleted h hne hns htarget

/-- Closing a document brings its copy in step with the disk if its file is a source or gone. Otherwise
it does so only if there was no copy before. -/
theorem content?_restored_iff (h : d.Clean scratch loc) (hne : ns ≠ []) (hns : ∀ n ∈ ns, IsName n)
    (htarget : ws.scratchPathFor? file = some (scratch.inside ns)) (hcan : ws.CanCopy filter file d) :
    (d.restored ws filter file).content? (scratch.inside ns) = filter.sourceAt? d file []
      ↔
    (d.pathExists file = true → filter.isSource d file false = true)
      ∨ d.content? (scratch.inside ns) = none := by
  rw [content?_restored h hne hns htarget hcan]
  split
  . next hstays =>
    rw [SourceFilter.sourceAt?_eq_none hstays.2]
    simp [hstays.1, hstays.2]
  . next hfollows =>
    simp only [true_iff]
    exact .inl fun hexists => by simpa [hexists] using hfollows

end Workspace

/-- A new pass over a workspace puts the source on the disk at the place of a file. -/
theorem Registry.Sound.content?_of_pass {rules : CopyRules} {r : Registry} {n : Nat}
    {p target fresh : Path} {ws : Workspace} {R : Location} {d : Disk} (h : r.Sound rules)
    (hp : p.normalize = p) (hfound : r.findOwner? p = some ws)
    (htarget : ws.scratchPathFor? p = some target) (hbegins : rules.Begins n ws.root R d)
    (hok : (rules.createCopy (scratchName n) ws.root d).2 = .ok fresh) :
    ∃ copy, { ws with scratch := some fresh }.scratchPathFor? p = some copy
      ∧ (rules.createCopy (scratchName n) ws.root d).1.content? copy
        = rules.filter.sourceAt? d p [] := by
  obtain ⟨e, he, hsnap, _⟩ := of_findOwner? h.ordered hfound
  have hnormal : ws.root.normalize = ws.root := by
    rw [hsnap]
    exact h.normal he
  have hin := isInside_of_findOwner? hfound
  have hnamed := hbegins.isNamed hin hnormal
  obtain ⟨S, hrendered⟩ := hbegins.rendered hnamed hok fun _ => True
  unfold Workspace.scratchPathFor? at htarget ⊢
  split at htarget
  . next scratch rel _ hrel =>
    obtain ⟨ks, hne, hks, hcs, hjoin⟩ := Path.exists_names_of_relativeTo? hin hnormal hnamed.ne_nil hrel
    have hinside : p = ws.root.inside ks := by
      have hof := p.ofComponents_components_normalize
      rw [hcs, hp, hnamed.ofComponents_append hnormal hks] at hof
      exact hof.symm
    refine ⟨fresh.inside ks, ?_, ?_⟩
    . dsimp only
      rw [hrel]
      dsimp only
      rw [hjoin]
    . apply Option.ext
      intro content
      rw [content?_eq_some_iff, hrendered.content_iff hne hks,
        hbegins.sourceAt?_createCopy hnamed hok hks, hinside]
      rfl
  . cases htarget

/-- The call brings a text for the document at a path. -/
def DocumentCall.Brings (call : DocumentCall) (p : Path) (text : String) : Prop :=
  call.text? = some text ∧ ∃ path, Uri.toPath call.uri = .ok path ∧ path.normalize = p

section

variable (place : Path → Location) (p target : Path)

/-- While the job was stopped others left the document, its workspace and its copy alone, and an edit
that it writes when it goes on is written. -/
structure Halt.Obliges (h : Halt) : Prop where
  respects : h.Respects place p target
  written : ∀ r, h.attempt? = some r → r = .ok ()

/-- The server comes from one state to the other by calls that bring texts for a document, one after
the other. Every text is written to the copy. Before, between and after the calls others do their
work. -/
inductive Revises : World → List String → World → Prop where
  | nil {w w' : World} (h : World.Respects place p target w w') : Revises w [] w'
  | cons {w v v' w' : World} {call : DocumentCall} {text : String} {texts : List String}
    {hs : List Halt} (h : World.Respects place p target w v) (hc : call.Brings p text)
    (hr : (call.job v).Reaches hs (.done v' ())) (hq : ∀ h ∈ hs, h.Obliges place p target)
    (hrest : Revises v' texts w') : Revises w (text :: texts) w'

end

theorem World.Respects.content?_eq {place : Path → Location} {p target : Path} {w w' : World}
    (h : World.Respects place p target w w') : w'.disk.content? target = w.disk.content? target := by
  rw [content?, h.copy]
  rfl

/-- A workspace has a place for a document in its copy. -/
structure World.Hosts (w : World) (place : Path → Location) (rules : CopyRules) (ws : Workspace)
    (p target : Path) : Prop where
  rules_eq : w.rules = rules
  tidy : w.Tidy place
  owner : w.registry.findOwner? p = some ws
  normal : p.normalize = p
  target_eq : ws.scratchPathFor? p = some target

namespace World.Hosts

variable {place : Path → Location} {rules : CopyRules} {ws : Workspace} {p target scratch : Path}
  {w w' : World}

theorem respects (h : w.Hosts place rules ws p target) (hr : Respects place p target w w') :
    w'.Hosts place rules ws p target :=
  ⟨hr.rules.trans h.rules_eq, hr.tidy h.tidy, hr.owner.trans h.owner, h.normal, h.target_eq⟩

theorem congr (h : w.Hosts place rules ws p target) (hrules : w'.rules = w.rules)
    (hregistry : w'.registry = w.registry) (hdisk : w'.disk = w.disk) :
    w'.Hosts place rules ws p target := by
  refine ⟨hrules.trans h.rules_eq, ⟨?_, ?_, ?_⟩, by rw [hregistry, h.owner], h.normal, h.target_eq⟩
  . rw [hrules, hregistry]
    exact h.tidy.sound
  . rw [hregistry, hdisk]
    exact h.tidy.clean
  . rw [hregistry]
    exact h.tidy.disjoint

theorem clean (h : w.Hosts place rules ws p target) (hscratch : ws.scratch = some scratch) :
    w.disk.Clean scratch (place scratch) :=
  h.tidy.clean (Registry.workspace?_of_findOwner? h.tidy.sound.ordered h.owner) hscratch

theorem exists_clean (h : w.Hosts place rules ws p target) :
    ∃ scratch ks, ws.scratch = some scratch ∧ ks ≠ [] ∧ (∀ n ∈ ks, IsName n)
      ∧ p.components = ws.root.components ++ ks.map .name ∧ target = scratch.inside ks
      ∧ w.disk.Clean scratch (place scratch) := by
  obtain ⟨scratch, ks, hscratch, hne, hks, hcs, hplace⟩ :=
    h.tidy.sound.exists_place h.normal h.owner h.target_eq
  exact ⟨scratch, ks, hscratch, hne, hks, hcs, hplace, h.clean hscratch⟩

theorem exists_ready (h : w.Hosts place rules ws p target) (hscratch : ws.scratch = some scratch) :
    ∃ e, w.registry.get? ws.uri = some e ∧ ws = e.snapshot ws.uri ∧ e.state = .ready scratch
      ∧ w.disk.isFolder scratch = true := by
  obtain ⟨e, he, hsnap, _⟩ := Registry.of_findOwner? h.tidy.sound.ordered h.owner
  refine ⟨e, he, hsnap, ?_, isFolder_iff.mpr ⟨_, (h.clean hscratch).leads⟩⟩
  rw [hsnap] at hscratch
  exact Entry.snapshot_scratch_iff.mp hscratch

theorem applyEdit {text : String} (h : w.Hosts place rules ws p target)
    (hok : (ws.applyEdit p text w.disk).2 = .ok ()) :
    { w with disk := (ws.applyEdit p text w.disk).1 }.Hosts place rules ws p target
      ∧ (ws.applyEdit p text w.disk).1.content? target = some (bytesOf text) := by
  obtain ⟨scratch, ks, hscratch, hne, hks, hcs, hplace, hclean⟩ := h.exists_clean
  have htarget := h.target_eq
  rw [hplace] at htarget
  obtain ⟨hsets, hspans⟩ := Workspace.applyEdit_sets hclean hscratch hne hks htarget hok
  have htouches : w.Touches place ws p (ws.applyEdit p text w.disk).1 :=
    .inr ⟨scratch, ks, _, hscratch, hcs, hsets⟩
  refine ⟨⟨h.rules_eq, h.tidy.touches htouches, h.owner, h.normal, h.target_eq⟩, ?_⟩
  rw [hplace]
  exact hclean.content?_of_sets hks hsets fun _ => hspans

/-- Once the document has a copy, only a device cannot be copied over it. -/
theorem canCopy (h : w.Hosts place rules ws p target) (hfile : w.disk.IsFileOrNothing p)
    (hcopy : w.disk.content? target ≠ none) : ws.CanCopy rules.filter p w.disk := by
  obtain ⟨scratch, ks, _, hne, hks, _, hplace, hclean⟩ := h.exists_clean
  intro hsource
  have hexists := SourceFilter.pathExists_of_isSource hsource
  obtain ⟨l, content, executable, hfind⟩ :=
    exists_of_isFile (hfile.resolve_right (by simp [hexists]))
  obtain ⟨before, hbefore⟩ := Option.ne_none_iff_exists'.mp hcopy
  rw [hplace] at hbefore
  obtain ⟨hspans, hthere⟩ := (hclean.content?_inside_iff hks).mp hbefore
  obtain ⟨hparent, copied, hcopied⟩ :=
    Workspace.exists_copyFile_of_file hclean hne hks hfind hspans (by simp [hthere])
  rw [← hplace] at hparent hcopied
  exact ⟨target, _, copied, h.target_eq, hparent, hcopied⟩

/-- A document that is hosted with a content stays so through halts and through the bookkeeping of a
job. -/
theorem persists (place : Path → Location) (rules : CopyRules) (p target : Path)
    (content : Option Bytes) (hscratch : ws.scratch = some scratch) :
    Job.Persists (Halt.Obliges place p target)
      (fun w => w.Hosts place rules ws p target ∧ w.disk.content? target = content) ws.uri
      scratch := by
  refine ⟨fun hq => hq.respects.registry, ?_, fun hw _ => ⟨hw.1.congr rfl rfl rfl, hw.2⟩,
    fun hw _ => ⟨hw.1.congr rfl rfl rfl, hw.2⟩, ?_⟩
  . rintro w w' q ⟨hw, hcontent⟩ hq
    have hrespects : Respects place p target w w' := hq.respects.toRespects
    exact ⟨hw.respects hrespects, hrespects.content?_eq.trans hcontent⟩
  . rintro w ⟨hw, _⟩
    obtain ⟨e, he, _, hready, hfolder⟩ := hw.exists_ready hscratch
    exact ⟨e, he, hready, hfolder⟩

end World.Hosts

namespace Job

variable {place : Path → Location} {rules : CopyRules} {ws : Workspace} {p target path : Path}
  {w : World} {uri : String}

theorem tryEdit_hosts (h : w.Hosts place rules ws p target) (uri text : String) (hs : List Halt) :
    (tryEdit uri p text ws w).Along (Halt.Obliges place p target) (fun _ _ _ => True)
      (fun _ w' a => a = .written ∧ w'.Hosts place rules ws p target
        ∧ w'.disk.content? target = some (bytesOf text)) hs := by
  obtain ⟨scratch, _, hscratch, _⟩ := h.exists_clean
  obtain ⟨e, he, hsnap, hready, _⟩ := h.exists_ready hscratch
  obtain ⟨k, hjob, hk⟩ := readyWorkspace_of_ready he hready uri
  rw [tryEdit_eq, hjob]
  refine ⟨trivial, ?_⟩
  intro answer w1 hq1
  have h1 : w1.Hosts place rules ws p target := h.respects hq1.respects.toRespects
  obtain ⟨_, _, _, _, hfolder⟩ := h1.exists_ready hscratch
  dsimp only
  rw [hk answer w1 hfolder, ← hsnap]
  refine ⟨trivial, ?_⟩
  intro answer w2 hq2
  have h2 : w2.Hosts place rules ws p target := h1.respects hq2.respects.toRespects
  have hok : (ws.applyEdit p text w2.disk).2 = .ok () := hq2.written _ rfl
  refine ⟨?_, h2.applyEdit hok⟩
  rw [hok]
  rfl

theorem documentChanged_hosts (h : w.Hosts place rules ws p target)
    (hpath : Uri.toPath uri = .ok path) (hp : path.normalize = p) (text : String)
    (hs : List Halt) :
    (documentChanged uri text w).Along (Halt.Obliges place p target) (fun _ _ _ => True)
      (fun _ w' _ => w'.Hosts place rules ws p target
        ∧ w'.disk.content? target = some (bytesOf text)) hs := by
  obtain ⟨scratch, _, hscratch, _⟩ := h.exists_clean
  have hfound := h.owner
  rw [← hp] at hfound
  rw [documentChanged_of_owner hpath hfound, hp]
  apply Step.along_bind
  apply Step.along_bind
  refine (tryEdit_hosts h uri text hs).mono (fun _ _ _ h => h) ?_
  rintro hs1 w1 _ ⟨rfl, h1⟩
  have hfound1 := h1.1.owner
  rw [← hp] at hfound1
  exact startFor_along (World.Hosts.persists place rules p target (some (bytesOf text)) hscratch) h1
    hpath hfound1 (fun _ _ _ _ => trivial) (fun _ _ _ _ _ _ _ _ _ => trivial) hs1

/-- A document is closed on the disk as it is when the job goes on. -/
theorem documentClosed_hosts (h : w.Hosts place rules ws p target)
    (hpath : Uri.toPath uri = .ok path) (hp : path.normalize = p) :
    (documentClosed uri w).Along (Halt.Respects place p target) (fun _ _ _ => True)
      (fun hs w' _ => (w.lastSeen hs).Hosts place rules ws p target
        ∧ (w.lastSeen hs).disk.content? target = w.disk.content? target
        ∧ w'.disk = (w.lastSeen hs).disk.restored ws rules.filter p) [] := by
  obtain ⟨scratch, _, hscratch, _⟩ := h.exists_clean
  have hfound := h.owner
  rw [← hp] at hfound
  rw [documentClosed_eq hpath hfound hscratch, hp]
  refine ⟨trivial, ?_⟩
  intro answer w' hq
  have hstart : { w with documents := eraseKey p w.documents }.Hosts place rules ws p target :=
    h.congr rfl rfl rfl
  have h' : w'.Hosts place rules ws p target := hstart.respects hq.toRespects
  refine ⟨h', hq.toRespects.content?_eq, ?_⟩
  rw [← h'.rules_eq]
  rfl

end Job

theorem DocumentCall.job_hosts {place : Path → Location} {rules : CopyRules} {ws : Workspace}
    {p target : Path} {w : World} {call : DocumentCall} {text : String}
    (h : w.Hosts place rules ws p target) (hc : call.Brings p text) (hs : List Halt) :
    (call.job w).Along (Halt.Obliges place p target) (fun _ _ _ => True)
      (fun _ w' _ => w'.Hosts place rules ws p target
        ∧ w'.disk.content? target = some (bytesOf text)) hs := by
  obtain ⟨htext, path, hpath, hp⟩ := hc
  cases call with
  | opened uri found =>
    rw [← Option.some.inj htext]
    apply Step.along_bind
    unfold Job.documentOpened
    rw [show Uri.toPath uri = .ok path from hpath]
    let w1 := { w with documents := setKey path.normalize uri w.documents }
    have h1 : w1.Hosts place rules ws p target := h.congr rfl rfl rfl
    exact Job.documentChanged_hosts h1 hpath hp found hs
  | changed uri found =>
    rw [← Option.some.inj htext]
    apply Step.along_bind
    exact Job.documentChanged_hosts h hpath hp found hs
  | closed uri => cases htext

section

variable {place : Path → Location} {rules : CopyRules} {ws : Workspace} {p target : Path}
  {w v w' : World} {texts : List String}

/-- After some calls the copy holds the last text that they brought. -/
theorem Revises.hosts (hrev : Revises place p target w texts v)
    (h : w.Hosts place rules ws p target) :
    v.Hosts place rules ws p target
      ∧ v.disk.content? target = (texts.getLast?.map bytesOf).or (w.disk.content? target) := by
  induction hrev with
  | nil hr => exact ⟨h.respects hr, hr.content?_eq⟩
  | @cons w v v' w' call text texts hs hr hc hreaches hq _ ih =>
    obtain ⟨hv', hcontent⟩ := (DocumentCall.job_hosts (h.respects hr) hc []).of_reaches hreaches hq
    obtain ⟨hw', hlast⟩ := ih hv'
    refine ⟨hw', ?_⟩
    rw [hlast, hcontent, List.getLast?_cons]
    cases texts.getLast? with
    | none => rfl
    | some last => rfl

/-- A workspace with a copy owns a document, whatever its name. Calls brought texts for the document,
and all of them were written. Then the document was closed, and if it is a source, it could be copied.
After that its copy is the source that stands on the disk, if and only if the file is a source or is
not on the disk, or no text was written and there was no copy to begin with. That source, or nothing,
is what a new pass over the workspace would put in the place of the document. -/
theorem Revises.closed_copy_fresh_iff {uri : String} {path : Path} {hs : List Halt}
    (htidy : w.Tidy place) (hfound : w.registry.findOwner? p = some ws)
    (htarget : ws.scratchPathFor? p = some target) (hrev : Revises place p target w texts v)
    (hpath : Uri.toPath uri = .ok path) (hp : path.normalize = p)
    (hclose : (Job.documentClosed uri v).Reaches hs (.done w' ()))
    (hq : ∀ h ∈ hs, h.Respects place p target)
    (hcan : ws.CanCopy w.rules.filter p (v.lastSeen hs).disk) :
    let d := (v.lastSeen hs).disk
    (w'.disk.content? target = w.rules.filter.sourceAt? d p []
        ↔
      (d.pathExists p = true → w.rules.filter.isSource d p false = true)
        ∨ texts = [] ∧ w.disk.content? target = none)
      ∧ ∀ n R fresh, w.rules.Begins n ws.root R d →
        (w.rules.createCopy (scratchName n) ws.root d).2 = .ok fresh →
        ∃ copy, { ws with scratch := some fresh }.scratchPathFor? p = some copy
          ∧ (w.rules.createCopy (scratchName n) ws.root d).1.content? copy
            = w.rules.filter.sourceAt? d p [] := by
  have hnormal : p.normalize = p := by rw [← hp, Path.normalize_normalize]
  have hstart : w.Hosts place w.rules ws p target := ⟨rfl, htidy, hfound, hnormal, htarget⟩
  obtain ⟨hv, hlast⟩ := hrev.hosts hstart
  have hclosed := (Job.documentClosed_hosts hv hpath hp).of_reaches hclose hq
  rw [List.nil_append] at hclosed
  obtain ⟨hseen, hcopy, hdisk⟩ := hclosed
  obtain ⟨scratch, ks, _, hne, hks, _, hplace, hclean⟩ := hseen.exists_clean
  constructor
  . have hplaced := htarget
    rw [hplace] at hplaced
    have hiff := Workspace.content?_restored_iff hclean hne hks hplaced hcan
    rw [← hplace] at hiff
    rw [hdisk, hiff, hcopy, hlast, Option.or_eq_none_iff, Option.map_eq_none_iff,
      List.getLast?_eq_none_iff]
  . intro n R fresh hbegins hok
    exact htidy.sound.content?_of_pass hnormal hfound htarget hbegins hok

end

/-- When nothing happens while a job is stopped, others leave everything alone. -/
theorem Halt.Obliges.of_idle {place : Path → Location} {p target : Path} {h : Halt}
    (hafter : h.after = h.before) (hwritten : ∀ r, h.attempt? = some r → r = .ok ()) :
    h.Obliges place p target := by
  refine ⟨⟨?_, by rw [hafter]⟩, hwritten⟩
  rw [hafter]
  exact .refl place p target h.before

/-- The text of the story was changed once more. -/
def revisedDisk : Disk :=
  (Job.storyWorkspace.applyEdit (Path.ofString "/v/a.ink").normalize "newer" openWorld.disk).1

theorem openWorld_edit :
    (Job.storyWorkspace.applyEdit (Path.ofString "/v/a.ink").normalize "newer" openWorld.disk).2
      = .ok () := by
  decide +kernel

theorem openWorld_revises :
    ∃ trace, Revises (fun _ => draftPlace) (.ofString "/v/a.ink") draftCopy openWorld ["newer"]
      { openWorld with disk := revisedDisk, trace } := by
  have ha : Uri.toPath "/v/a.ink" = .ok (.ofString "/v/a.ink") := by rfl
  have hfolder : openWorld.disk.isFolder (Job.storyRules.scratchOf 0) = true :=
    isFolder_iff.mpr ⟨draftPlace, openWorld_clean.leads⟩
  have hfound := openWorld_findOwner?
  rw [← normalize_draft] at hfound
  obtain ⟨hs, trace, hreaches, hhalts⟩ := Job.documentChanged_reaches_end openWorld_tidy.sound ha
    hfound rfl hfolder openWorld_edit
  refine ⟨trace, ?_⟩
  have hjob : ((DocumentCall.changed "/v/a.ink" "newer").job openWorld).Reaches hs
      (.done { openWorld with disk := revisedDisk, trace } ()) := hreaches.bind _
  have hbrings : (DocumentCall.changed "/v/a.ink" "newer").Brings (.ofString "/v/a.ink") "newer" :=
    ⟨rfl, _, ha, normalize_draft⟩
  refine .cons (.refl _ _ _ _) hbrings hjob ?_ (.nil (.refl _ _ _ _))
  intro h hh
  obtain ⟨_, hafter, hwritten⟩ := hhalts h hh
  exact .of_idle hafter hwritten

theorem revisedDisk_source :
    Job.storyRules.filter.isSource revisedDisk (.ofString "/v/a.ink") false = true
      ∧ revisedDisk.isFile (.ofString "/v/a.ink") = true
      ∧ Job.storyRules.filter.sourceAt? revisedDisk (.ofString "/v/a.ink") []
        = some (bytesOf "old") := by
  refine ⟨?_, ?_, ?_⟩
  . decide +kernel
  . decide +kernel
  . decide +kernel

theorem Revises.closed_copy_fresh_iff_story :
    ∃ v hs w', Revises (fun _ => draftPlace) (.ofString "/v/a.ink") draftCopy openWorld ["newer"] v
      ∧ v.disk.content? draftCopy = some (bytesOf "newer")
      ∧ (Job.documentClosed "/v/a.ink" v).Reaches hs (.done w' ())
      ∧ w'.disk.content? draftCopy = some (bytesOf "old") := by
  have ha : Uri.toPath "/v/a.ink" = .ok (.ofString "/v/a.ink") := by rfl
  obtain ⟨trace, hrev⟩ := openWorld_revises
  obtain ⟨hsource, hfile, hcontent⟩ := revisedDisk_source
  have hstart : openWorld.Hosts (fun _ => draftPlace) openWorld.rules Job.storyWorkspace
      (.ofString "/v/a.ink") draftCopy :=
    ⟨rfl, openWorld_tidy, openWorld_findOwner?, normalize_draft, scratchPathFor?_draftCopy⟩
  obtain ⟨hv, hnewer⟩ := hrev.hosts hstart
  have hfound := hv.owner
  rw [← normalize_draft] at hfound
  have hclose := Job.documentClosed_reaches_end ha hfound rfl
  refine ⟨_, _, _, hrev, hnewer, hclose, ?_⟩
  have hiff := closed_copy_fresh_iff openWorld_tidy openWorld_findOwner? scratchPathFor?_draftCopy hrev
    ha normalize_draft hclose ?_ (hv.canCopy (.inl hfile) (by simp [hnewer]))
  . exact (hiff.1.mpr (.inl fun _ => hsource)).trans hcontent
  . intro h hh
    rw [List.mem_singleton.mp hh]
    exact ⟨.refl _ _ _ _, rfl⟩

/-- The story with a file beside it that is no source. -/
def notesWorld : World :=
  { Job.storyWorld with
    disk := Job.storyDisk.put [bytesOf "v", bytesOf "n.txt"] (.file (bytesOf "old") false) }

def notesCopy : Path :=
  (Job.storyRules.scratchOf 0).inside [bytesOf "n.txt"]

def notesDisk : Disk :=
  (Job.storyWorkspace.applyEdit (Path.ofString "/v/n.txt").normalize "new" notesWorld.disk).1

theorem notesWorld_findOwner? :
    notesWorld.registry.findOwner? (Path.ofString "/v/n.txt").normalize
      = some Job.storyWorkspace := by
  decide +kernel

theorem notesWorld_edit :
    (Job.storyWorkspace.applyEdit (Path.ofString "/v/n.txt").normalize "new" notesWorld.disk).2
      = .ok () := by
  decide +kernel

theorem notesDisk_restored :
    let d := notesDisk.restored Job.storyWorkspace Job.storyRules.filter
      (Path.ofString "/v/n.txt").normalize
    Job.storyRules.filter.sourceAt? d (.ofString "/v/n.txt") [] = none
      ∧ d.content? notesCopy = some (bytesOf "new") := by
  constructor
  . decide +kernel
  . decide +kernel

/-- A file that is no source has no copy. When it was open and is closed again, its copy still holds
the text of the editor. -/
theorem Job.closing_leaves_text :
    notesWorld.disk.content? notesCopy = none
      ∧ ∃ hs v hs' w', (documentOpened "/v/n.txt" "new" notesWorld).Reaches hs (.done v none)
        ∧ (documentClosed "/v/n.txt" v).Reaches hs' (.done w' ())
        ∧ (∀ h ∈ hs ++ hs', h.after = h.before)
        ∧ w'.rules.filter.sourceAt? w'.disk (.ofString "/v/n.txt") [] = none
        ∧ w'.disk.content? notesCopy = some (bytesOf "new") := by
  have hn : Uri.toPath "/v/n.txt" = .ok (.ofString "/v/n.txt") := by rfl
  let w : World :=
    { notesWorld with documents := setKey (Path.ofString "/v/n.txt").normalize "/v/n.txt" [] }
  have hsound : w.registry.Sound w.rules := storyWorld_sound
  have hscratch : storyWorkspace.scratch = some (storyRules.scratchOf 0) := rfl
  have hfolder : notesWorld.disk.isFolder (storyRules.scratchOf 0) = true := by decide +kernel
  obtain ⟨hs, trace, hreaches, hhalts⟩ :=
    @documentChanged_reaches_end _ _ w _ _ _ hsound hn notesWorld_findOwner? hscratch hfolder
      notesWorld_edit
  let v : World := { w with disk := notesDisk, trace }
  have hopened : (documentOpened "/v/n.txt" "new" notesWorld).Reaches hs (.done v none) := by
    unfold documentOpened
    rw [hn]
    exact hreaches
  have hclosed := @documentClosed_reaches_end v _ _ _ _ hn notesWorld_findOwner? hscratch
  refine ⟨by decide +kernel, hs, v, _, _, hopened, hclosed, ?_, notesDisk_restored⟩
  intro h hh
  rcases List.mem_append.mp hh with hh | hh
  . exact (hhalts h hh).2.1
  . rw [List.mem_singleton.mp hh]
    rfl

end InkServer
