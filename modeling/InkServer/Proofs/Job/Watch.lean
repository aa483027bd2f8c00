import InkServer.Proofs.Job.Overlay

/-!
This module contains what events about watched files do to the copy of a document that is open. A
change of its file leaves the text of the editor there. When the file is created or deleted, the
copy follows the disk all the same.
-/

namespace InkServer

open Text Disk

def FileChange.About (change : FileChange) (p : Path) : Prop :=
  ∃ path, Uri.toPath change.uri = .ok path ∧ path.normalize = p

theorem FileChange.about_iff {change : FileChange} {p path : Path}
    (h : Uri.toPath change.uri = .ok path) : change.About p ↔ path.normalize = p := by
  constructor
  . rintro ⟨path', hpath, hp⟩
    rw [h, Except.ok.injEq] at hpath
    rw [hpath, hp]
  . intro hp
    exact ⟨path, h, hp⟩

/-- An event about a file, and the disk when the server deals with it. -/
structure Sighting where
  change : FileChange
  disk : Disk

/-- The event is about another file, or it has no other content than the given one to offer. -/
def Sighting.Harmless (filter : SourceFilter) (p : Path) (content : Bytes) (s : Sighting) : Prop :=
  s.change.About p →
    match s.change.kind with
    | .changed => True
    | .created => ∀ found, filter.sourceAt? s.disk p [] = some found → found = content
    | .deleted => False

theorem Sighting.harmless_of_changed {filter : SourceFilter} {p : Path} {content : Bytes}
    {s : Sighting} (h : s.change.About p → s.change.kind = .changed) : s.Harmless filter p content := by
  intro habout
  rw [h habout]
  trivial

def Workspace.followed (ws : Workspace) (filter : SourceFilter) (kind : ChangeKind) (file : Path)
    (d : Disk) : Disk :=
  match kind with
  | .deleted => ws.applyDeleted file d
  | _ => ws.applyCreated filter file d

/-- The scratch folders of the workspaces hold nothing but files and folders, and none lies in
another. -/
structure World.Tidy (w : World) (place : Path → Location) : Prop where
  sound : w.registry.Sound w.rules
  clean : ∀ {u : String} {ws : Workspace} {scratch : Path}, w.registry.workspace? u = some ws →
    ws.scratch = some scratch → w.disk.Clean scratch (place scratch)
  disjoint : ∀ {u v : String} {ws ws' : Workspace} {scratch scratch' : Path},
    w.registry.workspace? u = some ws → ws.scratch = some scratch →
    w.registry.workspace? v = some ws' → ws'.scratch = some scratch' → u ≠ v →
    ¬place scratch <+: place scratch'

section

variable (place : Path → Location) (p target : Path)

/-- Others left the document, its workspace and its copy alone, and the scratch folders tidy. -/
structure World.Respects (w w' : World) : Prop where
  rules : w'.rules = w.rules
  owner : w'.registry.findOwner? p = w.registry.findOwner? p
  isOpen : (w'.documents.lookup p).isSome = (w.documents.lookup p).isSome
  tidy : w.Tidy place → w'.Tidy place
  copy : w'.disk.content target = w.disk.content target

/-- Moreover no workspace changed while the job was stopped. -/
structure Halt.Respects (h : Halt) : Prop
    extends World.Respects place p target h.before h.after where
  registry : h.after.registry = h.before.registry

/-- The state in which a job went on last. -/
def World.lastSeen (w : World) (hs : List Halt) : World :=
  (hs.getLast?.map Halt.after).getD w

/-- The server comes from one state to the other by dealing with events about files, one after the
other. Before, between and after them others do their work. -/
inductive Watches : World → List Sighting → World → Prop where
  | nil {w w' : World} (h : World.Respects place p target w w') : Watches w [] w'
  | cons {w v v' w' : World} {change : FileChange} {events : List Sighting} {hs : List Halt}
    (h : World.Respects place p target w v)
    (hr : (Job.fileChanged change v).Reaches hs (.done v' ()))
    (hq : ∀ h ∈ hs, h.Respects place p target) (hrest : Watches v' events w') :
    Watches w (⟨change, (v.lastSeen hs).disk⟩ :: events) w'

end

section

variable {place : Path → Location} {p q target scratch : Path} {ws ws' : Workspace}
  {rules : CopyRules} {w w' : World} {ks : List Name} {d : Disk} {r : Registry}

theorem World.Respects.refl (place : Path → Location) (p target : Path) (w : World) :
    World.Respects place p target w w :=
  ⟨rfl, rfl, rfl, fun h => h, rfl⟩

theorem Watches.of_filesChanged {changes : List FileChange} {hs : List Halt}
    (hr : (Job.filesChanged changes w).Reaches hs (.done w' ()))
    (hq : ∀ h ∈ hs, h.Respects place p target) :
    ∃ events, events.map Sighting.change = changes ∧ Watches place p target w events w' := by
  induction changes generalizing w hs with
  | nil =>
    cases hr
    exact ⟨[], rfl, .nil (.refl place p target _)⟩
  | cons change changes ih =>
    unfold Job.filesChanged at hr
    rw [Job.bind_apply] at hr
    obtain ⟨hs₁, hs₂, v, _, heq, hfirst, hrest⟩ := hr.exists_of_bind
    rw [heq] at hq
    have hq₁ : ∀ h ∈ hs₁, h.Respects place p target :=
      fun h hh => hq h (List.mem_append_left hs₂ hh)
    have hq₂ : ∀ h ∈ hs₂, h.Respects place p target :=
      fun h hh => hq h (List.mem_append_right hs₁ hh)
    obtain ⟨events, hmap, hwatches⟩ := ih hrest hq₂
    refine ⟨⟨change, (w.lastSeen hs₁).disk⟩ :: events, by rw [List.map_cons, hmap], ?_⟩
    exact .cons (.refl place p target w) hfirst hq₁ hwatches

theorem Registry.workspace?_of_findOwner? (h : r.Ordered) (hfound : r.findOwner? p = some ws) :
    r.workspace? ws.uri = some ws := by
  obtain ⟨e, he, hsnap, _⟩ := of_findOwner? h hfound
  rw [workspace?, he, Option.map_some, ← hsnap]

/-- The place that a file has in the copy of the workspace that it lies in. -/
theorem Registry.Sound.exists_place (h : r.Sound rules) (hq : q.normalize = q)
    (hfound : r.findOwner? q = some ws) (htarget : ws.scratchPathFor? q = some target) :
    ∃ scratch ns, ws.scratch = some scratch ∧ ns ≠ [] ∧ (∀ n ∈ ns, IsName n)
      ∧ q.components = ws.root.components ++ ns.map .name ∧ target = scratch.inside ns := by
  obtain ⟨e, he, hsnap, howner⟩ := of_findOwner? h.ordered hfound
  rw [hsnap] at htarget
  obtain ⟨scratch, hready⟩ := Entry.exists_ready htarget
  obtain ⟨ns, hne, hns, hcs, hplace⟩ := h.exists_names howner he hready htarget
  rw [hq] at hcs
  refine ⟨scratch, ns, ?_, hne, hns, ?_, hplace⟩
  . rw [hsnap]
    exact Entry.snapshot_scratch_iff.mpr hready
  . rw [hsnap]
    exact hcs

/-- At most one file was touched, in the copy of the workspace that the path lies in. -/
def World.Touches (w : World) (place : Path → Location) (ws : Workspace) (q : Path) (d : Disk) :
    Prop :=
  d = w.disk ∨ ∃ scratch ns content, ws.scratch = some scratch
    ∧ q.components = ws.root.components ++ ns.map .name ∧ w.disk.Sets (place scratch) ns content d

namespace World.Tidy

theorem touches_followed (h : w.Tidy place) (hq : q.normalize = q)
    (hfound : w.registry.findOwner? q = some ws) (filter : SourceFilter) (kind : ChangeKind) :
    w.Touches place ws q (ws.followed filter kind q w.disk) := by
  cases htarget : ws.scratchPathFor? q with
  | none =>
    refine .inl ?_
    cases kind with
    | deleted => simp [Workspace.followed, Workspace.applyDeleted, htarget]
    | created => simp [Workspace.followed, Workspace.applyCreated, htarget]
    | changed => simp [Workspace.followed, Workspace.applyCreated, htarget]
  | some target =>
    obtain ⟨scratch, ns, hscratch, hne, hns, hcs, hplace⟩ := h.sound.exists_place hq hfound htarget
    have hclean := h.clean (Registry.workspace?_of_findOwner? h.sound.ordered hfound) hscratch
    rw [hplace] at htarget
    have hcreated : w.Touches place ws q (ws.applyCreated filter q w.disk) := by
      rcases Workspace.applyCreated_sets hclean hne hns htarget with hsets | hsets
      . exact .inr ⟨scratch, ns, _, hscratch, hcs, hsets⟩
      . obtain ⟨_, content, _, _, _, hsets⟩ := hsets
        exact .inr ⟨scratch, ns, some content, hscratch, hcs, hsets⟩
    cases kind with
    | deleted =>
      unfold Workspace.followed Workspace.applyDeleted
      rw [htarget]
      dsimp only
      split
      . next hu => exact .inr ⟨scratch, ns, none, hscratch, hcs, .unlink hclean hne hns hu⟩
      . exact .inl rfl
    | created => exact hcreated
    | changed => exact hcreated

theorem touches (h : w.Tidy place) (ht : w.Touches place ws q d) :
    { w with disk := d }.Tidy place := by
  refine ⟨h.sound, ?_, h.disjoint⟩
  intro u ws' scratch hws hscratch
  rcases ht with heq | ⟨_, _, _, _, _, hsets⟩
  . rw [heq]
    exact h.clean hws hscratch
  . exact (h.clean hws hscratch).sets hsets

theorem fileAt?_of_touches (h : w.Tidy place) (ht : w.Touches place ws q d) (hne : q ≠ p)
    (hq : q.normalize = q) (hp : p.normalize = p) (hws : w.registry.findOwner? q = some ws)
    (hws' : w.registry.findOwner? p = some ws') (hscratch : ws'.scratch = some scratch)
    (hks : p.components = ws'.root.components ++ ks.map .name) :
    d.fileAt? (place scratch ++ ks) = w.disk.fileAt? (place scratch ++ ks) := by
  have hget := Registry.workspace?_of_findOwner? h.sound.ordered hws
  have hget' := Registry.workspace?_of_findOwner? h.sound.ordered hws'
  rcases ht with heq | ⟨scratch', ns, content, hscratch', hns, hsets⟩
  . rw [heq]
  . by_cases huri : ws.uri = ws'.uri
    . -- In the same workspace another file has another place.
      rw [huri, hget', Option.some.injEq] at hget
      rw [← hget, hscratch, Option.some.injEq] at hscratch'
      rw [← hscratch'] at hsets
      rw [hsets.file_inside, if_neg]
      intro heq
      apply hne
      rw [← hget, ← heq, ← hks] at hns
      calc
        q = .ofComponents q.components := by rw [← hq, Path.ofComponents_components_normalize]
        _ = .ofComponents p.components := by rw [hns]
        _ = p := by rw [← hp, Path.ofComponents_components_normalize]
    . refine fileAt?_congr (hsets.outside ?_)
      intro hpre
      rcases List.prefix_or_prefix_of_prefix hpre (List.prefix_append _ ks) with hpre | hpre
      . exact h.disjoint hget hscratch' hget' hscratch huri hpre
      . exact h.disjoint hget' hscratch hget hscratch' (Ne.symm huri) hpre

end World.Tidy

end

/-- The file of a document has the given place in the copy of a workspace. -/
structure Workspace.Places (ws : Workspace) (p target scratch : Path) (ks : List Name) : Prop where
  normal : p.normalize = p
  scratch_eq : ws.scratch = some scratch
  target_eq : ws.scratchPathFor? p = some (scratch.inside ks)
  inside_eq : target = scratch.inside ks
  components_eq : p.components = ws.root.components ++ ks.map .name
  names_ne : ks ≠ []
  valid : ∀ n ∈ ks, IsName n
  spans : scratch.Spans ks

/-- A document of a workspace is open. -/
structure World.Attends (w : World) (place : Path → Location) (rules : CopyRules) (ws : Workspace)
    (p : Path) : Prop where
  rules_eq : w.rules = rules
  tidy : w.Tidy place
  owner : w.registry.findOwner? p = some ws
  isOpen : (w.documents.lookup p).isSome = true

namespace World.Attends

variable {place : Path → Location} {p q target scratch : Path} {ws ws' : Workspace}
  {rules : CopyRules} {w w' : World} {ks : List Name} {content : Bytes} {d : Disk}

theorem clean (h : w.Attends place rules ws p) (hscratch : ws.scratch = some scratch) :
    w.disk.Clean scratch (place scratch) :=
  h.tidy.clean (Registry.workspace?_of_findOwner? h.tidy.sound.ordered h.owner) hscratch

theorem content_iff (h : w.Attends place rules ws p) (hplaces : ws.Places p target scratch ks) :
    w.disk.content target = .ok content ↔ w.disk.fileAt? (place scratch ++ ks) = some content := by
  rw [hplaces.inside_eq, (h.clean hplaces.scratch_eq).content_inside_iff hplaces.valid]
  exact ⟨fun hc => hc.2, fun hc => ⟨hplaces.spans, hc⟩⟩

theorem respects (h : w.Attends place rules ws p) (hr : Respects place p target w w') :
    w'.Attends place rules ws p :=
  ⟨hr.rules.trans h.rules_eq, hr.tidy h.tidy, hr.owner.trans h.owner, hr.isOpen.trans h.isOpen⟩

theorem touches (h : w.Attends place rules ws p) (ht : w.Touches place ws' q d) :
    { w with disk := d }.Attends place rules ws p :=
  ⟨h.rules_eq, h.tidy.touches ht, h.owner, h.isOpen⟩

/-- A document whose text was written to the copy has its place there. -/
theorem exists_places (h : w.Attends place rules ws p) (hp : p.normalize = p)
    (htarget : ws.scratchPathFor? p = some target) (hcopy : w.disk.content target = .ok content) :
    ∃ scratch ks, ws.Places p target scratch ks := by
  obtain ⟨scratch, ks, hscratch, hne, hks, hcs, hplace⟩ :=
    h.tidy.sound.exists_place hp h.owner htarget
  rw [hplace] at hcopy
  obtain ⟨hspans, _⟩ := ((h.clean hscratch).content_inside_iff hks).mp hcopy
  rw [hplace] at htarget
  exact ⟨scratch, ks, hp, hscratch, htarget, hplace, hcs, hne, hks, hspans⟩

/-- What the copy of the document holds when an event about its file was dealt with. -/
theorem followed_iff (h : w.Attends place rules ws p) (hplaces : ws.Places p target scratch ks)
    (hcopy : w.disk.fileAt? (place scratch ++ ks) = some content) {change : FileChange}
    (habout : change.About p) (hkind : change.kind ≠ .changed) :
    (ws.followed rules.filter change.kind p w.disk).fileAt? (place scratch ++ ks) = some content
      ↔
    Sighting.Harmless rules.filter p content ⟨change, w.disk⟩ := by
  have hclean := h.clean hplaces.scratch_eq
  unfold Sighting.Harmless Workspace.followed
  simp only [habout, true_imp_iff]
  split
  . next hdeleted =>
    have hsets := Workspace.applyDeleted_sets hclean hplaces.names_ne hplaces.valid
      hplaces.target_eq fun _ => hplaces.spans
    rw [hsets.file_inside, if_pos rfl, hdeleted]
    simp
  . next hnot =>
    have hcreated : change.kind = .created := by
      cases hk : change.kind with
      | created => rfl
      | changed => exact absurd hk hkind
      | deleted => exact absurd hk hnot
    rw [hcreated]
    dsimp only
    cases hsource : rules.filter.sourceAt? w.disk p [] with
    | some found =>
      obtain ⟨l, executable, hext, hfind⟩ := SourceFilter.sourceAt?_nil_iff.mp hsource
      have hsets := Workspace.applyCreated_of_file hclean hplaces.names_ne hplaces.valid
        hplaces.target_eq hext hfind hplaces.spans (by simp [hcopy])
      rw [hsets.file_inside, if_pos rfl]
      simp
    | none =>
      rcases Workspace.applyCreated_sets hclean hplaces.names_ne hplaces.valid hplaces.target_eq
        with hsets | hsets
      . rw [hsets.file_inside, if_pos rfl, hcopy]
        simp
      . obtain ⟨l, found, executable, hext, hfind, _⟩ := hsets
        rw [SourceFilter.sourceAt?_nil_iff.mpr ⟨l, executable, hext, hfind⟩] at hsource
        cases hsource

/-- An event that is dealt with on the disk keeps a document attended, and its text if it is
harmless. -/
theorem followed (h : w.Attends place rules ws p) (hplaces : ws.Places p target scratch ks)
    (hcopy : w.disk.fileAt? (place scratch ++ ks) = some content) {change : FileChange} {path : Path}
    (hpath : Uri.toPath change.uri = .ok path)
    (hfound : w.registry.findOwner? path.normalize = some ws')
    (hkind : path.normalize = p → change.kind ≠ .changed) :
    let d := ws'.followed w.rules.filter change.kind path.normalize w.disk
    { w with disk := d }.Attends place rules ws p
      ∧ (d.fileAt? (place scratch ++ ks) = some content
        ↔
      Sighting.Harmless rules.filter p content ⟨change, w.disk⟩) := by
  have htouches := h.tidy.touches_followed path.normalize_normalize hfound w.rules.filter change.kind
  refine ⟨h.touches htouches, ?_⟩
  rw [h.rules_eq] at htouches ⊢
  by_cases heq : path.normalize = p
  . rw [heq, h.owner, Option.some.injEq] at hfound
    rw [heq, ← hfound]
    exact h.followed_iff hplaces hcopy ((FileChange.about_iff hpath).mpr heq) (hkind heq)
  . rw [h.tidy.fileAt?_of_touches htouches heq path.normalize_normalize hplaces.normal hfound h.owner
      hplaces.scratch_eq hplaces.components_eq]
    exact ⟨fun _ habout => absurd ((FileChange.about_iff hpath).mp habout) heq, fun _ => hcopy⟩

end World.Attends

namespace Job

variable {place : Path → Location} {p target scratch : Path} {ws : Workspace} {rules : CopyRules}
  {w : World} {ks : List Name} {content : Bytes}

theorem fileChanged_eq (change : FileChange) (w : World) :
    fileChanged change w
      =
    match Uri.toPath change.uri with
    | .error _ => .done w ()
    | .ok path =>
      match w.registry.findOwner? path.normalize with
      | none => .done w ()
      | some ws =>
        if ws.scratch.isSome = false
            ∨ change.kind = .changed ∧ (w.documents.lookup path.normalize).isSome = true then
          .done w ()
        else
          .ask w (@Query.rest .upkeep) fun _ w =>
            .done { w with
              disk := ws.followed w.rules.filter change.kind path.normalize w.disk } () := by
  unfold fileChanged
  cases Uri.toPath change.uri with
  | error e => rfl
  | ok path =>
    dsimp only [bind, Job.bind, get, Step.bind]
    cases w.registry.findOwner? path.normalize with
    | none => rfl
    | some ws =>
      dsimp only
      by_cases hscratch : ws.scratch.isSome = true
      . rw [if_pos hscratch]
        cases change.kind with
        | deleted =>
          rw [if_neg (by simp [hscratch])]
          rfl
        | created =>
          rw [if_neg (by simp [hscratch])]
          rfl
        | changed =>
          by_cases hopen : (w.documents.lookup path.normalize).isSome = true
          . rw [if_pos (by simp [hopen])]
            dsimp only
            rw [if_pos (by simp [hopen])]
            rfl
          . rw [if_neg (by simp [hopen, hscratch])]
            dsimp only
            rw [if_neg (by simp [hopen])]
            rfl
      . rw [if_neg hscratch, if_pos (by simp [hscratch])]
        rfl

/-- One event leaves the text in the copy of an open document if it is harmless, and only then. -/
theorem fileChanged_attends (h : w.Attends place rules ws p)
    (hplaces : ws.Places p target scratch ks)
    (hcopy : w.disk.fileAt? (place scratch ++ ks) = some content) (change : FileChange) :
    (fileChanged change w).Along (Halt.Respects place p target) (fun _ _ _ => True)
      (fun hs w' _ => w'.Attends place rules ws p
        ∧ (w'.disk.fileAt? (place scratch ++ ks) = some content
          ↔
        Sighting.Harmless rules.filter p content ⟨change, (w.lastSeen hs).disk⟩)) [] := by
  have hstays : ∀ {d : Disk}, (change.About p → change.kind = .changed) →
      w.Attends place rules ws p
        ∧ (w.disk.fileAt? (place scratch ++ ks) = some content
          ↔
        Sighting.Harmless rules.filter p content ⟨change, d⟩) := by
    intro d hkind
    exact ⟨h, fun _ => Sighting.harmless_of_changed hkind, fun _ => hcopy⟩
  rw [fileChanged_eq]
  split
  . next hpath =>
    apply hstays
    rintro ⟨path, hp, _⟩
    rw [hpath] at hp
    cases hp
  . next path hpath =>
    split
    . next hnone =>
      refine hstays fun habout => ?_
      rw [(FileChange.about_iff hpath).mp habout, h.owner] at hnone
      cases hnone
    . next ws' hfound =>
      split
      . next hcond =>
        refine hstays fun habout => ?_
        rw [(FileChange.about_iff hpath).mp habout, h.owner, Option.some.injEq] at hfound
        rcases hcond with hnone | ⟨hkind, _⟩
        . rw [← hfound, hplaces.scratch_eq] at hnone
          cases hnone
        . exact hkind
      . next hcond =>
        refine ⟨trivial, ?_⟩
        intro answer w' hq
        have hrespects : World.Respects place p target w w' := hq.toRespects
        have h' := h.respects hrespects
        have hcopy' : w'.disk.fileAt? (place scratch ++ ks) = some content := by
          rw [← h'.content_iff hplaces, hrespects.copy, h.content_iff hplaces, hcopy]
        have hregistry : w'.registry = w.registry := hq.registry
        rw [← hregistry] at hfound
        refine h'.followed hplaces hcopy' hpath hfound fun heq hkind => hcond (.inr ⟨hkind, ?_⟩)
        rw [heq]
        exact h.isOpen

end Job

section

variable {place : Path → Location} {p target scratch : Path} {ws : Workspace} {rules : CopyRules}
  {w w' : World} {ks : List Name} {content : Bytes} {events : List Sighting}

/-- The text stays in the copy over harmless events, and is gone after the first that is not. -/
theorem Watches.content_iff (hw : Watches place p target w events w')
    (h : w.Attends place rules ws p) (hplaces : ws.Places p target scratch ks)
    (hcopy : w.disk.content target = .ok content)
    (hfront : ∀ s ∈ events.dropLast, s.Harmless rules.filter p content) :
    w'.disk.content target = .ok content
      ↔
    ∀ s ∈ events, s.Harmless rules.filter p content := by
  induction hw with
  | nil hr =>
    rw [hr.copy, hcopy]
    simp
  | @cons w v v' w' change events hs hr hreaches hq hrest ih =>
    have hv := h.respects hr
    rw [← hr.copy, hv.content_iff hplaces] at hcopy
    obtain ⟨hv', hiff⟩ := (Job.fileChanged_attends hv hplaces hcopy change).of_reaches hreaches hq
    rw [List.nil_append, ← hv'.content_iff hplaces] at hiff
    rw [List.forall_mem_cons, ← hiff]
    cases events with
    | nil =>
      cases hrest with
      | nil hlast =>
        rw [hlast.copy]
        simp
    | cons s events =>
      have hcopy' := hiff.mpr (hfront _ (.head _))
      have hfront' : ∀ s' ∈ (s :: events).dropLast, s'.Harmless rules.filter p content :=
        fun s' hs' => hfront s' (.tail _ hs')
      rw [ih hv' hcopy' hfront']
      simp [hcopy']

/-- A document of a workspace with a copy is open, and its last text was written to the copy. The
text stays there over events about watched files, with others at work meanwhile, as long as none of
them deletes the file of the document and none creates it with another content as a source on the
disk. The first event that does so takes the text away. -/
theorem Watches.open_copy_stays_iff {text : String} (htidy : w.Tidy place) (hp : p.normalize = p)
    (hfound : w.registry.findOwner? p = some ws) (htarget : ws.scratchPathFor? p = some target)
    (hopen : (w.documents.lookup p).isSome = true)
    (hcopy : w.disk.content target = .ok (bytesOf text)) (hw : Watches place p target w events w')
    (hfront : ∀ s ∈ events.dropLast, s.Harmless w.rules.filter p (bytesOf text)) :
    w'.disk.content target = .ok (bytesOf text)
      ↔
    ∀ s ∈ events, s.Harmless w.rules.filter p (bytesOf text) := by
  have hattends : w.Attends place w.rules ws p := ⟨rfl, htidy, hfound, hopen⟩
  obtain ⟨scratch, ks, hplaces⟩ := hattends.exists_places hp htarget hcopy
  exact hw.content_iff hattends hplaces hcopy hfront

end

/-- The editor holds another text for the story than the disk. -/
def openWorld : World :=
  { draftWorld with
    disk := (Job.storyWorkspace.applyEdit (.ofString "/v/a.ink") "new" draftWorld.disk).1
    documents := [(.ofString "/v/a.ink", "/v/a.ink")] }

def draftPlace : Location :=
  [bytesOf "s", scratchName 0]

def draftCopy : Path :=
  (Job.storyRules.scratchOf 0).inside [bytesOf "a.ink"]

theorem isName_draft : ∀ n ∈ [bytesOf "a.ink"], IsName n := by
  have hname : IsName (bytesOf "a.ink") := ⟨by decide, by decide, by decide, by decide⟩
  simpa using hname

theorem normalize_draft : (Path.ofString "/v/a.ink").normalize = .ofString "/v/a.ink" := by
  decide

theorem scratchPathFor?_draftCopy :
    Job.storyWorkspace.scratchPathFor? (.ofString "/v/a.ink") = some draftCopy := by
  decide +kernel

theorem openWorld_sets :
    draftWorld.disk.Sets draftPlace [bytesOf "a.ink"] (some (bytesOf "new")) openWorld.disk
      ∧ (Job.storyRules.scratchOf 0).Spans [bytesOf "a.ink"] := by
  have hok : (Job.storyWorkspace.applyEdit (.ofString "/v/a.ink") "new" draftWorld.disk).2
      = .ok () := by
    decide +kernel
  exact Workspace.applyEdit_sets draftWorld_mirrors.overlaid.clean rfl (by simp) isName_draft
    scratchPathFor?_draftCopy hok

theorem openWorld_clean : openWorld.disk.Clean (Job.storyRules.scratchOf 0) draftPlace :=
  draftWorld_mirrors.overlaid.clean.sets openWorld_sets.1

theorem openWorld_fileAt? :
    openWorld.disk.fileAt? (draftPlace ++ [bytesOf "a.ink"]) = some (bytesOf "new") := by
  rw [openWorld_sets.1.file_inside, if_pos rfl]

theorem openWorld_tidy : openWorld.Tidy fun _ => draftPlace := by
  refine ⟨Job.storyWorld_sound, ?_, ?_⟩
  . intro u ws scratch hws hscratch
    obtain ⟨e, he, hsnap⟩ := Option.map_eq_some_iff.mp hws
    rw [← hsnap, (Job.storyWorld_get? he).2] at hscratch
    rw [← Option.some.inj hscratch]
    exact openWorld_clean
  . intro u v ws ws' scratch scratch' hws _ hws' _ hne
    obtain ⟨e, he, _⟩ := Option.map_eq_some_iff.mp hws
    obtain ⟨f, hf, _⟩ := Option.map_eq_some_iff.mp hws'
    exact absurd ((Job.storyWorld_get? he).1.trans (Job.storyWorld_get? hf).1.symm) hne

theorem openWorld_copy : openWorld.disk.content draftCopy = .ok (bytesOf "new") :=
  (openWorld_clean.content_inside_iff isName_draft).mpr ⟨openWorld_sets.2, openWorld_fileAt?⟩

theorem openWorld_findOwner? :
    openWorld.registry.findOwner? (.ofString "/v/a.ink") = some Job.storyWorkspace := by
  rw [← normalize_draft]
  exact draftWorld_findOwner? (.inl rfl)

def storyChanges : List FileChange :=
  [⟨"/v/a.ink", .changed⟩, ⟨"/v/b.ink", .deleted⟩]

theorem openWorld_reaches :
    ∃ w', (Job.filesChanged storyChanges openWorld).Reaches
      [Job.idle openWorld (@Query.rest .upkeep)] (.done w' ()) := by
  have ha : Uri.toPath "/v/a.ink" = .ok (.ofString "/v/a.ink") := by rfl
  have hb : Uri.toPath "/v/b.ink" = .ok (.ofString "/v/b.ink") := by rfl
  have hfound : openWorld.registry.findOwner? (Path.ofString "/v/b.ink").normalize
      = some Job.storyWorkspace := draftWorld_findOwner? (.inr rfl)
  have hchanged : Job.fileChanged ⟨"/v/a.ink", .changed⟩ openWorld = .done openWorld () := by
    rw [Job.fileChanged_eq, ha]
    dsimp only
    rw [normalize_draft, openWorld_findOwner?]
    dsimp only
    rw [if_pos (.inr ⟨rfl, by decide⟩)]
  have hdeleted : ∃ w', (Job.fileChanged ⟨"/v/b.ink", .deleted⟩ openWorld).Reaches
      [Job.idle openWorld (@Query.rest .upkeep)] (.done w' ()) := by
    rw [Job.fileChanged_eq, hb]
    dsimp only
    rw [hfound]
    dsimp only
    rw [if_neg (by simp [Job.storyWorkspace])]
    exact ⟨_, @Step.Reaches.resume _ _ _ _ _ () _ _ (.refl _)⟩
  obtain ⟨w', hlast⟩ := hdeleted
  refine ⟨w', ?_⟩
  unfold storyChanges Job.filesChanged
  rw [Job.bind_apply, hchanged]
  exact hlast.bind fun _ => Job.filesChanged []

theorem Watches.open_copy_stays_iff_story :
    ∃ events w', events.map Sighting.change = storyChanges
      ∧ Watches (fun _ => draftPlace) (.ofString "/v/a.ink") draftCopy openWorld events w'
      ∧ w'.disk.content draftCopy = .ok (bytesOf "new") := by
  obtain ⟨w', hreaches⟩ := openWorld_reaches
  have hrespects : ∀ h ∈ [Job.idle openWorld (@Query.rest .upkeep)],
      h.Respects (fun _ => draftPlace) (.ofString "/v/a.ink") draftCopy := by
    intro h hh
    rw [List.mem_singleton.mp hh]
    exact ⟨.refl (fun _ => draftPlace) (.ofString "/v/a.ink") draftCopy openWorld, rfl⟩
  obtain ⟨events, hmap, hwatches⟩ := of_filesChanged hreaches hrespects
  have hharmless : ∀ s ∈ events, s.Harmless openWorld.rules.filter (.ofString "/v/a.ink")
      (bytesOf "new") := by
    intro s hs
    have hchange : s.change ∈ storyChanges := by
      rw [← hmap]
      exact List.mem_map_of_mem hs
    unfold Sighting.Harmless FileChange.About
    rcases List.mem_cons.mp hchange with hchange | hchange
    . simp [hchange]
    . rw [List.mem_singleton.mp hchange]
      rintro ⟨path, hpath, hnormal⟩
      have hb : Uri.toPath "/v/b.ink" = .ok (.ofString "/v/b.ink") := by rfl
      rw [hb, Except.ok.injEq] at hpath
      rw [← hpath] at hnormal
      exact absurd hnormal (by decide)
  have hiff := open_copy_stays_iff openWorld_tidy normalize_draft openWorld_findOwner?
    scratchPathFor?_draftCopy (by decide) openWorld_copy hwatches
    fun s hs => hharmless s ((List.dropLast_sublist events).subset hs)
  exact ⟨events, w', hmap, hwatches, hiff.mpr hharmless⟩

/-- When the file of an open document is created anew on the disk, the copy does not hold the text
of the editor any more. -/
theorem Job.created_replaces_open_text :
    (openWorld.documents.lookup (.ofString "/v/a.ink")).isSome = true
      ∧ openWorld.disk.content draftCopy = .ok (bytesOf "new")
      ∧ ∃ w', (filesChanged [⟨"/v/a.ink", .created⟩] openWorld).Reaches
          [idle openWorld (@Query.rest .upkeep)] (.done w' ())
        ∧ w'.disk.content draftCopy = .ok (bytesOf "old") := by
  have ha : Uri.toPath "/v/a.ink" = .ok (.ofString "/v/a.ink") := by rfl
  have hext := storyRules_source (.inl rfl)
  rw [normalize_draft] at hext
  have hsource : openWorld.disk.find true (.ofString "/v/a.ink")
      = .ok ([bytesOf "v", bytesOf "a.ink"], .file (bytesOf "old") false) := by
    decide +kernel
  have hsets := Workspace.applyCreated_of_file openWorld_clean (by simp) isName_draft
    scratchPathFor?_draftCopy hext hsource openWorld_sets.2 (by rw [openWorld_fileAt?]; simp)
  let disk := storyWorkspace.applyCreated storyRules.filter (.ofString "/v/a.ink") openWorld.disk
  refine ⟨by decide, openWorld_copy, { openWorld with disk }, ?_, ?_⟩
  . unfold filesChanged
    rw [bind_apply, fileChanged_eq, ha]
    dsimp only
    rw [normalize_draft, openWorld_findOwner?]
    dsimp only
    rw [if_neg (by simp [storyWorkspace])]
    exact @Step.Reaches.resume _ _ _ _ _ () _ _ (.refl _)
  . refine ((openWorld_clean.sets hsets).content_inside_iff isName_draft).mpr ⟨openWorld_sets.2, ?_⟩
    rw [hsets.file_inside, if_pos rfl]

end InkServer
