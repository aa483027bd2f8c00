import InkServer.Proofs.Job.Renewal

/-!
This module contains what a new copy makes of the texts that the editor holds: that of the changed
document is there, and those of the other documents are there if they were saved.
-/

namespace InkServer

open Text

namespace DocumentCall

variable {call : DocumentCall} {calls : List DocumentCall} {texts : Texts}

theorem texts_normalize (h : ∀ p t, texts p = some t → p.normalize = p) (p : Path) (t : String)
    (hp : call.texts texts p = some t) : p.normalize = p := by
  unfold DocumentCall.texts at hp
  cases hpath : Uri.toPath call.uri with
  | error cause =>
    rw [hpath] at hp
    exact h p t hp
  | ok path =>
    rw [hpath] at hp
    dsimp only [Texts.set] at hp
    split at hp
    . next heq => rw [heq, Path.normalize_normalize]
    . exact h p t hp

theorem foldl_texts_normalize (h : ∀ p t, texts p = some t → p.normalize = p) (p : Path) (t : String)
    (hp : calls.foldl DocumentCall.texts texts p = some t) : p.normalize = p := by
  induction calls generalizing texts with
  | nil => exact h p t hp
  | cons call calls ih =>
    rw [List.foldl_cons] at hp
    exact ih (texts_normalize h) hp

end DocumentCall

theorem liveTexts_concat_changed {uri : String} {path : Path} (hpath : Uri.toPath uri = .ok path)
    (calls : List DocumentCall) (text : String) :
    liveTexts (calls ++ [.changed uri text])
      =
    (liveTexts calls).set path.normalize (some text) := by
  rw [liveTexts, List.foldl_append, List.foldl_cons, List.foldl_nil, DocumentCall.texts,
    DocumentCall.uri, hpath]
  rfl

/-- A document of the workspace is open with a text, and has a place in the copy. -/
structure World.Opens (w : World) (texts : Texts) (ws : Workspace) (p : Path) (text : String)
    (target : Path) : Prop where
  text : texts p = some text
  owner : w.registry.findOwner? p = some ws
  place : ws.scratchPathFor? p = some target

namespace Job

variable {w v : World} {uri text : String} {path scratch : Path} {R : Location}
  {ws ws' : Workspace} {hs : List Halt}

/-- What a new copy holds at the place of a document: the text that was written if it is the document
of the edit, and what was saved if it is another one. -/
theorem Renewed.content_iff {u : String} {root p target : Path} {former : Option Path} {x e : Entry}
    {t : String}
    (h : Renewed w u root R former (Texts.set (fun _ => none) path (some text)) scratch v)
    (hx : w.registry.get? u = some x) (hroot : x.root = root) (hnew : former ≠ some scratch)
    (he : v.registry.get? u = some e) (hready : e.state = .ready scratch)
    (howner : v.registry.ownerUri? p = some u) (hp : p.normalize = p)
    (htarget : (e.snapshot u).scratchPathFor? p = some target) :
    v.disk.content target = .ok (bytesOf t)
      ↔
    if p = path then bytesOf text = bytesOf t
    else v.rules.filter.sourceAt? v.disk p [] = some (bytesOf t) := by
  obtain ⟨hrenews, _⟩ := h
  have heroot : e.root = root := (hrenews.toKept.root_eq hx he).trans hroot
  obtain ⟨S, hrendered⟩ := (hrenews.copy he hready).resolve_left hnew
  obtain ⟨ns, hne, hns, hinside, hplace⟩ := exists_inside_of_scratchPathFor? hrenews.sound howner he
    hready (heroot ▸ hrendered.roots.isNamed) hp htarget
  rw [heroot] at hinside
  rw [hplace, hrendered.content_iff hne hns, ← hinside, hrenews.rules, Texts.set]
  split
  . simp
  . rw [hinside]
    rfl

theorem ensureReady_reaches_renewed {u : String} {x : Entry} {gone fresh : Path}
    (hx : w.registry.get? u = some x) (hr : x.state = .ready gone)
    (hgone : w.disk.isFolder gone = false)
    (hok : (w.rules.createCopy (scratchName w.draws) x.root w.disk).2 = .ok fresh) :
    ∃ r r', r'.get? u = some ⟨x.root, .ready fresh, x.generation + 1⟩
      ∧ (ensureReady u w).Reaches
        [idle w (@Query.rest .upkeep), idle { w with registry := r } (@Query.rest .upkeep)]
        (.done { w with
          disk := (w.rules.createCopy (scratchName w.draws) x.root w.disk).1
          registry := r', draws := w.draws + 1, settles := w.settles + 1 }
          (.ok ⟨u, x.root, some fresh⟩)) := by
  -- The caller finds the folder gone and gives the copy up. Then it looks again and makes a pass.
  let r := w.registry.markStale u gone
  let x1 : Entry := { x with state := .absent }
  let r1 := r.set u x1.beginPass
  let x2 : Entry := ⟨x.root, .ready fresh, x.generation + 1⟩
  let checking : Caller := ⟨u, false, .checking (x.snapshot u)⟩
  let copying : Caller := ⟨u, false, .copying x.root (x.generation + 1)⟩
  let w1 := { w with registry := r }
  let w2 := { w with registry := r1 }
  let w3 := { w with
    disk := (w.rules.createCopy (scratchName w.draws) x.root w.disk).1
    registry := r1.set u x2, draws := w.draws + 1, settles := w.settles + 1 }
  have hx1 : r.get? u = some x1 := by
    rw [Registry.get?_markStale, if_pos rfl, hx, Option.map_some, Entry.giveUp, if_pos hr]
  have hx2 : r1.get? u = some x1.beginPass := by
    rw [Registry.get?_set, if_pos rfl]
  have hcheck : w.work checking = (w1, .start u) := by
    rw [Caller.work_of_checking hr, if_neg (by simp [hgone])]
  have hpass : w2.work copying = (w3, ⟨u, false, .done (.ok (x2.snapshot u))⟩) := by
    have hwork : w2.work copying = _ := @Caller.copyPass_of_last copying u w2 _ hx2 rfl
    rw [hwork]
    dsimp only [w2, x1, Entry.beginPass]
    rw [hok]
    rfl
  have hcourse : (attend (attendFuel 1) [.start u] w).Reaches
      [idle w (@Query.rest .upkeep), idle w2 (@Query.rest .upkeep)]
      (.done w3 [⟨u, false, .done (.ok (x2.snapshot u))⟩]) := by
    rw [attendFuel, attend_one, Caller.move_start_of_ready hx hr]
    refine @Step.Reaches.resume _ _ _ _ _ () _ _ ?_
    rw [hcheck, attend_one, Caller.move_start_of_idle hx1 (by simp [x1]) (by simp [x1])]
    refine @Step.Reaches.resume _ _ _ _ _ () _ _ ?_
    dsimp only
    rw [hpass, attend_one]
    exact .refl _
  refine ⟨r1, r1.set u x2, by rw [Registry.get?_set, if_pos rfl], ?_⟩
  rw [ensureReady_eq]
  exact (hcourse.bind _).bind _

theorem idle_aloof {root : Path} {q : Query} (htree : w.disk.IsTree)
    (hleads : w.disk.find true root = .ok (R, .folder)) (hq : ∀ seen, q ≠ .settled seen)
    (hbegins : q = @Query.rest .upkeep → w.rules.Begins w.draws root R w.disk) :
    (idle w q).Aloof root R :=
  ⟨idle_quiet w hq, htree, hleads, fun _ => rfl, fun _ _ _ _ _ => rfl, hbegins⟩

theorem IdlesAt.aloof {h : Halt} {root : Path} (hidle : IdlesAt w h)
    (hbegins : w.rules.Begins w.draws root R w.disk) : h.Aloof root R := by
  obtain ⟨trace, q, heq, hq⟩ := hidle
  rw [heq]
  exact idle_aloof hbegins.isTree hbegins.leads hq fun _ => hbegins

section

variable {gone fresh : Path} {made : Disk} (hsound : w.registry.Sound w.rules)
  (hfound : w.registry.findOwner? path.normalize = some ws) (hws : ws.scratch = some gone)
  (hgone : w.disk.isFolder gone = false)
  (hmade : w.rules.createCopy (scratchName w.draws) ws.root w.disk = (made, .ok fresh))
  (hbegins : w.rules.Begins w.draws ws.root R w.disk)
  (hedit : ((⟨ws.uri, ws.root, some fresh⟩ : Workspace).applyEdit path.normalize text made).2
    = .ok ())

include hsound hfound hws hgone hmade hbegins hedit

theorem copyEdit_reaches_renewed (uri : String) :
    ∃ hs r v, (copyEdit uri path.normalize text ws w).Reaches hs (.done v true)
      ∧ (∀ h ∈ hs, h.Aloof ws.root R)
      ∧ Renewed w ws.uri ws.root R ws.scratch
        (Texts.set (fun _ => none) path.normalize (some text)) fresh v
      ∧ v = { w with
        disk := ((⟨ws.uri, ws.root, some fresh⟩ : Workspace).applyEdit path.normalize text made).1
        registry := r, draws := w.draws + 1, settles := w.settles + 1 } := by
  obtain ⟨x, hx, hsnap, howner⟩ := Registry.of_findOwner? hsound.ordered hfound
  have hroot : ws.root = x.root := by rw [hsnap]; rfl
  have hr : x.state = .ready gone := by
    rw [hsnap] at hws
    exact Entry.snapshot_scratch_iff.mp hws
  have hok : (w.rules.createCopy (scratchName w.draws) ws.root w.disk).2 = .ok fresh := by
    rw [hmade]
  obtain ⟨r, r', hget, hensure⟩ := ensureReady_reaches_renewed hx hr hgone (hroot ▸ hok)
  rw [← hroot] at hget hensure
  rw [hmade] at hensure
  let ready : Workspace := ⟨ws.uri, ws.root, some fresh⟩
  let w1 := { w with registry := r }
  let w2 := { w with
    disk := made, registry := r', draws := w.draws + 1, settles := w.settles + 1 }
  let w3 := { w2 with disk := (ready.applyEdit path.normalize text made).1 }
  let halts := [idle w (@Query.rest .upkeep), idle w1 (@Query.rest .upkeep),
    idle w2 (@Query.rest (.edit ready path.normalize text))]
  have hready : (readyWorkspace ws uri w).Reaches
      [idle w (@Query.rest .upkeep), idle w1 (@Query.rest .upkeep)] (.done w2 (.ok ready)) :=
    hensure.bind _
  have htry : (tryEdit uri path.normalize text ws w).Reaches halts (.done w3 .written) := by
    rw [tryEdit_eq]
    refine (hready.bind _).append ?_
    refine @Step.Reaches.resume _ _ _ _ _ () _ _ ?_
    dsimp only [w2]
    rw [hedit]
    exact .refl _
  have hcopy : (copyEdit uri path.normalize text ws w).Reaches halts (.done w3 true) := htry.bind _
  have hin := Registry.isInside_of_ownerUri? hsound.ordered howner hx
  have hnormal := hsound.normal hx
  rw [← hroot] at hin hnormal
  obtain ⟨S, hrendered⟩ := hbegins.rendered (hbegins.isNamed hin hnormal) hok fun _ => True
  rw [hmade] at hrendered
  have haloof : ∀ h ∈ halts, h.Aloof ws.root R := by
    -- Two halts are before the pass, the last one is before the write to the new copy.
    intro h hh
    simp only [halts, List.mem_cons, List.not_mem_nil, or_false] at hh
    rcases hh with hh | hh | hh
    . rw [hh]
      exact idle_aloof hbegins.isTree hbegins.leads (by simp) fun _ => hbegins
    . rw [hh]
      exact idle_aloof hbegins.isTree hbegins.leads (by simp) fun _ => hbegins
    . rw [hh]
      exact idle_aloof hrendered.roots.isTree hrendered.roots.leads (by simp) (by simp)
  have hstart := Renews.start hsound hx hsnap R fun _ => none
  have hwritten := (copyEdit_renews (fun _ _ _ _ => trivial) hx howner hsound
    path.normalize_normalize hstart uri text []).of_reaches hcopy (hroot ▸ haloof)
  obtain ⟨scratch, hrenews, e, he, hstate, hfolder⟩ := hwritten rfl
  have hscratch : scratch = fresh := by
    rw [Option.some.inj (he.symm.trans hget)] at hstate
    exact (CopyState.ready.inj hstate).symm
  rw [← hroot] at hrenews
  rw [hscratch] at hstate hfolder
  exact ⟨halts, r', w3, hcopy, haloof, ⟨hrenews, e, he, hstate, hfolder⟩, rfl⟩

/-- When the copy is gone, a new one can be made and written to, and the compiler is there, a run is
asked for that compiles the new copy. -/
theorem documentChanged_reaches_renewed {request : RunRequest} (hpath : Uri.toPath uri = .ok path)
    (hne : gone ≠ fresh)
    (hrequest : requestFor ⟨ws.uri, ws.root, some fresh⟩ (Settings.merge none w.initial w.defaults)
      = .ok request)
    (hnext : ∀ d, d = ((⟨ws.uri, ws.root, some fresh⟩ : Workspace).applyEdit path.normalize text
      made).1 → d.Roots ws.root R → w.rules.Begins (w.draws + 1) ws.root R d) :
    ∃ hs v k, (documentChanged uri text w).Reaches hs (.ask v (.start .compile request) k)
      ∧ (∀ h ∈ hs, h.Aloof ws.root R) ∧ v.rules = w.rules
      ∧ v.disk = ((⟨ws.uri, ws.root, some fresh⟩ : Workspace).applyEdit path.normalize text made).1
      ∧ ∀ p, w.registry.findOwner? p = some ws →
        v.registry.findOwner? p = some ⟨ws.uri, ws.root, some fresh⟩ := by
  obtain ⟨hs, r, v, hcopy, haloof, ⟨hrenews, e, he, hready, hfolder⟩, hv⟩ :=
    copyEdit_reaches_renewed hsound hfound hws hgone hmade hbegins hedit uri
  obtain ⟨x, hx, hsnap, _⟩ := Registry.of_findOwner? hsound.ordered hfound
  have hroot : e.root = ws.root := by
    rw [hrenews.toKept.root_eq hx he, hsnap]
    rfl
  have hsnapshot : e.snapshot ws.uri = ⟨ws.uri, ws.root, some fresh⟩ := by
    rw [Entry.snapshot, Entry.scratch?, hready, hroot]
  have hfinds : ∀ p, w.registry.findOwner? p = some ws →
      v.registry.findOwner? p = some (e.snapshot ws.uri) := by
    intro p hp
    obtain ⟨_, _, _, howner⟩ := Registry.of_findOwner? hsound.ordered hp
    rw [← Registry.ownerUri?_congr hrenews.outline] at howner
    exact Registry.findOwner?_of_get? hrenews.sound.ordered howner he
  obtain ⟨S, hrendered⟩ := (hrenews.copy he hready).resolve_left (by simpa [hws] using hne)
  have hbegins' : v.rules.Begins v.draws ws.root R v.disk := by
    rw [hrenews.rules, hv]
    exact hnext _ rfl (hv ▸ hrendered.roots)
  obtain ⟨hs', trace, k, hrun, hidle⟩ := @tryRun_reaches uri v path (e.snapshot ws.uri) e fresh request
    hpath (hfinds _ hfound) he hready hfolder (by
      rw [hv]
      exact hsnapshot ▸ hrequest)
  have hstart : ∃ k, (startFor (some uri) .compile .edit v).Reaches hs'
      (.ask { v with trace } (.start .compile request) k) := ⟨_, hrun.bind _⟩
  obtain ⟨k', hstart⟩ := hstart
  refine ⟨hs ++ hs', { v with trace }, k', ?_, ?_, hrenews.rules, by rw [hv], ?_⟩
  . rw [documentChanged_of_owner hpath hfound]
    exact (hcopy.bind _).append hstart
  . intro h hh
    cases List.mem_append.mp hh with
    | inl hh => exact haloof h hh
    | inr hh => exact (hidle h hh).aloof hbegins'
  . intro p hp
    rw [← hsnapshot]
    exact hfinds p hp

end

/-- When a change of a document comes to a run and the copy is not the former one, the run compiles
the new copy. This holds the last text of an open document exactly if the document is the changed one,
or its last text was saved. -/
theorem renewed_copy_holds_text_iff_saved {mode : Mode} {request : RunRequest}
    {k : (Query.start mode request).Answer → World → Step (Option Started)}
    {calls : List DocumentCall} {p target : Path} {t : String} (hsound : w.registry.Sound w.rules)
    (hpath : Uri.toPath uri = .ok path) (hfound : w.registry.findOwner? path.normalize = some ws)
    (hreaches : (documentChanged uri text w).Reaches hs (.ask v (.start mode request) k))
    (hq : ∀ h ∈ hs, h.Aloof ws.root R)
    (hfound' : v.registry.findOwner? path.normalize = some ws') (hnew : ws'.scratch ≠ ws.scratch)
    (hopens : v.Opens (liveTexts (calls ++ [.changed uri text])) ws' p t target) :
    mode = .compile ∧ (∃ settings, requestFor ws' settings = .ok request)
      ∧ (v.disk.content target = .ok (bytesOf t)
        ↔ p = path.normalize ∨ v.rules.filter.sourceAt? v.disk p [] = some (bytesOf t)) := by
  obtain ⟨hmode, scratch, e, settings, hrenewed, he, hready, hrequest⟩ :=
    ((documentChanged_renews hsound hpath hfound text []).of_reaches hreaches hq).1 mode request rfl
  have hrenews := hrenewed.1
  obtain ⟨x, hx, hsnap, howner⟩ := Registry.of_findOwner? hsound.ordered hfound
  -- The owner is the same workspace as before, with what its entry holds now.
  have howner' : v.registry.ownerUri? path.normalize = some ws.uri := by
    rw [Registry.ownerUri?_congr hrenews.outline, howner]
  rw [Registry.findOwner?_of_get? hrenews.sound.ordered howner' he, Option.some.injEq] at hfound'
  have hscratch : ws'.scratch = some scratch := by
    rw [← hfound']
    exact Entry.snapshot_scratch_iff.mpr hready
  obtain ⟨htext, hpowner, hplace⟩ := hopens
  obtain ⟨_, _, _, hpowner⟩ := Registry.of_findOwner? hrenews.sound.ordered hpowner
  have hp := DocumentCall.foldl_texts_normalize (by simp) p t htext
  rw [← hfound'] at hpowner hplace
  refine ⟨hmode, ⟨settings, hfound' ▸ hrequest⟩, ?_⟩
  rw [hrenewed.content_iff hx (by rw [hsnap]; rfl) (hscratch ▸ hnew.symm) he hready hpowner hp hplace]
  rw [liveTexts_concat_changed hpath, Texts.set] at htext
  split
  . next heq =>
    rw [if_pos heq, Option.some.injEq] at htext
    simp [heq, htext]
  . next hne => simp [hne]

/-- The story was copied once and its copy vanished since. -/
def lostWorld (documents : List (Path × String)) (trace : List Effect) : World :=
  { draftWorld with disk := draftDisk, draws := 1, documents, trace }

theorem lostWorld_sound (documents : List (Path × String)) (trace : List Effect) :
    (lostWorld documents trace).registry.Sound (lostWorld documents trace).rules :=
  storyWorld_sound

theorem lostWorld_findOwner? {name : String} (h : name = "/v/a.ink" ∨ name = "/v/b.ink")
    (documents : List (Path × String)) (trace : List Effect) :
    (lostWorld documents trace).registry.findOwner? (Path.ofString name).normalize
      = some storyWorkspace :=
  draftWorld_findOwner? h

def renewedWorkspace : Workspace := ⟨"/v", .ofString "/v", some (storyRules.scratchOf 1)⟩

def renewedDisk : Disk :=
  (storyRules.createCopy (scratchName 1) (.ofString "/v") draftDisk).1

theorem createCopy_renewedDisk :
    storyRules.createCopy (scratchName 1) (.ofString "/v") draftDisk
      =
    (renewedDisk, .ok (storyRules.scratchOf 1)) := by
  have hok : (storyRules.createCopy (scratchName 1) (.ofString "/v") draftDisk).2
      = .ok (storyRules.scratchOf 1) := by decide +kernel
  rw [renewedDisk, ← hok]

theorem begins_of_roots {n : Nat} {root : Path} {S : Location} {rules : CopyRules} {d : Disk}
    (h : d.Roots root R) (hapart : CopyRules.Apart root rules.scratchBase)
    (hnew : (d.createFolders (rules.scratchOf n)).1.list (rules.scratchOf n) = .ok [])
    (hS : (d.createFolders (rules.scratchOf n)).1.find true (rules.scratchOf n) = .ok (S, .folder))
    (hdisjoint : ¬S <+: R ∧ ¬R <+: S) : rules.Begins n root R d := by
  refine ⟨h.isTree, h.leads, h.plain, hapart, hnew, ?_⟩
  intro S' hS'
  rw [hS, Except.ok.injEq, Prod.mk.injEq] at hS'
  rw [← hS'.1]
  exact hdisjoint

theorem draftDisk_begins_again :
    storyRules.Begins 1 (.ofString "/v") [bytesOf "v"] draftDisk := by
  have hstory := draftDisk_begins
  have hroots : draftDisk.Roots (.ofString "/v") [bytesOf "v"] :=
    ⟨hstory.isTree, (hstory.isPlace (by decide) (by decide)).isNamed, hstory.leads, hstory.plain⟩
  exact @begins_of_roots _ _ _ [bytesOf "s", scratchName 1] _ _ hroots hstory.apart
    (by decide +kernel) (by decide +kernel) (by decide)

/-- The edits can be written to the new copy, and leave room for another one. -/
theorem renewedDisk_edit {name text : String}
    (h : (name = "/v/a.ink" ∧ text = "new") ∨ (name = "/v/b.ink" ∧ text = "more")) :
    (renewedWorkspace.applyEdit (Path.ofString name).normalize text renewedDisk).2 = .ok ()
      ∧ ∀ d, d = (renewedWorkspace.applyEdit (Path.ofString name).normalize text renewedDisk).1 →
        d.Roots (.ofString "/v") [bytesOf "v"] →
        storyRules.Begins 2 (.ofString "/v") [bytesOf "v"] d := by
  rcases h with ⟨rfl, rfl⟩ | ⟨rfl, rfl⟩
  . refine ⟨by decide +kernel, ?_⟩
    rintro d rfl hroots
    exact @begins_of_roots _ _ _ [bytesOf "s", scratchName 2] _ _ hroots draftDisk_begins.apart
      (by decide +kernel) (by decide +kernel) (by decide)
  . refine ⟨by decide +kernel, ?_⟩
    rintro d rfl hroots
    exact @begins_of_roots _ _ _ [bytesOf "s", scratchName 2] _ _ hroots draftDisk_begins.apart
      (by decide +kernel) (by decide +kernel) (by decide)

theorem lostWorld_reaches {name text : String}
    (h : (name = "/v/a.ink" ∧ text = "new") ∨ (name = "/v/b.ink" ∧ text = "more"))
    (documents : List (Path × String)) (trace : List Effect) :
    ∃ hs v request k,
      (documentChanged name text (lostWorld documents trace)).Reaches hs
        (.ask v (.start .compile request) k)
      ∧ (∃ settings, requestFor renewedWorkspace settings = .ok request)
      ∧ (∀ h ∈ hs, h.Aloof (.ofString "/v") [bytesOf "v"]) ∧ v.rules = storyRules
      ∧ v.disk = (renewedWorkspace.applyEdit (Path.ofString name).normalize text renewedDisk).1
      ∧ ∀ p, (lostWorld documents trace).registry.findOwner? p = some storyWorkspace →
        v.registry.findOwner? p = some renewedWorkspace := by
  obtain ⟨hedit, hnext⟩ := renewedDisk_edit h
  have hname : name = "/v/a.ink" ∨ name = "/v/b.ink" := h.imp And.left And.left
  have hpath : Uri.toPath name = .ok (.ofString name) := by
    rcases hname with rfl | rfl
    . rfl
    . rfl
  have hgone : draftDisk.isFolder (storyRules.scratchOf 0) = false := by decide +kernel
  have hne : storyRules.scratchOf 0 ≠ storyRules.scratchOf 1 := by decide
  have hrequest : ∃ request, requestFor renewedWorkspace
      (Settings.merge none draftWorld.initial draftWorld.defaults) = .ok request := ⟨_, by rfl⟩
  obtain ⟨request, hrequest⟩ := hrequest
  obtain ⟨hs, v, k, hreaches, hquiet⟩ :=
    documentChanged_reaches_renewed (lostWorld_sound documents trace)
      (lostWorld_findOwner? hname documents trace) rfl hgone createCopy_renewedDisk
      draftDisk_begins_again hedit hpath hne hrequest hnext
  exact ⟨hs, v, request, k, hreaches, ⟨_, hrequest⟩, hquiet⟩

theorem renewedWorkspace_place {name file : String}
    (h : (name = "/v/a.ink" ∧ file = "a.ink") ∨ (name = "/v/b.ink" ∧ file = "b.ink")) :
    renewedWorkspace.scratchPathFor? (Path.ofString name).normalize
      = some ((storyRules.scratchOf 1).child (bytesOf file)) := by
  rcases h with ⟨rfl, rfl⟩ | ⟨rfl, rfl⟩
  . decide
  . decide

theorem renewed_copy_holds_saved_text :
    ∃ hs v request k,
      (documentChanged "/v/b.ink" "more" (lostWorld [] [])).Reaches hs
        (.ask v (.start .compile request) k)
      ∧ (∃ settings, requestFor renewedWorkspace settings = .ok request)
      ∧ (∀ h ∈ hs, h.Aloof (.ofString "/v") [bytesOf "v"])
      ∧ v.Opens (liveTexts ([.opened "/v/a.ink" "old"] ++ [.changed "/v/b.ink" "more"]))
        renewedWorkspace (Path.ofString "/v/a.ink").normalize "old"
        ((storyRules.scratchOf 1).child (bytesOf "a.ink"))
      ∧ v.disk.content ((storyRules.scratchOf 1).child (bytesOf "a.ink")) = .ok (bytesOf "old") := by
  obtain ⟨hs, v, request, k, hreaches, _, haloof, hrules, hdisk, hfinds⟩ :=
    lostWorld_reaches (.inr ⟨rfl, rfl⟩) [] []
  have ha : Uri.toPath "/v/a.ink" = .ok (.ofString "/v/a.ink") := by rfl
  have hb : Uri.toPath "/v/b.ink" = .ok (.ofString "/v/b.ink") := by rfl
  have hopens : v.Opens (liveTexts ([.opened "/v/a.ink" "old"] ++ [.changed "/v/b.ink" "more"]))
      renewedWorkspace (Path.ofString "/v/a.ink").normalize "old"
      ((storyRules.scratchOf 1).child (bytesOf "a.ink")) := by
    refine ⟨?_, hfinds _ (draftWorld_findOwner? (.inl rfl)), renewedWorkspace_place (.inl ⟨rfl, rfl⟩)⟩
    simp only [liveTexts, List.cons_append, List.nil_append, List.foldl_cons, List.foldl_nil,
      DocumentCall.texts, DocumentCall.uri, ha, hb]
    decide
  have howner := lostWorld_findOwner? (.inr rfl) [] []
  obtain ⟨_, hrequest, hiff⟩ := renewed_copy_holds_text_iff_saved (lostWorld_sound [] []) hb howner hreaches haloof
    (hfinds _ howner) (by decide) hopens
  refine ⟨hs, v, request, k, hreaches, hrequest, haloof, hopens, hiff.mpr (.inr ?_)⟩
  rw [hrules, hdisk]
  decide +kernel

/-- The copy holds the new document, and is all that was made since the story was copied. -/
theorem draftWorld_edited :
    (storyWorkspace.applyEdit (Path.ofString "/v/b.ink").normalize "more" draftWorld.disk).1.content
        ((storyRules.scratchOf 0).child (bytesOf "b.ink"))
      = .ok (bytesOf "more")
    ∧ (storyWorkspace.applyEdit (Path.ofString "/v/b.ink").normalize "more"
        draftWorld.disk).1.removeTree (storyRules.scratchOf 0)
      = .ok draftDisk := by
  simp only [← toOption_eq_some_iff]
  decide +kernel

/-- A document is opened with a text that was never saved, and the text goes to the copy. Then the
copy vanishes. The next change of another document makes a new copy, which lacks the text. -/
theorem unsaved_text_missing_in_renewed_copy :
    ∃ opened lost hs v request k,
      Serves (.ofString "/v") (storyRules.scratchOf 0) [bytesOf "v"] [bytesOf "s", scratchName 0] "/v"
        { draftWorld with draws := 1 } [.opened "/v/b.ink" "more"] opened
      ∧ opened.disk.content ((storyRules.scratchOf 0).child (bytesOf "b.ink")) = .ok (bytesOf "more")
      ∧ opened.disk.removeTree (storyRules.scratchOf 0) = .ok lost.disk
      ∧ lost = { opened with disk := lost.disk }
      ∧ (documentChanged "/v/a.ink" "new" lost).Reaches hs (.ask v (.start .compile request) k)
      ∧ (∃ settings, requestFor renewedWorkspace settings = .ok request)
      ∧ (∀ h ∈ hs, h.Aloof (.ofString "/v") [bytesOf "v"])
      ∧ v.Opens (liveTexts ([.opened "/v/b.ink" "more"] ++ [.changed "/v/a.ink" "new"]))
        renewedWorkspace (Path.ofString "/v/b.ink").normalize "more"
        ((storyRules.scratchOf 1).child (bytesOf "b.ink"))
      ∧ v.disk.content ((storyRules.scratchOf 1).child (bytesOf "b.ink")) = .error .notFound := by
  have ha : Uri.toPath "/v/a.ink" = .ok (.ofString "/v/a.ink") := by rfl
  have hb : Uri.toPath "/v/b.ink" = .ok (.ofString "/v/b.ink") := by rfl
  let documents := setKey (Path.ofString "/v/b.ink").normalize "/v/b.ink" []
  let base : World := { draftWorld with draws := 1 }
  let w0 : World := { base with documents }
  have hmirrors := draftWorld_mirrors
  have hbase : base.Mirrors storyRules "/v" (.ofString "/v") (storyRules.scratchOf 0) [bytesOf "v"]
      [bytesOf "s", scratchName 0] fun _ => none :=
    ⟨rfl, hmirrors.sound, hmirrors.entry, hmirrors.place, hmirrors.overlaid⟩
  have h0 : w0.Mirrors storyRules "/v" (.ofString "/v") (storyRules.scratchOf 0) [bytesOf "v"]
      [bytesOf "s", scratchName 0] fun _ => none :=
    ⟨rfl, hmirrors.sound, hmirrors.entry, hmirrors.place, hmirrors.overlaid⟩
  obtain ⟨hs0, trace, hopened, hfair⟩ :=
    documentChanged_reaches_done h0 hb (draftWorld_findOwner? (.inr rfl)) rfl draftWorld_edit.1
  let opened : World :=
    { w0 with
      disk := (storyWorkspace.applyEdit (Path.ofString "/v/b.ink").normalize "more"
        draftWorld.disk).1
      trace }
  have hjob : ((DocumentCall.opened "/v/b.ink" "more").job base).Reaches hs0 (.done opened ()) := by
    have hjob : (documentOpened "/v/b.ink" "more" base).Reaches hs0 (.done opened none) := by
      unfold documentOpened
      rw [hb]
      exact hopened
    exact hjob.bind _
  have hconcerns : (DocumentCall.opened "/v/b.ink" "more").Concerns "/v" base := draftWorld_opened
  have hv := (DocumentCall.job_mirrors hbase hconcerns []).of_reaches hjob hfair
  obtain ⟨hs, v, request, k, hreaches, hrequest, haloof, _, hdisk, hfinds⟩ :=
    lostWorld_reaches (.inl ⟨rfl, rfl⟩) documents trace
  refine ⟨opened, lostWorld documents trace, hs, v, request, k, ?_, ?_, ?_, rfl, hreaches, hrequest, haloof,
    ?_, ?_⟩
  . exact .cons (spares_self hbase) hconcerns hjob hfair (.nil (spares_self hv))
  . exact draftWorld_edited.1
  . exact draftWorld_edited.2
  . refine ⟨?_, hfinds _ (draftWorld_findOwner? (.inr rfl)), renewedWorkspace_place (.inr ⟨rfl, rfl⟩)⟩
    simp only [liveTexts, List.cons_append, List.nil_append, List.foldl_cons, List.foldl_nil,
      DocumentCall.texts, DocumentCall.uri, ha, hb]
    decide
  . rw [hdisk]
    decide +kernel

end Job

end InkServer
