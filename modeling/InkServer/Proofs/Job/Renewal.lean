import InkServer.Proofs.Job.Overlay

/-!
This module contains the renewal of a copy: when a change of a document finds the copy gone, or
cannot write to it, a new one is made from the disk and takes the text of that document.
-/

namespace InkServer

open Text

/-- The root of a workspace that something lies in ends in a name. -/
theorem CopyRules.Begins.isNamed {rules : CopyRules} {n : Nat} {p root : Path} {R : Location}
    {d : Disk} (h : rules.Begins n root R d) (hin : p.isInside root = true)
    (hnormal : root.normalize = root) : root.IsNamed := by
  by_cases habs : root.isAbsolute = true
  . exact (h.isPlace habs hnormal).isNamed
  . -- Nothing lies inside a path that leads outwards, so a relative root consists of names.
    have hup := Path.up_not_mem_of_isInside hin hnormal
    obtain ⟨lead, ns, hcs, hlead⟩ := root.isNormal_components_normalize
    have hof := root.ofComponents_components_normalize
    rw [hnormal] at hcs hof
    rcases hlead with hlead | ⟨k, hlead⟩
    . rw [hcs, hlead] at hof
      rw [← hof] at habs
      exact absurd rfl habs
    . cases k with
      | succ k =>
        rw [hcs, hlead] at hup
        exact absurd (.head _) hup
      | zero =>
        rw [List.replicate_zero] at hlead
        rw [hlead, List.nil_append] at hcs
        rw [hcs] at hof
        have hne : ns ≠ [] := by
          intro hnil
          rw [hnil] at hof
          have hproper := (Disk.find_eq_ok_iff_way.mp h.leads).1
          rw [← hof] at hproper
          exact hproper.ne_nil rfl
        have hns : ∀ n ∈ ns, IsName n := by
          intro n hn
          apply @Path.isName_of_mem_components root
          rw [hcs]
          exact List.mem_map_of_mem hn
        rw [← hof]
        exact Path.isNamed_ofComponents_names hne hns

/-- While the job was stopped others left the workspace and all copies alone. When it looks after
copies next, the workspace has no links, and the place of the next scratch folder is free and lies
elsewhere. -/
structure Halt.Aloof (root : Path) (R : Location) (h : Halt) : Prop extends h.Quiet where
  isTree : h.after.disk.IsTree
  leads : h.after.disk.find true root = .ok (R, .folder)
  tree : ∀ ns : List Name, h.after.disk.node? (R ++ ns) = h.before.disk.node? (R ++ ns)
  below : ∀ (p : Path) (S : Location), p.startsWith h.before.rules.scratchBase = true →
    h.before.disk.find true p = .ok (S, .folder) →
    ∀ ns : List Name, h.after.disk.node? (S ++ ns) = h.before.disk.node? (S ++ ns)
  begins : h.query = @Query.rest .upkeep →
    h.after.rules.Begins h.after.draws root R h.after.disk

theorem Halt.Aloof.rendered {h : Halt} {root scratch : Path} {R S : Location}
    {filter : SourceFilter} {texts : Texts} (hq : h.Aloof root R)
    (hscratch : scratch.startsWith h.before.rules.scratchBase = true)
    (hr : h.before.disk.Rendered (fun _ => True) filter root scratch R S texts) :
    h.after.disk.Rendered (fun _ => True) filter root scratch R S texts := by
  have hsame := hq.below scratch S hscratch hr.clean.leads
  have hclean : h.after.disk.Clean scratch S := by
    refine ⟨⟨hq.isTree, hr.clean.isNamed, hq.copies _ _ _ hscratch hr.clean.leads, ?_⟩, ?_⟩
    . intro ns target
      rw [hsame]
      exact hr.clean.plain ns target
    . intro ns
      rw [hsame]
      exact hr.clean.regular ns
  exact hr.congr hq.isTree hq.leads hq.tree hclean fun ns _ => Disk.fileAt?_congr (hsame ns)

/-- A step of a caller that needs no work on files makes no copy ready. -/
theorem Caller.exists_ready_of_advance {c : Caller} {r : Registry} {settles : Nat} {u : String}
    {e : Entry} {scratch : Path} (h : (c.advance r settles).2.get? u = some e)
    (hs : e.state = .ready scratch) : ∃ x, r.get? u = some x ∧ x.state = .ready scratch := by
  unfold Caller.advance at h
  split at h
  . have hd := Registry.nextStep_decides r c.uri c.waited
    unfold look at h
    generalize r.nextStep c.uri c.waited = next at hd h
    cases hd with
    | absent => exact ⟨e, h, hs⟩
    | check => exact ⟨e, h, hs⟩
    | wait => exact ⟨e, h, hs⟩
    | copy =>
      rw [Registry.get?_set] at h
      split at h
      . rw [← Option.some.inj h] at hs
        cases hs
      . exact ⟨e, h, hs⟩
  . rw [giveUp, Registry.get?_markStale] at h
    split at h
    . obtain ⟨x, hx, heq⟩ := Option.map_eq_some_iff.mp h
      rw [← heq] at hs
      exact ⟨x, hx, Entry.giveUp_state_eq_ready hs⟩
    . exact ⟨e, h, hs⟩
  . exact ⟨e, h, hs⟩
  . split at h
    . exact ⟨e, h, hs⟩
    . exact ⟨e, h, hs⟩
  . split at h
    . exact ⟨e, h, hs⟩
    . exact ⟨e, h, hs⟩
  . split at h
    . exact ⟨e, h, hs⟩
    . exact ⟨e, h, hs⟩
  . exact ⟨e, h, hs⟩

/-- What makes a copy ready is a pass over the root in the entry. -/
theorem World.ready_of_work {c : Caller} {w : World} {u : String} {e : Entry} {scratch : Path}
    (hfit : c.Fits u w) (h : (w.work c).1.registry.get? u = some e) (hs : e.state = .ready scratch) :
    ((w.work c).1.disk = w.disk ∧ ∃ x, w.registry.get? u = some x ∧ x.state = .ready scratch)
      ∨ ∃ x, w.registry.get? u = some x
        ∧ (w.rules.createCopy (scratchName w.draws) x.root w.disk).2 = .ok scratch
        ∧ (w.work c).1.disk = (w.rules.createCopy (scratchName w.draws) x.root w.disk).1 := by
  obtain ⟨huri, hphase⟩ := hfit
  unfold World.work at h ⊢
  split at h
  . dsimp only at h ⊢
    split at h
    . rw [Caller.giveUp, Registry.get?_markStale] at h
      split at h
      . obtain ⟨x, hx, heq⟩ := Option.map_eq_some_iff.mp h
        rw [← heq] at hs
        exact .inl ⟨rfl, x, hx, Entry.giveUp_state_eq_ready hs⟩
      . exact .inl ⟨rfl, e, h, hs⟩
    . exact .inl ⟨rfl, e, h, hs⟩
  . next root generation hp =>
    rw [hp] at hphase
    obtain ⟨x, hx, hgeneration, hroot⟩ := hphase
    unfold World.copyPass Caller.settle at h ⊢
    dsimp only at h ⊢
    rw [Registry.get?_commit, if_pos huri.symm, hx, Option.map_some, Option.some.injEq,
      Entry.settlePass_of_eq hgeneration] at h
    rw [← h] at hs
    refine .inr ⟨x, hx, ?_, by rw [hroot]⟩
    rw [hroot]
    -- Only a pass that succeeds leaves the copy ready.
    cases hpass : (w.rules.createCopy (scratchName w.draws) root w.disk).2 with
    | ok made =>
      rw [hpass] at hs
      rw [CopyState.ready.inj hs]
    | error cause =>
      rw [hpass] at hs
      cases hs
  . exact .inl ⟨rfl, e, h, hs⟩

namespace Job

variable {At : List Halt → World → Query → Prop} {w v v' : World} {u uri text : String}
  {root path scratch : Path} {R : Location} {former : Option Path} {texts : Texts} {x e : Entry}
  {ws : Workspace} {hs : List Halt}

/-- Since the state `w` the job did nothing but look after the copy of a workspace. When the copy is
not the former one, it is the disk under the given texts. -/
structure Renews (w : World) (u : String) (root : Path) (R : Location) (former : Option Path)
    (texts : Texts) (v : World) : Prop extends Kept w v where
  copy : ∀ {e : Entry} {scratch : Path}, v.registry.get? u = some e → e.state = .ready scratch →
    former = some scratch
      ∨ ∃ S, v.disk.Rendered (fun _ => True) w.rules.filter root scratch R S texts

theorem Renews.start (hsound : w.registry.Sound w.rules) (hx : w.registry.get? ws.uri = some x)
    (hsnap : ws = x.snapshot ws.uri) (R : Location) (texts : Texts) :
    Renews w ws.uri x.root R ws.scratch texts w := by
  refine ⟨⟨hsound, rfl, rfl⟩, ?_⟩
  intro e scratch he hready
  rw [hx, Option.some.injEq] at he
  rw [hsnap, he]
  exact .inl (Entry.snapshot_scratch_iff.mpr hready)

theorem Renews.congr (h : Renews w u root R former texts v) (hregistry : v'.registry = v.registry)
    (hrules : v'.rules = v.rules) (hdisk : v'.disk = v.disk) : Renews w u root R former texts v' := by
  refine ⟨⟨?_, hrules.trans h.rules, by rw [hregistry, h.outline]⟩, ?_⟩
  . rw [hregistry, hrules]
    exact h.sound
  . rw [hregistry, hdisk]
    exact h.copy

theorem Renews.halt {q : Query} (h : Renews w u root R former texts v)
    (hq : Halt.Aloof root R ⟨v, q, v'⟩) : Renews w u root R former texts v' := by
  have hregistry : v'.registry = v.registry := hq.registry
  have hrules : v'.rules = v.rules := hq.rules
  refine ⟨⟨?_, hrules.trans h.rules, by rw [hregistry, h.outline]⟩, ?_⟩
  . rw [hregistry, hrules]
    exact h.sound
  . intro e scratch he hready
    rw [hregistry] at he
    rcases h.copy he hready with hformer | ⟨S, hrendered⟩
    . exact .inl hformer
    . exact .inr ⟨S, hq.rendered (h.sound.scratch_startsWith he hready) hrendered⟩

/-- Looking after the copy keeps it the former one, or makes a new one that shows no texts. -/
theorem renews_upholds (hx : w.registry.get? u = some x) (hin : path.isInside x.root = true)
    (hnormal : x.root.normalize = x.root) :
    Upholds (Halt.Aloof x.root R) (Renews w u x.root R former fun _ => none) u := by
  refine ⟨fun hq => hq.toUndisturbed, fun h hq => h.halt hq, ?_, ?_⟩
  . intro c v hfit hsound h settles
    have htended := (hfit.advance [] hsound settles).2
    refine ⟨h.toKept.trans (.of_tended htended), ?_⟩
    intro e scratch he hready
    obtain ⟨y, hy, hstate⟩ := Caller.exists_ready_of_advance he hready
    exact h.copy hy hstate
  . intro c _ v hq hfit hsound h
    have htended := (hfit.work [] hsound).2
    refine ⟨h.toKept.trans (.of_tended htended), ?_⟩
    intro e scratch he hready
    rcases World.ready_of_work hfit he hready with ⟨hdisk, y, hy, hstate⟩ | ⟨y, hy, hok, hdisk⟩
    . rw [hdisk]
      exact h.copy hy hstate
    . -- The pass was made over the disk as it is now, and nothing was written to the copy since.
      have hbegins : v.rules.Begins v.draws x.root R v.disk := hq.begins rfl
      rw [h.toKept.root_eq hx hy] at hok hdisk
      rw [hdisk, ← h.rules]
      exact .inr (hbegins.rendered (hbegins.isNamed hin hnormal) hok _)

theorem exists_inside_of_scratchPathFor? {target : Path} (hsound : v.registry.Sound v.rules)
    (howner : v.registry.ownerUri? path = some u) (he : v.registry.get? u = some e)
    (hready : e.state = .ready scratch) (hnamed : e.root.IsNamed) (hpath : path.normalize = path)
    (htarget : (e.snapshot u).scratchPathFor? path = some target) :
    ∃ ns : List Name, ns ≠ [] ∧ (∀ n ∈ ns, IsName n) ∧ path = e.root.inside ns
      ∧ target = scratch.inside ns := by
  obtain ⟨ns, hne, hns, hcs, hinside⟩ := hsound.exists_names howner he hready htarget
  refine ⟨ns, hne, hns, ?_, ?_⟩
  . have hof := path.ofComponents_components_normalize
    rw [hcs, hpath, hnamed.ofComponents_append (hsound.normal he) hns] at hof
    exact hof.symm
  . rw [hinside]

/-- An edit that is written to a new copy stands there, over the disk. -/
theorem Renews.applyEdit (h : Renews w u root R former texts v) (hx : w.registry.get? u = some x)
    (hroot : x.root = root) (howner : w.registry.ownerUri? path = some u)
    (hpath : path.normalize = path) (he : v.registry.get? u = some e)
    (hready : e.state = .ready scratch)
    (hok : ((e.snapshot u).applyEdit path text v.disk).2 = .ok ()) :
    Renews w u root R former (texts.set path (some text))
      { v with disk := ((e.snapshot u).applyEdit path text v.disk).1 } := by
  refine ⟨⟨h.sound, h.rules, h.outline⟩, ?_⟩
  intro e' scratch' he' hready'
  -- The entry has not changed. A former copy stays the former one, whatever is written to it.
  have hsame : e' = e := Option.some.inj (he'.symm.trans he)
  rw [hsame, hready] at hready'
  rw [← CopyState.ready.inj hready']
  rcases h.copy he hready with hformer | ⟨S, hrendered⟩
  . exact .inl hformer
  . have heroot : e.root = root := (h.toKept.root_eq hx he).trans hroot
    have howner' : v.registry.ownerUri? path = some u := by
      rw [Registry.ownerUri?_congr h.outline, howner]
    obtain ⟨target, _, _, htarget, _⟩ := Workspace.find_of_applyEdit hok
    obtain ⟨ns, hne, hns, hinside, heq⟩ := exists_inside_of_scratchPathFor? h.sound howner' he hready
      (heroot ▸ hrendered.roots.isNamed) hpath htarget
    rw [heroot] at hinside
    rw [hinside] at htarget hok ⊢
    rw [heq] at htarget
    exact .inr ⟨S, hrendered.applyEdit_inside (Entry.snapshot_scratch_iff.mpr hready) hne hns htarget
      hok⟩

/-- The copy of the workspace is ready under the given texts, unless it is the former one. -/
def Renewed (w : World) (u : String) (root : Path) (R : Location) (former : Option Path)
    (texts : Texts) (scratch : Path) (v : World) : Prop :=
  Renews w u root R former texts v
    ∧ ∃ e, v.registry.get? u = some e ∧ e.state = .ready scratch ∧ v.disk.isFolder scratch = true

theorem renewed_persists (w : World) (u : String) (root : Path) (R : Location)
    (former : Option Path) (texts : Texts) (scratch : Path) :
    Persists (Halt.Aloof root R) (Renewed w u root R former texts scratch) u scratch := by
  refine ⟨fun hq => hq.registry, ?_, fun h _ => ⟨h.1.congr rfl rfl rfl, h.2⟩,
    fun h _ => ⟨h.1.congr rfl rfl rfl, h.2⟩, fun h => h.2⟩
  rintro v v' q ⟨h, e, he, hready, hfolder⟩ hq
  have hregistry : v'.registry = v.registry := hq.registry
  exact ⟨h.halt hq, e, by rw [hregistry, he], hready,
    hq.toQuiet.isFolder (h.sound.scratch_startsWith he hready) hfolder⟩

theorem tryEdit_renews (hat : ∀ hs w q, IsFileWork q → At hs w q)
    (hx : w.registry.get? ws.uri = some x) (howner : w.registry.ownerUri? path = some ws.uri)
    (hsound : w.registry.Sound w.rules) (hpath : path.normalize = path)
    (h : Renews w ws.uri x.root R former (fun _ => none) v) (uri text : String) (hs : List Halt) :
    (tryEdit uri path text ws v).Along (Halt.Aloof x.root R) At
      (fun _ v' a => Kept w v'
        ∧ (a = .written → ∃ scratch, Renewed w ws.uri x.root R former
          (Texts.set (fun _ => none) path (some text)) scratch v')
        ∧ ∀ ready, a = .fault ready → ∃ e scratch, v'.registry.get? ws.uri = some e
          ∧ e.state = .ready scratch ∧ ready = e.snapshot ws.uri) hs := by
  have hin := Registry.isInside_of_ownerUri? hsound.ordered howner hx
  have hupholds := @renews_upholds w ws.uri path R former x hx hin (hsound.normal hx)
  rw [tryEdit_eq]
  apply Step.along_bind
  have hready := readyWorkspace_upholds hupholds (fun hs w q hq => hat hs w q (.upkeep hq)) h.sound h
    uri hs
  refine hready.mono (fun _ _ _ h => h) ?_
  rintro hs1 v1 r ⟨_, h1, hready⟩
  cases r with
  | error cause => exact ⟨⟨h1.sound, h1.rules, h1.outline⟩, by simp, by simp⟩
  | ok ready =>
    refine ⟨hat _ _ _ .edit, ?_⟩
    intro answer v2 hq
    have h2 := h1.halt hq
    have hregistry : v2.registry = v1.registry := hq.registry
    obtain ⟨e, scratch, he1, hstate, hsnap, hfolder⟩ := hready ready rfl
    have he : v2.registry.get? ws.uri = some e := by rw [hregistry, he1]
    have hfolder2 := hq.toQuiet.isFolder (h1.sound.scratch_startsWith he1 hstate) hfolder
    refine ⟨⟨h2.sound, h2.rules, h2.outline⟩, ?_, ?_⟩
    . intro hwritten
      have hok := eq_ok_of_attemptOf hwritten
      rw [hsnap] at hok ⊢
      refine ⟨scratch, h2.applyEdit hx rfl howner hpath he hstate hok, e, he, hstate, ?_⟩
      exact (Workspace.applyEdit_keeps _ path text v2.disk).isFolder hfolder2
    . intro ready' hfault
      rw [eq_of_attemptOf_fault hfault]
      exact ⟨e, scratch, he, hstate, hsnap⟩

/-- A copy that is given up is not ready any more, so that the next one is new. -/
theorem abandon_renews (h : Kept w v) (he : v.registry.get? u = some e)
    (hready : e.state = .ready scratch) (texts : Texts) :
    Renews w u root R former texts { v with registry := v.registry.markStale u scratch } := by
  have hkept : Kept v { v with registry := v.registry.markStale u scratch } :=
    ⟨h.sound.markStale u scratch, rfl, Registry.outline_markStale h.sound.ordered u scratch⟩
  refine ⟨h.trans hkept, ?_⟩
  intro e' scratch' he' hready'
  rw [Registry.get?_markStale, if_pos rfl, he, Option.map_some, Option.some.injEq] at he'
  rw [← he', Entry.giveUp, if_pos hready] at hready'
  cases hready'

theorem copyEdit_renews (hat : ∀ hs w q, IsFileWork q → At hs w q)
    (hx : w.registry.get? ws.uri = some x) (howner : w.registry.ownerUri? path = some ws.uri)
    (hsound : w.registry.Sound w.rules) (hpath : path.normalize = path)
    (h : Renews w ws.uri x.root R former (fun _ => none) v) (uri text : String) (hs : List Halt) :
    (copyEdit uri path text ws v).Along (Halt.Aloof x.root R) At
      (fun _ v' written => written = true → ∃ scratch, Renewed w ws.uri x.root R former
        (Texts.set (fun _ => none) path (some text)) scratch v') hs := by
  apply Step.along_bind
  refine (tryEdit_renews hat hx howner hsound hpath h uri text hs).mono (fun _ _ _ h => h) ?_
  rintro hs1 v1 a ⟨hkept, hwritten, hfault⟩
  cases a with
  | written => exact fun _ => hwritten rfl
  | refused => exact fun h => absurd h (by simp)
  | fault ready =>
    obtain ⟨e, scratch, he, hready, hsnap⟩ := hfault ready rfl
    have hscratch : ready.scratch = some scratch := by
      rw [hsnap]
      exact Entry.snapshot_scratch_iff.mpr hready
    have huri : ready.uri = ws.uri := by rw [hsnap]; rfl
    -- The copy that took no text is given up, and the second attempt begins without one.
    have h1 := @abandon_renews w v1 ws.uri x.root scratch R former e hkept he hready fun _ => none
    apply Step.along_bind
    change Step.Along _ _ _ _ (Step.done _ _)
    rw [hscratch, huri]
    apply Step.along_bind
    refine (tryEdit_renews hat hx howner hsound hpath h1 uri text hs1).mono (fun _ _ _ h => h) ?_
    rintro hs2 v2 a ⟨_, hwritten, _⟩
    cases a with
    | written => exact fun _ => hwritten rfl
    | refused => exact fun h => absurd h (by simp)
    | fault ready' => exact fun h => absurd h (by simp)

/-- The run compiles the copy of the workspace, which is ready under the given texts, unless it is the
former one. -/
def CompilesRenewed (w : World) (ws : Workspace) (R : Location) (texts : Texts) (v : World)
    (mode : Mode) (request : RunRequest) : Prop :=
  mode = .compile ∧ ∃ scratch e settings, Renewed w ws.uri ws.root R ws.scratch texts scratch v
    ∧ v.registry.get? ws.uri = some e ∧ e.state = .ready scratch
    ∧ requestFor (e.snapshot ws.uri) settings = .ok request

theorem documentChanged_renews (hsound : w.registry.Sound w.rules) (hpath : Uri.toPath uri = .ok path)
    (hfound : w.registry.findOwner? path.normalize = some ws) (text : String) (hs : List Halt) :
    (documentChanged uri text w).Along (Halt.Aloof ws.root R)
      (fun _ v q => ∀ mode request, q = .start mode request →
        CompilesRenewed w ws R (Texts.set (fun _ => none) path.normalize (some text)) v mode request)
      (fun _ _ _ => True) hs := by
  obtain ⟨x, hx, hsnap, howner⟩ := Registry.of_findOwner? hsound.ordered hfound
  have hroot : x.root = ws.root := by rw [hsnap]; rfl
  have hstart := Renews.start hsound hx hsnap R fun _ => none
  have hwork : ∀ (_ : List Halt) (v : World) (q : Query), IsFileWork q →
      ∀ mode request, q = .start mode request → CompilesRenewed w ws R
        (Texts.set (fun _ => none) path.normalize (some text)) v mode request := by
    intro _ v q hq mode request heq
    rw [heq] at hq
    cases hq with
    | upkeep h => cases h
  have hcopy := copyEdit_renews hwork hx howner hsound path.normalize_normalize hstart uri text hs
  rw [hroot] at hcopy
  rw [documentChanged_of_owner hpath hfound]
  apply Step.along_bind
  refine hcopy.mono (fun _ _ _ h => h) ?_
  intro hs1 v1 written hwritten
  cases written with
  | false => trivial
  | true =>
    obtain ⟨scratch, hrenewed⟩ := hwritten rfl
    obtain ⟨e, he, _⟩ := hrenewed.2
    have howner1 : v1.registry.ownerUri? path.normalize = some ws.uri := by
      rw [Registry.ownerUri?_congr hrenewed.1.outline, howner]
    have hfound1 := Registry.findOwner?_of_get? hrenewed.1.sound.ordered howner1 he
    have hpersists := renewed_persists w ws.uri ws.root R ws.scratch
      (Texts.set (fun _ => none) path.normalize (some text)) scratch
    refine (@startFor_along _ uri v1 (e.snapshot ws.uri) path scratch _ _ hpersists hrenewed hpath
      hfound1 ?_ ?_ hs1).mono (fun _ _ _ h => h) fun _ _ _ _ => trivial
    . intro _ v q hq mode request heq
      exact absurd heq (hq mode request)
    . intro _ v e settings request hv he hready hrequest mode request' heq
      cases heq
      exact ⟨rfl, scratch, e, settings, hv, he, hready, hrequest⟩

end Job

end InkServer
