import InkServer.Proofs.Copy.Place

/-!
This module contains what a pass that succeeds leaves in its scratch folder: the sources of the
workspace, each at its place, and no other file.
-/

namespace InkServer

open Text Disk

theorem SourceFilter.hasSourceExtension_inside (filter : SourceFilter) (p q : Path)
    {ns : List Name} (hne : ns ≠ []) (hns : ∀ n ∈ ns, IsName n) :
    filter.hasSourceExtension (p.inside ns) = filter.hasSourceExtension (q.inside ns) := by
  have hname : ∀ r : Path, (r.inside ns).fileName? = some (ns.getLast hne) := by
    intro r
    have hlast : (r.inside ns).components.getLast? = some (.name (ns.getLast hne)) := by
      rw [Path.components_inside r hns, List.getLast?_append, List.getLast?_map,
        List.getLast?_eq_some_getLast hne]
      rfl
    rw [Path.fileName?, hlast]
  unfold hasSourceExtension Path.extension?
  rw [hname, hname]

/-- The content of the source file at the end of names below a path. -/
def SourceFilter.sourceAt? (filter : SourceFilter) (d : Disk) (p : Path) (ns : List Name) :
    Option Bytes :=
  match d.find true (p.inside ns) with
  | .ok (_, .file content _) =>
    if filter.hasSourceExtension (p.inside ns) then some content else none
  | _ => none

theorem SourceFilter.sourceAt?_nil_iff {filter : SourceFilter} {d : Disk} {p : Path}
    {content : Bytes} :
    filter.sourceAt? d p [] = some content
      ↔
    ∃ l executable, filter.hasSourceExtension p = true
      ∧ d.find true p = .ok (l, .file content executable) := by
  unfold sourceAt?
  rw [Path.inside_nil]
  constructor
  . intro h
    split at h
    . next l found executable hfind =>
      split at h
      . next hext =>
        rw [Option.some.injEq] at h
        rw [← h]
        exact ⟨l, executable, hext, hfind⟩
      . cases h
    . cases h
  . rintro ⟨l, executable, hext, hfind⟩
    rw [hfind]
    simp [hext]

theorem Disk.Roots.sourceAt?_eq_some_iff {d : Disk} {p : Path} {loc : Location} {ns : List Name}
    {filter : SourceFilter} {content : Bytes} (h : d.Roots p loc) (hns : ∀ n ∈ ns, IsName n) :
    filter.sourceAt? d p ns = some content
      ↔
    p.Spans ns ∧ filter.hasSourceExtension (p.inside ns) = true
      ∧ d.fileAt? (loc ++ ns) = some content := by
  unfold SourceFilter.sourceAt?
  constructor
  . intro hs
    split at hs
    . next l c x hl =>
      obtain ⟨hp, _, hn⟩ := (h.find_true_inside_iff hns).mp hl
      split at hs
      . next hext =>
        rw [← hs]
        exact ⟨hp, hext, fileAt?_eq_some_iff.mpr ⟨x, hn⟩⟩
      . cases hs
    . cases hs
  . rintro ⟨hp, hext, hfile⟩
    obtain ⟨x, hn⟩ := fileAt?_eq_some_iff.mp hfile
    rw [(h.find_true_inside_iff hns).mpr ⟨hp, rfl, hn⟩]
    simp [hext]

theorem Disk.Roots.list_inside {d : Disk} {p : Path} {loc : Location} {ns names : List Name}
    (h : d.Roots p loc) (hns : ∀ n ∈ ns, IsName n) (hl : d.list (p.inside ns) = .ok names) :
    d.node? (loc ++ ns) = some .folder ∧ names = d.children (loc ++ ns) := by
  unfold list at hl
  split at hl
  . next l hfind =>
    obtain ⟨_, hplace, hnode⟩ := (h.find_true_inside_iff hns).mp hfind
    rw [hplace, Except.ok.injEq] at hl
    exact ⟨hnode, hl.symm⟩
  . cases hl
  . cases hl

theorem Disk.childName?_eq_some_iff {loc l : Location} {n : Name} :
    childName? loc l = some n ↔ l = loc ++ [n] := by
  unfold childName?
  rw [← afterStart?_eq_some_iff]
  constructor
  . intro h
    split at h
    . next m hm => rw [hm, Option.some.inj h]
    . cases h
  . intro h
    rw [h]

theorem Disk.mem_children_iff {d : Disk} {loc : Location} {n : Name} :
    n ∈ d.children loc ↔ d.node? (loc ++ [n]) ≠ none := by
  rw [children, List.mem_filterMap, node?, if_neg (by simp), ← Option.isSome_iff_ne_none,
    List.lookup_isSome_iff]
  constructor
  . rintro ⟨entry, hmem, hname⟩
    exact ⟨entry, hmem, beq_iff_eq.mpr (childName?_eq_some_iff.mp hname).symm⟩
  . rintro ⟨entry, hmem, hkey⟩
    exact ⟨entry, hmem, childName?_eq_some_iff.mpr (eq_of_beq hkey).symm⟩

namespace CopyRules

variable {rules : CopyRules} {root scratch : Path} {R S : Location} {before d d' : Disk}
  {P P' : List Name → Prop} {ns k rel : List Name} {n : Name}

/-- A pass from the folder at `R` to the one at `S`, and the disk when it began to copy. -/
structure Site (rules : CopyRules) (root scratch : Path) (R S : Location) (before : Disk) : Prop where
  roots : before.Roots root R
  clean : before.Clean scratch S
  empty : ∀ ns : List Name, ns ≠ [] → before.node? (S ++ ns) = none
  apart : ∀ ns : List Name, ¬S <+: R ++ ns
  strange : ∀ ns : List Name, (∀ n ∈ ns, IsName n) → rules.isScratch scratch (root.inside ns) = false

/-- What was copied so far are sources, at their places, and those that do not stand at a place in
`P` were copied. -/
structure Copied (rules : CopyRules) (root scratch : Path) (S : Location) (before d : Disk)
    (P : List Name → Prop) : Prop where
  within : Within S before d
  clean : d.Clean scratch S
  sound : ∀ {ns : List Name} {content : Bytes}, ns ≠ [] → d.fileAt? (S ++ ns) = some content →
    scratch.Spans ns ∧ rules.filter.sourceAt? before root ns = some content
  complete : ∀ {ns : List Name} {content : Bytes}, ns ≠ [] → (∀ n ∈ ns, IsName n) →
    rules.filter.sourceAt? before root ns = some content → ¬P ns →
    d.fileAt? (S ++ ns) = some content

theorem Copied.mono (h : Copied rules root scratch S before d P)
    (hP : ∀ ns content, ns ≠ [] → (∀ n ∈ ns, IsName n) →
      rules.filter.sourceAt? before root ns = some content → P ns → P' ns) :
    Copied rules root scratch S before d P' := by
  refine ⟨h.within, h.clean, h.sound, ?_⟩
  intro ns content hne hns hsource hnot
  exact h.complete hne hns hsource fun hp => hnot (hP ns content hne hns hsource hp)

theorem Site.node?_eq (h : Site rules root scratch R S before) (hw : Within S before d)
    (ns : List Name) : d.node? (R ++ ns) = before.node? (R ++ ns) :=
  hw.outside (h.apart ns)

/-- Whatever lies on the way to a source takes part in the copying. -/
theorem Site.isSource (h : Site rules root scratch R S before) (hw : Within S before d)
    {rest : List Name} {content : Bytes} (hns : ∀ n ∈ k ++ rest, IsName n)
    (hs : rules.filter.sourceAt? before root (k ++ rest) = some content) :
    rules.filter.isSource d (root.inside k) true = true := by
  have hks := fun n hn => hns n (List.mem_append_left rest hn)
  obtain ⟨hspans, hext, hfile⟩ := (h.roots.sourceAt?_eq_some_iff hns).mp hs
  have hp : root.Spans k := hspans.of_append h.roots.isNamed hns
  obtain ⟨x, hnode⟩ := fileAt?_eq_some_iff.mp hfile
  have hroots := h.roots.within hw
  rw [← h.node?_eq hw] at hnode
  unfold SourceFilter.isSource
  cases rest with
  | nil =>
    rw [List.append_nil] at hnode hext
    rw [(hroots.find_true_inside_iff hks).mpr ⟨hp, rfl, hnode⟩]
    exact hext
  | cons m rest =>
    rw [← List.append_assoc] at hnode
    have hthere : d.node? (R ++ k ++ m :: rest) ≠ none := by
      rw [hnode]
      simp
    have hfolder := hroots.isTree.folder_of_append (by simp) hthere
    rw [(hroots.find_true_inside_iff hks).mpr ⟨hp, rfl, hfolder⟩]

/-- The way to a source below a folder goes through something in that folder. -/
theorem Site.exists_child (h : Site rules root scratch R S before) (hw : Within S before d)
    {content : Bytes} (hfolder : d.node? (R ++ k) = some .folder) (hns : ∀ n ∈ ns, IsName n)
    (hs : rules.filter.sourceAt? before root ns = some content) (hpre : k <+: ns) :
    ∃ m rest, k ++ [m] ++ rest = ns ∧ d.node? (R ++ k ++ [m]) ≠ none := by
  obtain ⟨rest, hrest⟩ := hpre
  obtain ⟨_, _, hfile⟩ := (h.roots.sourceAt?_eq_some_iff hns).mp hs
  obtain ⟨x, hnode⟩ := fileAt?_eq_some_iff.mp hfile
  rw [← h.node?_eq hw, ← hrest] at hnode
  cases rest with
  | nil =>
    rw [List.append_nil, hfolder] at hnode
    cases hnode
  | cons m rest =>
    have heq : R ++ k ++ [m] ++ rest = R ++ (k ++ m :: rest) := by simp
    have hthere : d.node? (R ++ k ++ [m] ++ rest) ≠ none := by
      rw [heq, hnode]
      simp
    exact ⟨m, rest, by rw [← hrest]; simp, (h.roots.within hw).isTree.node?_ne_none hthere⟩

theorem Copied.copyFile (hsite : Site rules root scratch R S before)
    (h : Copied rules root scratch S before d P) (hk : k ≠ []) (hks : ∀ n ∈ k, IsName n)
    (hsource : rules.filter.isSource d (root.inside k) true = true)
    (hcopy : d.copyFile (root.inside k) (scratch.inside k) = .ok d') :
    Copied rules root scratch S before d' fun ns => P ns ∧ ¬k <+: ns := by
  unfold Disk.copyFile at hcopy
  split at hcopy
  . cases hcopy
  . next l content x hfind =>
    have hroots := hsite.roots.within h.within
    obtain ⟨hp, _, hnode⟩ := (hroots.find_true_inside_iff hks).mp hfind
    obtain ⟨hsets, hspans⟩ := Sets.store h.clean hk hks hcopy
    rw [SourceFilter.isSource, hfind] at hsource
    rw [hsite.node?_eq h.within] at hnode
    have hthis : rules.filter.sourceAt? before root k = some content :=
      (hsite.roots.sourceAt?_eq_some_iff hks).mpr ⟨hp, hsource, fileAt?_eq_some_iff.mpr ⟨x, hnode⟩⟩
    refine ⟨h.within.trans hsets.toWithin, h.clean.sets hsets, ?_, ?_⟩
    . intro ns c hne hfile
      rw [hsets.file_inside] at hfile
      split at hfile
      . next heq =>
        rw [heq, ← hfile]
        exact ⟨hspans, hthis⟩
      . exact h.sound hne hfile
    . intro ns c hne hns hs hnot
      rw [hsets.file_inside]
      split
      . next heq =>
        rw [heq, hthis] at hs
        exact hs
      . next hneq =>
        refine h.complete hne hns hs fun hP => hnot ⟨hP, ?_⟩
        -- Nothing stands below a file.
        rintro ⟨rest, hrest⟩
        obtain ⟨_, _, hfile⟩ := (hsite.roots.sourceAt?_eq_some_iff hns).mp hs
        obtain ⟨y, hbelow⟩ := fileAt?_eq_some_iff.mp hfile
        refine hneq (List.append_cancel_left (hsite.roots.isTree.eq_of_isPrefix hnode (by simp)
          (by simp [hbelow]) ?_))
        exact ⟨rest, by rw [List.append_assoc, hrest]⟩
  . cases hcopy

/-- The copying of one item takes its place from those that are still to come, unless it is a folder
that is put off. -/
theorem Copied.copyItem (hsite : Site rules root scratch R S before)
    (h : Copied rules root scratch S before d P) (hk : k ≠ []) (hks : ∀ n ∈ k, IsName n)
    {found : Option Pending}
    (hitem : rules.copyItem scratch (root.inside k) (scratch.inside k) d = (d', .ok found)) :
    (found = none ∧ Copied rules root scratch S before d' fun ns => P ns ∧ ¬k <+: ns)
      ∨ (found = some (root.inside k, scratch.inside k)
        ∧ Copied rules root scratch S before d' P) := by
  unfold CopyRules.copyItem at hitem
  rw [hsite.strange k hks, Bool.false_or] at hitem
  split at hitem
  . next hsource =>
    rw [Prod.mk.injEq, Except.ok.injEq] at hitem
    rw [← hitem.1, ← hitem.2]
    refine .inl ⟨rfl, h.mono ?_⟩
    rintro ns content _ hns hs hP
    refine ⟨hP, ?_⟩
    rintro ⟨rest, rfl⟩
    rw [hsite.isSource h.within hns hs] at hsource
    cases hsource
  . next hsource =>
    have hsource : rules.filter.isSource d (root.inside k) true = true := by simpa using hsource
    split at hitem
    . next hlink =>
      rw [Bool.and_eq_true, isLink] at hlink
      have hlink := hlink.1
      split at hlink
      . next l target hfind =>
        obtain ⟨_, _, hnode⟩ := ((hsite.roots.within h.within).find_inside_iff hk hks).mp hfind
        exact absurd hnode ((hsite.roots.within h.within).plain k target)
      . cases hlink
    . split at hitem
      . obtain ⟨hwithin, hgrows⟩ := h.clean.createFolders_inside hks
        generalize d.createFolders (scratch.inside k) = made at hitem hwithin hgrows
        rcases made with ⟨d'', result⟩
        cases result with
        | error e => cases hitem
        | ok u =>
          simp only [Prod.mk.injEq, Except.ok.injEq] at hitem
          rw [← hitem.1, ← hitem.2]
          refine .inr ⟨rfl, h.within.trans hwithin, h.clean.grows hwithin hgrows, ?_, ?_⟩
          . intro ns content hne hfile
            rw [hgrows.fileAt?] at hfile
            exact h.sound hne hfile
          . intro ns content hne hns hs hnot
            rw [hgrows.fileAt?]
            exact h.complete hne hns hs hnot
      . split at hitem
        . next hcopy =>
          rw [Prod.mk.injEq, Except.ok.injEq] at hitem
          rw [← hitem.1, ← hitem.2]
          exact .inl ⟨rfl, h.copyFile hsite hk hks hsource hcopy⟩
        . cases hitem

/-- The places below the folders that are still to be copied. -/
def Awaited (rels : List (List Name)) (ns : List Name) : Prop :=
  ∃ rel ∈ rels, rel <+: ns

/-- A folder that is still to be copied, by its names. -/
def itemOf (root scratch : Path) (rel : List Name) : Pending :=
  (root.inside rel, scratch.inside rel)

theorem Copied.copyItems (hsite : Site rules root scratch R S before) {names : List Name}
    {rels : List (List Name)} {pending : List Pending} (hrel : ∀ n ∈ rel, IsName n)
    (hnames : ∀ n ∈ names, IsName n) (hrels : ∀ r ∈ rels, ∀ n ∈ r, IsName n)
    (h : Copied rules root scratch S before d fun ns =>
      Awaited rels ns ∨ ∃ n ∈ names, rel ++ [n] <+: ns)
    (hitems : rules.copyItems scratch (root.inside rel) (scratch.inside rel) names
      (rels.map (itemOf root scratch)) d = (d', .ok pending)) :
    ∃ rels', pending = rels'.map (itemOf root scratch) ∧ (∀ r ∈ rels', ∀ n ∈ r, IsName n)
      ∧ Copied rules root scratch S before d' (Awaited rels') := by
  induction names generalizing rels d with
  | nil =>
    rw [CopyRules.copyItems, Prod.mk.injEq, Except.ok.injEq] at hitems
    rw [← hitems.1, ← hitems.2]
    refine ⟨rels, rfl, hrels, h.mono ?_⟩
    intro ns _ _ _ _ hP
    simpa using hP
  | cons n names ih =>
    have hk : ∀ m ∈ rel ++ [n], IsName m := by
      intro m hm
      rcases List.mem_append.mp hm with hm | hm
      . exact hrel m hm
      . rw [List.mem_singleton.mp hm]
        exact hnames n (.head _)
    have hnames' := fun m hm => hnames m (.tail n hm)
    unfold CopyRules.copyItems at hitems
    rw [← Path.inside_concat, ← Path.inside_concat] at hitems
    split at hitems
    . next d'' found hitem =>
      rcases h.copyItem hsite (by simp) hk hitem with ⟨hfound, hcopied⟩ | ⟨hfound, hcopied⟩
      . rw [hfound, Option.toList_none, List.nil_append] at hitems
        refine ih hnames' hrels (hcopied.mono ?_) hitems
        rintro ns _ _ _ _ ⟨hP, hnot⟩
        rcases hP with hP | ⟨m, hm, hpre⟩
        . exact .inl hP
        . rcases List.mem_cons.mp hm with hm | hm
          . rw [hm] at hpre
            exact absurd hpre hnot
          . exact .inr ⟨m, hm, hpre⟩
      . rw [hfound, Option.toList_some, List.singleton_append] at hitems
        refine @ih d'' ((rel ++ [n]) :: rels) hnames' ?_ (hcopied.mono ?_) hitems
        . exact List.forall_mem_cons.mpr ⟨hk, hrels⟩
        . rintro ns _ _ _ _ hP
          rcases hP with ⟨r, hr, hpre⟩ | ⟨m, hm, hpre⟩
          . exact .inl ⟨r, .tail _ hr, hpre⟩
          . rcases List.mem_cons.mp hm with hm | hm
            . rw [hm] at hpre
              exact .inl ⟨rel ++ [n], .head _, hpre⟩
            . exact .inr ⟨m, hm, hpre⟩
    . cases hitems

theorem Copied.copyTree (hsite : Site rules root scratch R S before) (fuel : Nat)
    {rels : List (List Name)} (hrels : ∀ r ∈ rels, ∀ n ∈ r, IsName n)
    (h : Copied rules root scratch S before d (Awaited rels))
    (htree : rules.copyTree scratch fuel (rels.map (itemOf root scratch)) d = (d', .ok ())) :
    Copied rules root scratch S before d' fun _ => False := by
  induction fuel generalizing rels d with
  | zero =>
    cases rels with
    | nil =>
      rw [List.map_nil, CopyRules.copyTree, Prod.mk.injEq] at htree
      rw [← htree.1]
      refine h.mono ?_
      rintro _ _ _ _ _ ⟨r, hr, _⟩
      cases hr
    | cons rel rels => simp [CopyRules.copyTree, itemOf] at htree
  | succ fuel ih =>
    cases rels with
    | nil =>
      rw [List.map_nil, CopyRules.copyTree, Prod.mk.injEq] at htree
      rw [← htree.1]
      refine h.mono ?_
      rintro _ _ _ _ _ ⟨r, hr, _⟩
      cases hr
    | cons rel rels =>
      have hrel := hrels rel (.head _)
      rw [List.map_cons, itemOf, CopyRules.copyTree] at htree
      split at htree
      . cases htree
      . next names hlist =>
        have hroots := hsite.roots.within h.within
        obtain ⟨hfolder, hchildren⟩ := hroots.list_inside hrel hlist
        split at htree
        . next d'' pending hitems =>
          have hnames : ∀ n ∈ names, IsName n := by
            intro n hn
            rw [hchildren, mem_children_iff] at hn
            exact hroots.isTree.isName hn
          have hcopied : Copied rules root scratch S before d fun ns =>
              Awaited rels ns ∨ ∃ n ∈ names, rel ++ [n] <+: ns := by
            refine h.mono ?_
            rintro ns content _ hns hs ⟨r, hr, hpre⟩
            rcases List.mem_cons.mp hr with rfl | hr
            . obtain ⟨m, rest, hrest⟩ := hsite.exists_child h.within hfolder hns hs hpre
              refine .inr ⟨m, ?_, rest, hrest.1⟩
              rw [hchildren, mem_children_iff]
              exact hrest.2
            . exact .inl ⟨r, hr, hpre⟩
          obtain ⟨rels', hpending, hrels', hcopied'⟩ := hcopied.copyItems hsite hrel hnames
            (fun r hr => hrels r (.tail _ hr)) hitems
          rw [hpending] at htree
          exact ih hrels' hcopied' htree
        . cases htree

/-- The steps of neither path begin with those of the other. -/
def Apart (p q : Path) : Prop :=
  p.startsWith q = false ∧ q.startsWith p = false

/-- What lies below a root apart from the folder of the scratch folders is never taken for one of
them. -/
theorem isScratch_inside {n : Nat} (h : Apart root rules.scratchBase) (hns : ∀ m ∈ ns, IsName m) :
    rules.isScratch (rules.scratchOf n) (root.inside ns) = false := by
  have hsteps := Path.components_inside root hns
  have hbase : ¬rules.scratchBase.components <+: (root.inside ns).components := by
    rw [hsteps]
    intro hpre
    rcases List.prefix_or_prefix_of_prefix hpre (List.prefix_append _ _) with hpre | hpre
    . rw [← List.isPrefixOf_iff_prefix, ← Path.startsWith, h.1] at hpre
      cases hpre
    . rw [← List.isPrefixOf_iff_prefix, ← Path.startsWith, h.2] at hpre
      cases hpre
  have hsame : (root.inside ns).sameSteps (rules.scratchOf n) = false := by
    rw [Path.sameSteps, decide_eq_false_iff_not]
    intro heq
    rw [heq, rules.components_scratchOf] at hbase
    exact hbase (List.prefix_append _ _)
  have hstarts : (root.inside ns).startsWith rules.scratchBase = false := by
    rw [← Bool.not_eq_true, Path.startsWith, List.isPrefixOf_iff_prefix]
    exact hbase
  rw [isScratch, hsame, hstarts]
  rfl

/-- A pass is about to copy a folder without links to a new scratch folder somewhere else. -/
structure Begins (rules : CopyRules) (n : Nat) (root : Path) (R : Location) (d : Disk) : Prop where
  isTree : d.IsTree
  leads : d.find true root = .ok (R, .folder)
  plain : ∀ (ns : List Name) (target : Path), d.node? (R ++ ns) ≠ some (.link target)
  apart : Apart root rules.scratchBase
  /-- The scratch folder is empty when it is made, -/
  new : (d.createFolders (rules.scratchOf n)).1.list (rules.scratchOf n) = .ok []
  /-- and neither of the two folders lies in the other. -/
  disjoint : ∀ S : Location,
    (d.createFolders (rules.scratchOf n)).1.find true (rules.scratchOf n) = .ok (S, .folder) →
      ¬S <+: R ∧ ¬R <+: S

theorem Begins.exists_place {n : Nat} (h : Begins rules n root R d) :
    ∃ S, (d.createFolders (rules.scratchOf n)).1.find true (rules.scratchOf n) = .ok (S, .folder)
      ∧ (d.createFolders (rules.scratchOf n)).1.children S = [] := by
  have hnew := h.new
  unfold Disk.list at hnew
  split at hnew
  . next S hfind => exact ⟨S, hfind, Except.ok.inj hnew⟩
  . cases hnew
  . cases hnew

/-- The root of a workspace is not the root of the disk when its scratch folder lies elsewhere. -/
theorem Begins.isPlace {n : Nat} (h : Begins rules n root R d) (habs : root.isAbsolute = true)
    (hnormal : root.normalize = root) : root.IsPlace := by
  refine ⟨habs, hnormal, ?_⟩
  obtain ⟨ns, hns, hof⟩ := Path.exists_names_of_isAbsolute habs hnormal
  by_cases hne : ns = []
  . have hR : R = [] := by
      have hleads := h.leads
      rw [hof, hne] at hleads
      have hroot : d.find true (.ofComponents [.root]) = .ok ([], .folder) := by
        rw [find_eq_ok_iff_way]
        refine ⟨⟨by decide, by decide, by decide⟩, ?_⟩
        exact .skip (.inl rfl) (.skip (.inl rfl) .done)
      rw [List.map_nil, hroot, Except.ok.injEq, Prod.mk.injEq] at hleads
      exact hleads.1.symm
    obtain ⟨S, hS, _⟩ := h.exists_place
    rw [hR] at h
    exact absurd List.nil_prefix (h.disjoint S hS).2
  . rw [hof]
    exact Path.isNamed_ofComponents hne hns

end CopyRules

end InkServer
