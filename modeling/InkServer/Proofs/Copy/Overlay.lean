import InkServer.Proofs.Copy.Tree

/-!
This module contains the copy of a workspace as an overlay: the texts that the editor holds, over the
sources on the disk. Passes, edits and the closing of documents keep it so.
-/

namespace InkServer

open Text Disk

/-- The texts that the editor holds, by the normal paths of the documents. -/
abbrev Texts := Path → Option String

/-- The texts when the editor holds a new one for a path, or none any more. -/
def Texts.set (texts : Texts) (p : Path) (text : Option String) : Texts :=
  fun q => if q = p then text else texts q

theorem Path.inside_inj {p : Path} {ns ms : List Name} (hns : ∀ n ∈ ns, IsName n)
    (hms : ∀ n ∈ ms, IsName n) (h : p.inside ns = p.inside ms) : ns = ms := by
  have hsteps := congrArg components h
  rw [components_inside p hns, components_inside p hms, List.append_right_inj] at hsteps
  exact List.map_inj_right (by simp) |>.mp hsteps

/-- A text for one file of a folder leaves those for its other files alone. -/
theorem Texts.set_inside {texts : Texts} {root : Path} {ks ns : List Name} {text : Option String}
    (hks : ∀ n ∈ ks, IsName n) (hns : ∀ n ∈ ns, IsName n) (hne : ns ≠ ks) :
    texts.set (root.inside ks) text (root.inside ns) = texts (root.inside ns) := by
  rw [Texts.set, if_neg]
  exact fun h => hne (Path.inside_inj hns hks h)

namespace Disk

variable {d d' : Disk} {root scratch path : Path} {R S : Location} {texts texts' : Texts}
  {covers : Path → Prop} {filter : SourceFilter} {ns ks : List Name} {content : Option Bytes}
  {text : String}

theorem Roots.sourceAt?_congr (h : d.Roots root R) (h' : d'.Roots root R)
    (hns : ∀ n ∈ ns, IsName n) (hsame : d'.fileAt? (R ++ ns) = d.fileAt? (R ++ ns)) :
    filter.sourceAt? d' root ns = filter.sourceAt? d root ns := by
  apply Option.ext
  intro content
  rw [h.sourceAt?_eq_some_iff hns, h'.sourceAt?_eq_some_iff hns, hsame]

/-- At the paths that `covers` picks, the files in the folder at `S` are the texts of the editor, over
the source files in the folder at `R`. -/
structure Rendered (d : Disk) (covers : Path → Prop) (filter : SourceFilter) (root scratch : Path)
    (R S : Location) (texts : Texts) : Prop where
  roots : d.Roots root R
  clean : d.Clean scratch S
  apart : ∀ ns : List Name, ¬S <+: R ++ ns
  spans : ∀ {ns : List Name}, ns ≠ [] → (∀ n ∈ ns, IsName n) → covers (root.inside ns) →
    d.fileAt? (S ++ ns) ≠ none → scratch.Spans ns
  sources : ∀ {ns : List Name}, ns ≠ [] → (∀ n ∈ ns, IsName n) → covers (root.inside ns) →
    d.fileAt? (S ++ ns) = ((texts (root.inside ns)).map bytesOf).or (filter.sourceAt? d root ns)

/-- The source files in the folder at `S` are the texts of the editor, over the source files in the
folder at `R`. -/
abbrev Overlaid (d : Disk) (filter : SourceFilter) (root scratch : Path) (R S : Location)
    (texts : Texts) : Prop :=
  d.Rendered (fun p => filter.hasSourceExtension p = true) filter root scratch R S texts

theorem Rendered.sets (h : d.Rendered covers filter root scratch R S texts)
    (hs : d.Sets S ks content d') (hspans : content ≠ none → scratch.Spans ks)
    (hcontent : content
      = ((texts' (root.inside ks)).map bytesOf).or (filter.sourceAt? d root ks))
    (hother : ∀ ns, (∀ n ∈ ns, IsName n) → ns ≠ ks →
      texts' (root.inside ns) = texts (root.inside ns)) :
    d'.Rendered covers filter root scratch R S texts' := by
  have hroots := h.roots.within hs.toWithin
  have hsource : ∀ {ns}, (∀ n ∈ ns, IsName n) →
      filter.sourceAt? d' root ns = filter.sourceAt? d root ns := by
    intro ns hns
    exact h.roots.sourceAt?_congr hroots hns (fileAt?_congr (hs.outside (h.apart ns)))
  refine ⟨hroots, h.clean.sets hs, h.apart, ?_, ?_⟩
  . intro ns hne hns hcovers hfile
    rw [hs.file_inside] at hfile
    split at hfile
    . next heq =>
      rw [heq]
      exact hspans hfile
    . exact h.spans hne hns hcovers hfile
  . intro ns hne hns hcovers
    rw [hs.file_inside, hsource hns]
    split
    . next heq => rw [heq, hcontent]
    . next hneq => rw [hother ns hns hneq, h.sources hne hns hcovers]

/-- The files in the copy depend on nothing but the workspace and the copy itself. -/
theorem Rendered.congr (h : d.Rendered covers filter root scratch R S texts) (htree : d'.IsTree)
    (hleads : d'.find true root = .ok (R, .folder))
    (hsame : ∀ ns : List Name, d'.node? (R ++ ns) = d.node? (R ++ ns)) (hclean : d'.Clean scratch S)
    (hcopies : ∀ ns : List Name, covers (root.inside ns) →
      d'.fileAt? (S ++ ns) = d.fileAt? (S ++ ns)) :
    d'.Rendered covers filter root scratch R S texts := by
  have hroots : d'.Roots root R := by
    refine ⟨htree, h.roots.isNamed, hleads, ?_⟩
    intro ns target
    rw [hsame]
    exact h.roots.plain ns target
  refine ⟨hroots, hclean, h.apart, ?_, ?_⟩
  . intro ns hne hns hcovers hfile
    rw [hcopies ns hcovers] at hfile
    exact h.spans hne hns hcovers hfile
  . intro ns hne hns hcovers
    rw [hcopies ns hcovers, h.sources hne hns hcovers,
      h.roots.sourceAt?_congr hroots hns (fileAt?_congr (hsame ns))]

/-- Others left a workspace and the sources in its copy alone. They may have worked elsewhere on the
disk, and on other files in the copy. -/
structure Spares (filter : SourceFilter) (root scratch : Path) (R S : Location) (d d' : Disk) :
    Prop where
  isTree : d'.IsTree
  leads : d'.find true root = .ok (R, .folder)
  tree : ∀ ns : List Name, d'.node? (R ++ ns) = d.node? (R ++ ns)
  stays : d'.find true scratch = .ok (S, .folder)
  plain : ∀ ns : List Name, d'.node? (S ++ ns) ≠ some .sink
    ∧ ∀ target, d'.node? (S ++ ns) ≠ some (.link target)
  copies : ∀ ns : List Name, filter.hasSourceExtension (root.inside ns) = true →
    d'.fileAt? (S ++ ns) = d.fileAt? (S ++ ns)

theorem Overlaid.spares (h : d.Overlaid filter root scratch R S texts)
    (hs : Spares filter root scratch R S d d') : d'.Overlaid filter root scratch R S texts := by
  have hclean : d'.Clean scratch S :=
    ⟨⟨hs.isTree, h.clean.isNamed, hs.stays, fun ns => (hs.plain ns).2⟩, fun ns => (hs.plain ns).1⟩
  exact h.congr hs.isTree hs.leads hs.tree hclean hs.copies

theorem Rendered.content_iff {bytes : Bytes}
    (h : d.Rendered (fun _ => True) filter root scratch R S texts) (hne : ns ≠ [])
    (hns : ∀ n ∈ ns, IsName n) :
    d.content (scratch.inside ns) = .ok bytes
      ↔
    ((texts (root.inside ns)).map bytesOf).or (filter.sourceAt? d root ns) = some bytes := by
  rw [h.clean.content_inside_iff hns, ← h.sources hne hns trivial]
  constructor
  . rintro ⟨_, hfile⟩
    exact hfile
  . intro hfile
    exact ⟨h.spans hne hns trivial (by simp [hfile]), hfile⟩

theorem Overlaid.sourceAt?_eq (h : d.Overlaid filter root scratch R S texts)
    (htexts : ∀ p text, texts p = some text → filter.hasSourceExtension p = true) (hne : ns ≠ [])
    (hns : ∀ n ∈ ns, IsName n) :
    filter.sourceAt? d scratch ns
      =
    ((texts (root.inside ns)).map bytesOf).or (filter.sourceAt? d root ns) := by
  have hsame := filter.hasSourceExtension_inside root scratch hne hns
  cases hext : filter.hasSourceExtension (root.inside ns) with
  | true =>
    rw [← h.sources hne hns hext]
    apply Option.ext
    intro content
    rw [h.clean.sourceAt?_eq_some_iff hns]
    constructor
    . rintro ⟨_, _, hfile⟩
      exact hfile
    . intro hfile
      exact ⟨h.spans hne hns hext (by simp [hfile]), hsame ▸ hext, hfile⟩
  | false =>
    have hnone : ∀ p : Path, filter.hasSourceExtension (p.inside ns) = false →
        filter.sourceAt? d p ns = none := by
      intro p hp
      unfold SourceFilter.sourceAt?
      split
      . rw [hp, if_neg (by simp)]
      . rfl
    have htext : texts (root.inside ns) = none := by
      cases htext : texts (root.inside ns) with
      | none => rfl
      | some text =>
        rw [htexts _ text htext] at hext
        cases hext
    rw [hnone scratch (hsame ▸ hext), hnone root hext, htext]
    rfl

theorem exists_of_isFile (h : d.isFile path = true) :
    ∃ l content executable, d.find true path = .ok (l, .file content executable) := by
  unfold isFile at h
  split at h
  . next l content executable hfind => exact ⟨l, content, executable, hfind⟩
  . cases h

theorem Rendered.applyEdit_inside {ws : Workspace}
    (h : d.Rendered covers filter root scratch R S texts) (hscratch : ws.scratch = some scratch)
    (hne : ks ≠ []) (hks : ∀ n ∈ ks, IsName n)
    (htarget : ws.scratchPathFor? (root.inside ks) = some (scratch.inside ks))
    (hok : (ws.applyEdit (root.inside ks) text d).2 = .ok ()) :
    (ws.applyEdit (root.inside ks) text d).1.Rendered covers filter root scratch R S
      (texts.set (root.inside ks) (some text)) := by
  obtain ⟨hsets, hspans⟩ := Workspace.applyEdit_sets h.clean hscratch hne hks htarget hok
  refine h.sets hsets (fun _ => hspans) ?_ fun ns hns => Texts.set_inside hks hns
  rw [Texts.set, if_pos rfl]
  rfl

theorem Overlaid.applyEdit {ws : Workspace} (h : d.Overlaid filter root scratch R S texts)
    (hplace : root.IsPlace) (hroot : ws.root = root) (hscratch : ws.scratch = some scratch)
    (hpath : path.normalize = path) (hok : (ws.applyEdit path text d).2 = .ok ()) :
    (ws.applyEdit path text d).1.Overlaid filter root scratch R S (texts.set path (some text)) := by
  obtain ⟨target, _, _, htarget, _⟩ := Workspace.find_of_applyEdit hok
  have hfor := @Workspace.scratchPathFor?_iff ws scratch path target (hroot ▸ hplace) hscratch
  obtain ⟨ks, hne, hks, hinside, heq⟩ := hfor.mp htarget
  rw [hpath, hroot] at hinside
  rw [hinside] at htarget hok ⊢
  rw [heq] at htarget
  exact h.applyEdit_inside hscratch hne hks htarget hok

/-- The path stands for a regular file, or for nothing at all. -/
def IsFileOrNothing (d : Disk) (p : Path) : Prop :=
  d.isFile p = true ∨ d.pathExists p = false

theorem Roots.isFileOrNothing_congr (h : d.Roots root R) (h' : d'.Roots root R)
    (hns : ∀ n ∈ ns, IsName n) (hsame : d'.node? (R ++ ns) = d.node? (R ++ ns))
    (hf : d.IsFileOrNothing (root.inside ns)) : d'.IsFileOrNothing (root.inside ns) := by
  have hiff : ∀ l n, d'.find true (root.inside ns) = .ok (l, n)
      ↔ d.find true (root.inside ns) = .ok (l, n) := by
    intro l n
    rw [h.find_true_inside_iff hns, h'.find_true_inside_iff hns, hsame]
  rcases hf with hf | hf
  . obtain ⟨l, content, executable, hfind⟩ := exists_of_isFile hf
    refine .inl ?_
    rw [isFile, (hiff _ _).mpr hfind]
  . refine .inr ?_
    unfold pathExists at hf ⊢
    split
    . next found hfind =>
      rw [(hiff found.1 found.2).mp hfind] at hf
      cases hf
    . rfl

def restored (ws : Workspace) (filter : SourceFilter) (path : Path) (d : Disk) : Disk :=
  if d.pathExists path then ws.applyCreated filter path d else ws.applyDeleted path d

/-- A document that has no place in the copy leaves nothing there. -/
theorem restored_of_none {ws : Workspace} (h : ws.scratchPathFor? path = none) :
    d.restored ws filter path = d := by
  unfold restored Workspace.applyCreated Workspace.applyDeleted
  rw [h]
  split
  . split
    . rfl
    . rfl
  . rfl

/-- A document that is closed leaves in the copy what stands on the disk. -/
theorem Overlaid.restored_sets {ws : Workspace} (h : d.Overlaid filter root scratch R S texts)
    (hne : ks ≠ []) (hks : ∀ n ∈ ks, IsName n)
    (htarget : ws.scratchPathFor? (root.inside ks) = some (scratch.inside ks))
    (hext : filter.hasSourceExtension (root.inside ks) = true)
    (hfile : d.IsFileOrNothing (root.inside ks)) :
    d.Sets S ks (filter.sourceAt? d root ks) (d.restored ws filter (root.inside ks)) := by
  have hspans := h.spans hne hks hext
  unfold Disk.restored
  cases hexists : d.pathExists (root.inside ks) with
  | true =>
    obtain ⟨l, content, executable, hfind⟩ :=
      exists_of_isFile (hfile.resolve_right (by simp [hexists]))
    have hsource : filter.sourceAt? d root ks = some content := by
      rw [SourceFilter.sourceAt?, hfind]
      exact if_pos hext
    have hthere : d.fileAt? (S ++ ks) ≠ none := by
      rw [h.sources hne hks hext, hsource]
      simp
    rw [if_pos rfl, hsource]
    exact Workspace.applyCreated_of_file h.clean hne hks htarget hext hfind (hspans hthere) hthere
  | false =>
    have hsource : filter.sourceAt? d root ks = none := by
      unfold pathExists at hexists
      unfold SourceFilter.sourceAt?
      split at hexists
      . cases hexists
      . next hfind => rw [hfind]
    rw [if_neg (by simp), hsource]
    exact Workspace.applyDeleted_sets h.clean hne hks htarget hspans

/-- The closing of a document uncovers what the disk holds. -/
theorem Overlaid.restored {ws : Workspace} (h : d.Overlaid filter root scratch R S texts)
    (hplace : root.IsPlace) (hroot : ws.root = root) (hscratch : ws.scratch = some scratch)
    (hpath : path.normalize = path) (hext : filter.hasSourceExtension path = true)
    (hfile : ∀ ns, (∀ n ∈ ns, IsName n) → path = root.inside ns → d.IsFileOrNothing path) :
    (d.restored ws filter path).Overlaid filter root scratch R S (texts.set path none) := by
  have hfor := fun target => @Workspace.scratchPathFor?_iff ws scratch path target (hroot ▸ hplace)
    hscratch
  rw [hpath, hroot] at hfor
  cases htarget : ws.scratchPathFor? path with
  | none =>
    -- The document has no place in the copy, so no text of it was ever there.
    have hother : ∀ {ns}, ns ≠ [] → (∀ n ∈ ns, IsName n) →
        texts.set path none (root.inside ns) = texts (root.inside ns) := by
      intro ns hne hns
      rw [Texts.set, if_neg]
      intro heq
      rw [(hfor _).mpr ⟨ns, hne, hns, heq.symm, rfl⟩] at htarget
      cases htarget
    rw [restored_of_none htarget]
    refine ⟨h.roots, h.clean, h.apart, h.spans, ?_⟩
    intro ns hne hns hext
    rw [hother hne hns, h.sources hne hns hext]
  | some target =>
    obtain ⟨ks, hne, hks, hinside, heq⟩ := (hfor target).mp htarget
    have hreg := hfile ks hks hinside
    rw [heq] at htarget
    rw [hinside] at hext htarget hreg ⊢
    refine h.sets (h.restored_sets hne hks htarget hext hreg) ?_ ?_
      fun ns hns => Texts.set_inside hks hns
    . intro hsome
      apply h.spans hne hks hext
      rw [h.sources hne hks hext]
      cases hs : filter.sourceAt? d root ks with
      | none => exact absurd hs hsome
      | some content => simp
    . rw [Texts.set, if_pos rfl]
      rfl

end Disk

namespace CopyRules

variable {rules : CopyRules} {n : Nat} {root scratch : Path} {R S : Location} {d : Disk}

theorem Begins.site (h : Begins rules n root R d) (hnamed : root.IsNamed) :
    ∃ S, Site rules root (rules.scratchOf n) R S (d.createFolders (rules.scratchOf n)).1 := by
  have hbuilds := Builds.createFolders h.isTree (rules.scratchOf n)
  obtain ⟨S, hfind, hchildren⟩ := h.exists_place
  obtain ⟨hin, hout⟩ := h.disjoint S hfind
  generalize (d.createFolders (rules.scratchOf n)).1 = made at hbuilds hfind hchildren
  have hempty : ∀ ns : List Name, ns ≠ [] → made.node? (S ++ ns) = none := by
    intro ns hne
    cases ns with
    | nil => exact absurd rfl hne
    | cons m ns =>
      have hchild : m ∉ made.children S := by simp [hchildren]
      rw [mem_children_iff, Decidable.not_not] at hchild
      refine Decidable.byContradiction fun hthere => ?_
      rw [← List.singleton_append, ← List.append_assoc] at hthere
      exact hbuilds.isTree.node?_ne_none hthere hchild
  have honly : ∀ ns node, made.node? (S ++ ns) = some node → node = .folder := by
    intro ns node hnode
    by_cases hne : ns = []
    . rw [hne, List.append_nil, hbuilds.isTree.node?_of_find hfind] at hnode
      exact (Option.some.inj hnode).symm
    . rw [hempty ns hne] at hnode
      cases hnode
  have hroots : d.Roots root R := ⟨h.isTree, hnamed, h.leads, h.plain⟩
  refine ⟨S, hroots.steady hbuilds.toSteady hbuilds.isTree, ⟨⟨hbuilds.isTree, ?_, hfind, ?_⟩, ?_⟩,
    hempty, ?_, fun ns hns => isScratch_inside h.apart hns⟩
  . exact Path.isNamed_child _ (isName_scratchName n)
  . intro ns target hnode
    cases honly ns _ hnode
  . intro ns hnode
    cases honly ns _ hnode
  . intro ns hpre
    rcases List.prefix_or_prefix_of_prefix hpre (List.prefix_append R ns) with hpre | hpre
    . exact hin hpre
    . exact hout hpre

/-- A pass that succeeds is made over the disk with the folder of the copy in place. -/
theorem Begins.copied (h : Begins rules n root R d) (hnamed : root.IsNamed)
    (hok : (rules.createCopy (scratchName n) root d).2 = .ok scratch) :
    ∃ S made, Builds d made ∧ Site rules root scratch R S made
      ∧ Copied rules root scratch S made (rules.createCopy (scratchName n) root d).1
        fun _ => False := by
  obtain ⟨S, hsite⟩ := h.site hnamed
  have hbuilds := Builds.createFolders h.isTree (rules.scratchOf n)
  obtain ⟨made, hmade, htree, hscratch⟩ := createCopy_steps hok
  have heq : (d.createFolders (rules.scratchOf n)).1 = made := congrArg Prod.fst hmade
  rw [heq] at hbuilds
  rw [heq, CopyRules.scratchOf, ← hscratch] at hsite
  rw [← hscratch] at htree
  have hstart : Copied rules root scratch S made made (Awaited [[]]) := by
    refine ⟨.refl S hsite.roots.isTree, hsite.clean, ?_, ?_⟩
    . intro ns content hne hfile
      rw [fileAt?, hsite.empty ns hne] at hfile
      cases hfile
    . intro ns content _ _ _ hnot
      exact absurd ⟨[], .head _, List.nil_prefix⟩ hnot
  exact ⟨S, made, hbuilds, hsite, hstart.copyTree hsite _ (by simp) htree⟩

/-- A pass that succeeds leaves the sources of the workspace in its scratch folder, and no others. -/
theorem Begins.rendered (h : Begins rules n root R d) (hnamed : root.IsNamed)
    (hok : (rules.createCopy (scratchName n) root d).2 = .ok scratch) (covers : Path → Prop) :
    ∃ S, (rules.createCopy (scratchName n) root d).1.Rendered covers rules.filter root scratch R S
      fun _ => none := by
  obtain ⟨S, made, _, hsite, hcopied⟩ := h.copied hnamed hok
  have hroots := hsite.roots.within hcopied.within
  refine ⟨S, hroots, hcopied.clean, hsite.apart, ?_, ?_⟩
  . intro ns hne _ _ hfile
    obtain ⟨content, hcontent⟩ := Option.ne_none_iff_exists'.mp hfile
    exact (hcopied.sound hne hcontent).1
  . intro ns hne hns _
    have hsame : rules.filter.sourceAt? (rules.createCopy (scratchName n) root d).1 root ns
        = rules.filter.sourceAt? made root ns :=
      hsite.roots.sourceAt?_congr hroots hns (fileAt?_congr (hsite.node?_eq hcopied.within ns))
    rw [hsame]
    apply Option.ext
    intro content
    simp only [Option.map_none, Option.none_or]
    constructor
    . exact fun hfile => (hcopied.sound hne hfile).2
    . exact fun hsource => hcopied.complete hne hns hsource (by simp)

theorem Begins.sourceAt?_createCopy {ns : List Name} (h : Begins rules n root R d)
    (hnamed : root.IsNamed) (hok : (rules.createCopy (scratchName n) root d).2 = .ok scratch)
    (hns : ∀ m ∈ ns, IsName m) :
    rules.filter.sourceAt? (rules.createCopy (scratchName n) root d).1 root ns
      =
    rules.filter.sourceAt? d root ns := by
  obtain ⟨S, made, hbuilds, hsite, hcopied⟩ := h.copied hnamed hok
  have hroots : d.Roots root R := ⟨h.isTree, hnamed, h.leads, h.plain⟩
  refine hroots.sourceAt?_congr (hsite.roots.within hcopied.within) hns ?_
  calc
    (rules.createCopy (scratchName n) root d).1.fileAt? (R ++ ns) = made.fileAt? (R ++ ns) :=
      fileAt?_congr (hsite.node?_eq hcopied.within ns)
    _ = d.fileAt? (R ++ ns) := hbuilds.file (R ++ ns)

end CopyRules

end InkServer
