import InkServer.Proofs.Copy.Scratch
import InkServer.Proofs.Copy.Tree
import InkServer.Proofs.Disk.Descent
import InkServer.Proofs.Text.Utf8

/-!
This module contains what a pass leaves in its scratch folder when the tree that it copies may hold
links, and the scratch folder itself: what is taken by its path from the tree as it stood when the
scratch folder was empty, and nothing else.
-/

namespace InkServer

open Text Disk

theorem stringOf?_scratchName (n : Nat) : (stringOf? (scratchName n)).isSome = true := by
  have hencode : scratchName n = encode ("ink-ls-".toList
      ++ (List.replicate (32 - (Nat.toDigits 16 n).length) '0' ++ Nat.toDigits 16 n)) :=
    (encode_append _ _).symm
  rw [stringOf?, hencode, decode?_encode]
  rfl

namespace CopyRules

variable {rules : CopyRules} {n : Nat} {root p : Path} {R B : Location} {before d d' : Disk}
  {P P' : List Name → Prop} {ns ms k rel : List Name} {m : Name} {node : Node}

/-- The pass takes the path for that of a scratch folder: it lies where scratch folders are made, and
ends in the name of one. -/
def hides (rules : CopyRules) (p : Path) : Bool :=
  p.startsWith rules.scratchBase && isScratchName p

/-- The scratch folder of a pass needs no rule of its own. -/
theorem isScratch_scratchOf (rules : CopyRules) (n : Nat) (p : Path) :
    rules.isScratch (rules.scratchOf n) p = rules.hides p := by
  unfold isScratch hides
  cases hsame : p.sameSteps (rules.scratchOf n) with
  | false => rw [Bool.false_or]
  | true =>
    rw [Path.sameSteps, decide_eq_true_iff, rules.components_scratchOf] at hsame
    have hstarts : p.startsWith rules.scratchBase = true := by
      rw [Path.startsWith, hsame, List.isPrefixOf_iff_prefix]
      exact List.prefix_append _ _
    have hname : p.fileName? = some (scratchName n) := by
      rw [Path.fileName?, hsame, List.getLast?_concat]
    have hmark : scratchMark.isPrefixOf (scratchName n) = true := by
      rw [List.isPrefixOf_iff_prefix]
      exact List.prefix_append _ _
    rw [hstarts, isScratchName, hname]
    dsimp only
    rw [stringOf?_scratchName, hmark]
    rfl

/-- The folders that a pass visits: those found from the root through real folders, none of them
hidden. -/
inductive Visited (rules : CopyRules) (root : Path) (d : Disk) : List Name → Prop where
  | root : Visited rules root d []
  | child {ns : List Name} {m : Name} {l : Location} (h : Visited rules root d ns) (hm : IsName m)
    (hshown : rules.hides (root.inside (ns ++ [m])) = false)
    (hreal : d.find false (root.inside (ns ++ [m])) = .ok (l, .folder)) :
    Visited rules root d (ns ++ [m])

/-- What a pass takes into the copy of a tree: the folders that it visits, and the regular files with a
source extension that are found in them, be it by way of links. -/
inductive Taken (rules : CopyRules) (root : Path) (d : Disk) : List Name → Node → Prop where
  | folder {ns : List Name} (h : Visited rules root d ns) : Taken rules root d ns .folder
  | file {ns : List Name} {m : Name} {l : Location} {content : Bytes} {executable : Bool}
    (h : Visited rules root d ns) (hm : IsName m)
    (hshown : rules.hides (root.inside (ns ++ [m])) = false)
    (hext : rules.filter.hasSourceExtension (root.inside (ns ++ [m])) = true)
    (hfile : d.find true (root.inside (ns ++ [m])) = .ok (l, .file content executable)) :
    Taken rules root d (ns ++ [m]) (.file content executable)

/-- A hidden folder is on the way along the names. -/
def Hidden (rules : CopyRules) (root : Path) (ns : List Name) : Prop :=
  ∃ ms, ms ≠ [] ∧ ms <+: ns ∧ rules.hides (root.inside ms) = true

theorem Visited.of_prefix (h : Visited rules root d ns) (hpre : ms <+: ns) :
    Visited rules root d ms := by
  induction h with
  | root =>
    rw [List.prefix_nil.mp hpre]
    exact .root
  | child h hm hshown hreal ih =>
    rcases List.prefix_concat_iff.mp hpre with heq | hpre
    . rw [heq]
      exact .child h hm hshown hreal
    . exact ih hpre

theorem Visited.shown (h : Visited rules root d ns) (hne : ns ≠ []) :
    rules.hides (root.inside ns) = false := by
  cases h with
  | root => exact absurd rfl hne
  | child _ _ hshown => exact hshown

theorem Visited.not_hidden (h : Visited rules root d ns) : ¬rules.Hidden root ns := by
  rintro ⟨ms, hne, hpre, hhides⟩
  rw [(h.of_prefix hpre).shown hne] at hhides
  cases hhides

theorem Visited.find_eq (h : Visited rules root d ns) (hroot : d.Opens root R) :
    d.find true (root.inside ns) = .ok (R ++ ns, .folder) ∧ ∀ m ∈ ns, Holds m := by
  induction h with
  | root =>
    rw [Path.inside_nil, List.append_nil]
    exact ⟨hroot.leads, by simp⟩
  | @child ns m l _ hm _ hreal ih =>
    obtain ⟨hfind, hns⟩ := ih
    have hfolder := hroot.isTree.node?_of_find hfind
    obtain ⟨hp, hlen, _, hnode⟩ := (hroot.find_child_iff hfolder hns hm).mp hreal
    have hm' : Holds m := ⟨hm, hlen⟩
    rw [← List.append_assoc]
    refine ⟨hroot.find_child_of_node? hfolder hns hm' hp hnode (by simp), ?_⟩
    intro k hk
    rcases List.mem_append.mp hk with hk | hk
    . exact hns k hk
    . rw [List.mem_singleton.mp hk]
      exact hm'

theorem Visited.isName (h : Visited rules root d ns) : ∀ m ∈ ns, IsName m := by
  induction h with
  | root => simp
  | child _ hm _ _ ih => simpa [or_imp, forall_and] using ⟨ih, hm⟩

theorem Visited.exists_real (h : Visited rules root d ns) (hne : ns ≠ []) :
    ∃ l, d.find false (root.inside ns) = .ok (l, .folder) := by
  cases h with
  | root => exact absurd rfl hne
  | child _ _ _ hreal => exact ⟨_, hreal⟩

theorem Visited.isLink (h : Visited rules root d ns) (hne : ns ≠ []) :
    d.isLink (root.inside ns) = false := by
  obtain ⟨l, hreal⟩ := h.exists_real hne
  rw [Disk.isLink, hreal]

/-- A folder in a folder that is visited is visited too, unless it is one by way of a link. -/
theorem Visited.of_isFolder (hroot : d.Opens root R) (h : Visited rules root d ns) (hm : IsName m)
    (hshown : rules.hides (root.inside (ns ++ [m])) = false)
    (hfolder : d.isFolder (root.inside (ns ++ [m])) = true)
    (hlink : d.isLink (root.inside (ns ++ [m])) = false) : Visited rules root d (ns ++ [m]) := by
  obtain ⟨hfind, hns⟩ := h.find_eq hroot
  have haround := hroot.isTree.node?_of_find hfind
  obtain ⟨l, htrue⟩ := isFolder_iff.mp hfolder
  obtain ⟨l', node, hfalse⟩ := exists_find_false htrue
  obtain ⟨hp, hlen, _, hnode⟩ := (hroot.find_child_iff haround hns hm).mp hfalse
  have hreal : ∀ target, node ≠ .link target := by
    rintro target rfl
    rw [Disk.isLink, hfalse] at hlink
    cases hlink
  rw [hroot.find_child_of_node? haround hns ⟨hm, hlen⟩ hp hnode fun _ => hreal, Except.ok.injEq,
    Prod.mk.injEq] at htrue
  rw [htrue.2] at hfalse
  exact .child h hm hshown hfalse

theorem Taken.cases_file (h : Taken rules root d ns node) :
    (node = .folder ∧ Visited rules root d ns)
      ∨ ∃ l content executable, node = .file content executable
        ∧ rules.hides (root.inside ns) = false
        ∧ rules.filter.hasSourceExtension (root.inside ns) = true
        ∧ d.find true (root.inside ns) = .ok (l, .file content executable) := by
  cases h with
  | folder h => exact .inl ⟨rfl, h⟩
  | file _ _ hshown hext hfile => exact .inr ⟨_, _, _, rfl, hshown, hext, hfile⟩

theorem Taken.visited (h : Taken rules root d ns node) (hpre : k <+: ns) (hne : k ≠ ns) :
    Visited rules root d k := by
  cases h with
  | folder h => exact h.of_prefix hpre
  | file h =>
    rcases List.prefix_concat_iff.mp hpre with heq | hpre
    . exact absurd heq hne
    . exact h.of_prefix hpre

theorem Taken.isName (h : Taken rules root d ns node) : ∀ m ∈ ns, IsName m := by
  cases h with
  | folder h => exact h.isName
  | file h hm => simpa [or_imp, forall_and] using ⟨h.isName, hm⟩

theorem Taken.unique {other : Node} (hroot : d.Opens root R) (h : Taken rules root d ns node)
    (h' : Taken rules root d ns other) : node = other := by
  rcases h.cases_file with ⟨hn, hr⟩ | ⟨_, _, _, hn, _, _, hf⟩ <;>
    rcases h'.cases_file with ⟨hn', hr'⟩ | ⟨_, _, _, hn', _, _, hf'⟩
  . rw [hn, hn']
  . rw [(hr.find_eq hroot).1] at hf'
    cases hf'
  . rw [(hr'.find_eq hroot).1] at hf
    cases hf
  . rw [hf, Except.ok.injEq, Prod.mk.injEq] at hf'
    rw [hn, hn', hf'.2]

/-- The item at a path takes part in the copying. -/
structure TakesPart (rules : CopyRules) (d : Disk) (p : Path) : Prop where
  shown : rules.hides p = false
  isSource : rules.filter.isSource d p true = true
  isReal : (d.isLink p && d.isFolder p) = false

theorem Visited.takesPart (hroot : d.Opens root R) (h : Visited rules root d ns) (hne : ns ≠ []) :
    rules.TakesPart d (root.inside ns) := by
  refine ⟨h.shown hne, ?_, ?_⟩
  . rw [SourceFilter.isSource, (h.find_eq hroot).1]
  . rw [h.isLink hne, Bool.false_and]

theorem Taken.takesPart (hroot : d.Opens root R) (h : Taken rules root d ns node) (hne : k ≠ [])
    (hpre : k <+: ns) : rules.TakesPart d (root.inside k) := by
  by_cases heq : k = ns
  . subst heq
    rcases h.cases_file with ⟨_, hr⟩ | ⟨_, _, _, _, hshown, hext, hfile⟩
    . exact hr.takesPart hroot hne
    . refine ⟨hshown, ?_, ?_⟩
      . rw [SourceFilter.isSource, hfile]
        exact hext
      . rw [isFolder, hfile, Bool.and_false]
  . exact (h.visited hpre heq).takesPart hroot hne

/-- What the copying of an item does to the disk `d` and leaves for later, by what was at its path on
the disk `before`. -/
inductive Handles (rules : CopyRules) (before : Disk) (source target : Path) (d : Disk) :
    Disk → Option Pending → Prop where
  | pass (hpart : ¬rules.TakesPart before source) : Handles rules before source target d d none
  | folder {d' : Disk} (hshown : rules.hides source = false) (hfolder : before.isFolder source = true)
    (hlink : before.isLink source = false) (hmade : d.createFolders target = (d', .ok ())) :
    Handles rules before source target d d' (some (source, target))
  | file {d' : Disk} {l : Location} {content : Bytes} {executable : Bool}
    (hshown : rules.hides source = false) (hext : rules.filter.hasSourceExtension source = true)
    (hfile : before.find true source = .ok (l, .file content executable))
    (hstore : d.store target content executable = .ok d') : Handles rules before source target d d' none

theorem Handles.of_copyItem {source target : Path} {found : Option Pending}
    (hfind : ∀ follow, d.find follow source = before.find follow source)
    (hitem : rules.copyItem (rules.scratchOf n) source target d = (d', .ok found)) :
    Handles rules before source target d d' found := by
  have hsource : rules.filter.isSource d source true = rules.filter.isSource before source true := by
    rw [SourceFilter.isSource, hfind]
    rfl
  have hlink : d.isLink source = before.isLink source := by
    rw [isLink, hfind]
    rfl
  have hfolder : d.isFolder source = before.isFolder source := by
    rw [isFolder, hfind]
    rfl
  unfold copyItem at hitem
  rw [isScratch_scratchOf, hsource, hlink, hfolder] at hitem
  split at hitem
  . next hout =>
    rw [Prod.mk.injEq, Except.ok.injEq] at hitem
    rw [← hitem.1, ← hitem.2]
    refine .pass fun hpart => ?_
    rw [hpart.shown, hpart.isSource] at hout
    cases hout
  . next hin =>
    rw [Bool.or_eq_true, not_or, Bool.not_eq_true, Bool.not_eq_true', Bool.not_eq_false] at hin
    split at hitem
    . next hlinked =>
      rw [Prod.mk.injEq, Except.ok.injEq] at hitem
      rw [← hitem.1, ← hitem.2]
      refine .pass fun hpart => ?_
      rw [hpart.isReal] at hlinked
      cases hlinked
    . next hreal =>
      split at hitem
      . next hfolder =>
        rw [hfolder, Bool.and_true, Bool.not_eq_true] at hreal
        split at hitem
        . next d'' hmade =>
          rw [Prod.mk.injEq, Except.ok.injEq] at hitem
          rw [← hitem.1, ← hitem.2]
          exact .folder hin.1 hfolder hreal hmade
        . cases hitem
      . split at hitem
        . next d'' hcopy =>
          rw [Prod.mk.injEq, Except.ok.injEq] at hitem
          rw [← hitem.1, ← hitem.2]
          unfold copyFile at hcopy
          rw [hfind] at hcopy
          split at hcopy
          . cases hcopy
          . next l content executable hfile =>
            have hext := hin.2
            rw [SourceFilter.isSource, hfile] at hext
            exact .file hin.1 hext hfile hcopy
          . cases hcopy
        . cases hitem

/-- The tree at `R` is about to be copied to a scratch folder in the folder at `B`. The scratch folder
is there by now, and empty. -/
structure Stage (rules : CopyRules) (n : Nat) (root : Path) (R B : Location) (before : Disk) :
    Prop where
  source : before.Opens root R
  base : before.Opens rules.scratchBase B
  scratch : before.find true (rules.scratchOf n) = .ok (B ++ [scratchName n], .folder)
  empty : before.children (B ++ [scratchName n]) = []
  /-- The name of the scratch folder is new, so that no link mentions it. -/
  unnamed : before.NoLinkNames (scratchName n)
  other : R ≠ B ++ [scratchName n]

/-- If the scratch folder lies in the tree, then its path from the root shows what it is. -/
structure Ground (rules : CopyRules) (n : Nat) (root : Path) (R B : Location) (before : Disk) : Prop
    extends Stage rules n root R B before where
  apart : ∀ ns : List Name, R ++ ns = B ++ [scratchName n] → rules.Hidden root ns

namespace Ground

theorem made (h : Ground rules n root R B before) :
    before.node? (B ++ [scratchName n]) = some .folder :=
  h.source.isTree.node?_of_find h.scratch

theorem node?_inside (h : Ground rules n root R B before) (hne : ns ≠ []) :
    before.node? (B ++ [scratchName n] ++ ns) = none := by
  cases ns with
  | nil => exact absurd rfl hne
  | cons m ns =>
    refine Decidable.byContradiction fun hsome => ?_
    have heq : B ++ [scratchName n] ++ m :: ns = B ++ [scratchName n] ++ [m] ++ ns := by simp
    rw [heq] at hsome
    have hchild := mem_children_iff.mpr (h.source.isTree.node?_ne_none hsome)
    rw [h.empty] at hchild
    cases hchild

theorem node?_visited (h : Ground rules n root R B before) (hr : Visited rules root before ns) :
    before.node? (R ++ ns) = some .folder :=
  h.source.isTree.node?_of_find (hr.find_eq h.source).1

/-- No folder that is visited lies in the scratch folder. -/
theorem not_prefix (h : Ground rules n root R B before) (hr : Visited rules root d ns) :
    ¬B ++ [scratchName n] <+: R ++ ns := by
  intro hpre
  rcases List.prefix_or_prefix_of_prefix hpre (List.prefix_append R ns) with hpre' | ⟨ms, hms⟩
  . obtain ⟨rest, hrest⟩ := hpre'
    by_cases hne : rest = []
    . rw [hne, List.append_nil] at hrest
      exact h.other hrest.symm
    . have hnone := h.node?_inside hne
      rw [hrest, h.source.node?_eq] at hnone
      cases hnone
  . rw [← hms] at hpre
    exact (hr.of_prefix ((List.prefix_append_right_inj R).mp hpre)).not_hidden (h.apart ms hms)

/-- What an item of a visited folder is does not change while the scratch folder is filled. -/
theorem find_eq (h : Ground rules n root R B before) (hw : Within (B ++ [scratchName n]) before d)
    (hr : Visited rules root before rel) (hm : IsName m) (follow : Bool) :
    d.find follow (root.inside (rel ++ [m])) = before.find follow (root.inside (rel ++ [m])) := by
  have hpre := h.not_prefix hr
  refine h.source.find_child_outside hw.toSteady hw.isTree hw.outside h.unnamed
    (h.node?_visited hr) (hr.find_eq h.source).2 hm hpre ?_
  by_cases hplace : R ++ rel ++ [m] = B ++ [scratchName n]
  . rw [hplace, h.made, hw.folder h.made]
  . refine hw.outside fun hinside => ?_
    rcases List.prefix_concat_iff.mp hinside with heq | hinside
    . exact hplace heq.symm
    . exact hpre hinside

/-- The way to what is taken stays on the disk. -/
theorem node?_ne_none (h : Ground rules n root R B before)
    (hw : Within (B ++ [scratchName n]) before d) (hb : Taken rules root before ns node)
    (hpre : rel ++ [m] <+: ns) : d.node? (R ++ rel ++ [m]) ≠ none := by
  have hm : IsName m := hb.isName m (hpre.subset (by simp))
  have hr : Visited rules root before rel := by
    refine hb.visited ((List.prefix_append rel [m]).trans hpre) ?_
    rintro rfl
    have hlen := hpre.length_le
    rw [List.length_append, List.length_singleton] at hlen
    omega
  obtain ⟨l, n', hfind⟩ : ∃ l n', before.find true (root.inside (rel ++ [m])) = .ok (l, n') := by
    have hsource := (hb.takesPart h.source (by simp) hpre).isSource
    rw [SourceFilter.isSource] at hsource
    cases hf : before.find true (root.inside (rel ++ [m])) with
    | error e =>
      rw [hf] at hsource
      cases hsource
    | ok found => exact ⟨found.1, found.2, rfl⟩
  obtain ⟨l', n', hfind'⟩ := exists_find_false hfind
  rw [← h.find_eq hw hr hm, (h.source.steady hw.toSteady hw.isTree).find_child_iff
    (hw.folder (h.node?_visited hr)) (hr.find_eq h.source).2 hm] at hfind'
  rw [hfind'.2.2.2]
  simp

end Ground

/-- What stands in the scratch folder was taken, and what is taken and is not at a place in `P` stands
there. -/
structure Mirrored (rules : CopyRules) (n : Nat) (root : Path) (B : Location) (before d : Disk)
    (P : List Name → Prop) : Prop where
  within : Within (B ++ [scratchName n]) before d
  sound : ∀ {ns : List Name} {node : Node}, d.node? (B ++ [scratchName n] ++ ns) = some node →
    Taken rules root before ns node
  complete : ∀ {ns : List Name} {node : Node}, Taken rules root before ns node → ¬P ns →
    d.node? (B ++ [scratchName n] ++ ns) = some node

/-- The places in folders that are still to be copied. -/
def Awaits (rels : List (List Name)) (ns : List Name) : Prop :=
  ∃ rel ∈ rels, rel <+: ns ∧ rel ≠ ns

theorem visited_expand {rels : List (List Name)} {found : List Name}
    (hrels : ∀ r ∈ rel :: rels, Visited rules root d r)
    (hfound : ∀ m ∈ found, Visited rules root d (rel ++ [m])) :
    ∀ r ∈ found.map (rel ++ [·]) ++ rels, Visited rules root d r := by
  intro r hr
  rcases List.mem_append.mp hr with hr | hr
  . obtain ⟨m, hm, heq⟩ := List.mem_map.mp hr
    rw [← heq]
    exact hfound m hm
  . exact hrels r (.tail _ hr)

namespace Mirrored

theorem mono (h : Mirrored rules n root B before d P)
    (hP : ∀ ns node, Taken rules root before ns node → P ns → P' ns) :
    Mirrored rules n root B before d P' := by
  refine ⟨h.within, h.sound, ?_⟩
  intro ns node hb hnot
  exact h.complete hb fun hp => hnot (hP ns node hb hp)

theorem clean (hg : Ground rules n root R B before) (h : Mirrored rules n root B before d P) :
    d.Clean (rules.scratchOf n) (B ++ [scratchName n]) := by
  refine ⟨⟨h.within.isTree, Path.isNamed_child _ (isName_scratchName n),
    h.within.find_folder hg.scratch, ?_⟩, ?_⟩
  . intro ns target hn
    rcases (h.sound hn).cases_file with ⟨heq, _⟩ | ⟨_, _, _, heq, _⟩ <;> cases heq
  . intro ns hn
    rcases (h.sound hn).cases_file with ⟨heq, _⟩ | ⟨_, _, _, heq, _⟩ <;> cases heq

theorem start (hg : Ground rules n root R B before) :
    Mirrored rules n root B before before fun ns => ns ≠ [] := by
  refine ⟨.refl _ hg.source.isTree, ?_, ?_⟩
  . intro ns node hn
    by_cases hne : ns = []
    . rw [hne, List.append_nil, hg.made, Option.some.injEq] at hn
      rw [hne, ← hn]
      exact .folder .root
    . rw [hg.node?_inside hne] at hn
      cases hn
  . intro ns node hb hnot
    have hnil : ns = [] := Decidable.not_not.mp hnot
    rw [hnil] at hb ⊢
    rw [hb.unique hg.source (.folder .root), List.append_nil, hg.made]

theorem makeFolder (hg : Ground rules n root R B before) (h : Mirrored rules n root B before d P)
    (hk : Visited rules root before k) (hne : k ≠ [])
    (hmade : d.createFolders ((rules.scratchOf n).inside k) = (d', .ok ())) :
    Mirrored rules n root B before d' fun ns => (P ns ∧ ¬k <+: ns) ∨ (k <+: ns ∧ k ≠ ns) := by
  have hclean := h.clean hg
  have hks := hk.isName
  obtain ⟨hwithin, hgrows⟩ := hclean.createFolders_inside hks
  have hfolder := createFolders_isFolder (hclean.isNamed.parent?_inside hne hks)
    (congrArg Prod.snd hmade)
  rw [hmade] at hwithin hgrows hfolder
  dsimp only at hwithin hgrows hfolder
  refine ⟨h.within.trans hwithin, ?_, ?_⟩
  . intro ns node hn
    rcases hgrows (B ++ [scratchName n] ++ ns) with hsame | ⟨_, hnew, ms, _, hms, heq⟩
    . rw [hsame] at hn
      exact h.sound hn
    . rw [hnew, Option.some.injEq] at hn
      rw [List.append_cancel_left heq, ← hn]
      exact .folder (hk.of_prefix hms)
  . intro ns node hb hnot
    by_cases hpre : k <+: ns
    . obtain rfl : k = ns := Decidable.byContradiction fun hneq => hnot (.inr ⟨hpre, hneq⟩)
      obtain ⟨l, hl⟩ := isFolder_iff.mp hfolder
      obtain ⟨_, _, hnode⟩ := ((hclean.toRoots.within hwithin).find_true_inside_iff hks).mp hl
      rw [hnode, hb.unique hg.source (.folder hk)]
    . have hold := h.complete hb fun hp => hnot (.inl ⟨hp, hpre⟩)
      rcases hgrows (B ++ [scratchName n] ++ ns) with hsame | ⟨hnone, _⟩
      . rw [hsame, hold]
      . rw [hold] at hnone
        cases hnone

/-- A source is copied to its place in the scratch folder. -/
theorem copyFile (hg : Ground rules n root R B before) (h : Mirrored rules n root B before d P)
    {l : Location} {content : Bytes} {executable : Bool} (hne : k ≠ [])
    (hb : Taken rules root before k (.file content executable))
    (hfind : before.find true (root.inside k) = .ok (l, .file content executable))
    (hstore : d.store ((rules.scratchOf n).inside k) content executable = .ok d') :
    Mirrored rules n root B before d' fun ns => P ns ∧ ¬k <+: ns := by
  have hclean := h.clean hg
  have hks := hb.isName
  obtain ⟨hwithin, _, _⟩ := hclean.store_inside hne hks (hclean.regular k) hstore
  have hput : d' = d.put (B ++ [scratchName n] ++ k) (.file content executable) := by
    refine hclean.store_inside_eq hne hks ?_ hstore
    cases hn : d.node? (B ++ [scratchName n] ++ k) with
    | none => exact .inl rfl
    | some node => exact .inr ⟨content, by rw [(h.sound hn).unique hg.source hb]⟩
  have hnode := fun l => @node?_put d (B ++ [scratchName n] ++ k) (.file content executable) (by simp) l
  rw [← hput] at hnode
  refine ⟨h.within.trans hwithin, ?_, ?_⟩
  . intro ns node hn
    rw [hnode] at hn
    split at hn
    . next heq =>
      rw [List.append_cancel_left heq, ← Option.some.inj hn]
      exact hb
    . exact h.sound hn
  . intro ns node hb' hnot
    rw [hnode]
    split
    . next heq =>
      rw [List.append_cancel_left heq] at hb'
      rw [hb'.unique hg.source hb]
    . next hneq =>
      refine h.complete hb' fun hp => hnot ⟨hp, fun hpre => ?_⟩
      -- Nothing is taken from below a file.
      have hr := hb'.visited hpre fun heq => hneq (by rw [heq])
      rw [(hr.find_eq hg.source).1] at hfind
      cases hfind

/-- The copying of one item takes its place from those that are still to come. A folder leaves the
places in it. -/
theorem copyItem (hg : Ground rules n root R B before) (h : Mirrored rules n root B before d P)
    (hr : Visited rules root before rel) (hm : IsName m) {found : Option Pending}
    (hitem : rules.copyItem (rules.scratchOf n) (root.inside (rel ++ [m]))
      ((rules.scratchOf n).inside (rel ++ [m])) d = (d', .ok found)) :
    (found = none ∧ Mirrored rules n root B before d' fun ns => P ns ∧ ¬rel ++ [m] <+: ns)
      ∨ (found = some (itemOf root (rules.scratchOf n) (rel ++ [m]))
        ∧ Visited rules root before (rel ++ [m])
        ∧ Mirrored rules n root B before d' fun ns =>
          (P ns ∧ ¬rel ++ [m] <+: ns) ∨ (rel ++ [m] <+: ns ∧ rel ++ [m] ≠ ns)) := by
  have hne : rel ++ [m] ≠ [] := by simp
  cases Handles.of_copyItem (hg.find_eq h.within hr hm) hitem with
  | pass hpart =>
    refine .inl ⟨rfl, h.mono fun ns node hb hP => ⟨hP, fun hpre => ?_⟩⟩
    exact hpart (hb.takesPart hg.source hne hpre)
  | folder hshown hfolder hlink hmade =>
    have hk := hr.of_isFolder hg.source hm hshown hfolder hlink
    exact .inr ⟨rfl, hk, h.makeFolder hg hk hne hmade⟩
  | file hshown hext hfile hstore =>
    have hb : Taken rules root before (rel ++ [m]) _ := .file hr hm hshown hext hfile
    exact .inl ⟨rfl, h.copyFile hg hne hb hfile hstore⟩

/-- The copying of the items of a folder leaves the folders among them for later. -/
theorem copyItems (hg : Ground rules n root R B before) {names : List Name}
    {rels : List (List Name)} {pending : List Pending} (hr : Visited rules root before rel)
    (hnames : ∀ m ∈ names, IsName m)
    (h : Mirrored rules n root B before d fun ns =>
      Awaits rels ns ∨ ∃ m ∈ names, rel ++ [m] <+: ns)
    (hitems : rules.copyItems (rules.scratchOf n) (root.inside rel) ((rules.scratchOf n).inside rel)
      names (rels.map (itemOf root (rules.scratchOf n))) d = (d', .ok pending)) :
    ∃ found : List Name, found.Sublist names.reverse
      ∧ pending = (found.map (rel ++ [·]) ++ rels).map (itemOf root (rules.scratchOf n))
      ∧ (∀ m ∈ found, Visited rules root before (rel ++ [m]))
      ∧ Mirrored rules n root B before d' (Awaits (found.map (rel ++ [·]) ++ rels)) := by
  induction names generalizing rels d with
  | nil =>
    rw [CopyRules.copyItems, Prod.mk.injEq, Except.ok.injEq] at hitems
    rw [← hitems.1, ← hitems.2]
    refine ⟨[], List.Sublist.slnil, rfl, by simp, h.mono ?_⟩
    intro ns _ _ hP
    simpa using hP
  | cons m names ih =>
    have hm := hnames m (.head _)
    have hnames' := fun k hk => hnames k (.tail m hk)
    unfold CopyRules.copyItems at hitems
    rw [← Path.inside_concat, ← Path.inside_concat] at hitems
    split at hitems
    . next d'' item hitem =>
      rcases h.copyItem hg hr hm hitem with ⟨hitem', hcopied⟩ | ⟨hitem', hvisited, hcopied⟩
      . rw [hitem', Option.toList_none, List.nil_append] at hitems
        have hrest := ih hnames' (hcopied.mono ?_) hitems
        . obtain ⟨found, hsub, hpending, hall, hdone⟩ := hrest
          refine ⟨found, ?_, hpending, hall, hdone⟩
          rw [List.reverse_cons]
          exact hsub.trans (List.sublist_append_left _ _)
        . rintro ns _ _ ⟨hP | ⟨k, hk, hpre⟩, hnot⟩
          . exact .inl hP
          . rcases List.mem_cons.mp hk with rfl | hk
            . exact absurd hpre hnot
            . exact .inr ⟨k, hk, hpre⟩
      . rw [hitem', Option.toList_some, List.singleton_append, ← List.map_cons] at hitems
        have hrest := ih hnames' (hcopied.mono ?_) hitems
        . obtain ⟨found, hsub, hpending, hall, hdone⟩ := hrest
          have hmap : (found ++ [m]).map (rel ++ [·]) ++ rels
              = found.map (rel ++ [·]) ++ (rel ++ [m]) :: rels := by simp
          refine ⟨found ++ [m], ?_, ?_, ?_, ?_⟩
          . rw [List.reverse_cons]
            exact hsub.append (List.Sublist.refl _)
          . rw [hmap, hpending]
          . intro k hk
            rcases List.mem_append.mp hk with hk | hk
            . exact hall k hk
            . rw [List.mem_singleton.mp hk]
              exact hvisited
          . rw [hmap]
            exact hdone
        . rintro ns _ _ (⟨hP | ⟨k, hk, hpre⟩, hnot⟩ | ⟨hpre, hne⟩)
          . obtain ⟨r, hr, hpre⟩ := hP
            exact .inl ⟨r, .tail _ hr, hpre⟩
          . rcases List.mem_cons.mp hk with rfl | hk
            . exact absurd hpre hnot
            . exact .inr ⟨k, hk, hpre⟩
          . exact .inl ⟨rel ++ [m], .head _, hpre, hne⟩
    . cases hitems

theorem list_eq (hg : Ground rules n root R B before) (h : Mirrored rules n root B before d P)
    (hr : Visited rules root before rel) :
    d.list (root.inside rel) = .ok (d.children (R ++ rel)) := by
  rw [Disk.list, h.within.find_folder (hr.find_eq hg.source).1]

theorem isName_of_mem_children (h : Mirrored rules n root B before d P) {l : Location}
    (hm : m ∈ d.children l) : IsName m :=
  h.within.isTree.isName (mem_children_iff.mp hm)

/-- What is still to come in a folder lies at its items. -/
theorem expand (hg : Ground rules n root R B before) {rels : List (List Name)}
    (h : Mirrored rules n root B before d (Awaits (rel :: rels))) :
    Mirrored rules n root B before d fun ns =>
      Awaits rels ns ∨ ∃ m ∈ d.children (R ++ rel), rel ++ [m] <+: ns := by
  refine h.mono ?_
  rintro ns node hb ⟨r, hr, ⟨rest, hrest⟩, hne⟩
  rcases List.mem_cons.mp hr with rfl | hr
  . cases rest with
    | nil =>
      rw [List.append_nil] at hrest
      exact absurd hrest hne
    | cons m rest =>
      have hpre : r ++ [m] <+: ns := ⟨rest, by rw [← hrest]; simp⟩
      exact .inr ⟨m, mem_children_iff.mpr (hg.node?_ne_none h.within hb hpre), hpre⟩
  . exact .inl ⟨r, hr, ⟨rest, hrest⟩, hne⟩

/-- When no folder is left, all that is taken stands in the scratch folder. -/
theorem copyTree (hg : Ground rules n root R B before) (fuel : Nat) {rels : List (List Name)}
    (hrels : ∀ r ∈ rels, Visited rules root before r)
    (h : Mirrored rules n root B before d (Awaits rels))
    (htree : rules.copyTree (rules.scratchOf n) fuel (rels.map (itemOf root (rules.scratchOf n))) d
      = (d', .ok ())) :
    Mirrored rules n root B before d' fun _ => False := by
  have hend : ∀ {d}, Mirrored rules n root B before d (Awaits []) →
      Mirrored rules n root B before d fun _ => False := by
    intro d h
    apply h.mono
    rintro _ _ _ ⟨_, hr, _⟩
    cases hr
  induction fuel generalizing rels d with
  | zero =>
    cases rels with
    | nil =>
      rw [List.map_nil, CopyRules.copyTree, Prod.mk.injEq] at htree
      rw [← htree.1]
      exact hend h
    | cons rel rels => simp [CopyRules.copyTree, itemOf] at htree
  | succ fuel ih =>
    cases rels with
    | nil =>
      rw [List.map_nil, CopyRules.copyTree, Prod.mk.injEq] at htree
      rw [← htree.1]
      exact hend h
    | cons rel rels =>
      have hr := hrels rel (.head _)
      rw [List.map_cons, itemOf, CopyRules.copyTree, h.list_eq hg hr] at htree
      dsimp only at htree
      split at htree
      . next d'' pending hitems =>
        obtain ⟨found, _, hpending, hall, hdone⟩ := (h.expand hg).copyItems hg hr
          (fun m hm => h.isName_of_mem_children hm) hitems
        rw [hpending] at htree
        exact ih (visited_expand hrels hall) hdone htree
      . cases htree

end Mirrored

end CopyRules

end InkServer
