import InkServer.Proofs.Copy.Exact
import Mathlib.Data.List.Induction

/-!
This module contains what belongs into the copy of a tree, told from the tree itself: its folders, and
the files with a source extension in them. A pass sees the tree by paths only. It takes what belongs
into the copy where every item is seen by its path for what it is.
-/

namespace InkServer

open Text Disk

/-- The name of a file alone decides whether it has a source extension. -/
theorem SourceFilter.hasSourceExtension_child (filter : SourceFilter) (p : Path) {m : Name}
    (hm : IsName m) : filter.hasSourceExtension (p.child m) = filter.hasSourceExtension ⟨m⟩ := by
  have hname : ∀ k ∈ [m], IsName k := by simpa using hm
  have hchild := filter.hasSourceExtension_inside p .empty (by simp) hname
  rwa [Path.inside, Path.inside, List.foldl_cons, List.foldl_cons, List.foldl_nil, List.foldl_nil,
    Path.child, Path.child, Path.empty, Path.empty_join] at hchild

/-- The item of a folder is a node or leads to it, by however many links. -/
def Disk.LeadsTo (d : Disk) (loc : Location) (m : Name) (node : Node) : Prop :=
  ∃ links l, Way d true links loc [m] (.found l node)

theorem Disk.LeadsTo.node?_ne_none {d : Disk} {loc : Location} {m : Name} {content : Bytes}
    {executable : Bool} (h : d.LeadsTo loc m (.file content executable)) :
    d.node? (loc ++ [m]) ≠ none := by
  obtain ⟨links, l, hway⟩ := h
  cases hway with
  | skip _ h => cases h
  | up h => cases h
  | enter _ hn => simp [hn]
  | follow _ hn => simp [hn]
  | leaf _ hn => simp [hn]

namespace CopyRules

variable {rules : CopyRules} {n : Nat} {root : Path} {R B : Location} {d : Disk} {ns ks : List Name}
  {m : Name} {node : Node}

/-- The item of a folder is a scratch folder: it stands at or under the folder at `B`, and its name
begins like that of one. -/
def IsScratchItem (B loc : Location) (m : Name) : Prop :=
  B <+: loc ++ [m] ∧ scratchMark <+: m

/-- The folders of the tree at `R` that are reached through real folders, none of them a scratch
folder. -/
inductive Reached (R B : Location) (d : Disk) : List Name → Prop where
  | root : Reached R B d []
  | child {ns : List Name} {m : Name} (h : Reached R B d ns) (hshown : ¬IsScratchItem B (R ++ ns) m)
    (hreal : d.node? (R ++ ns ++ [m]) = some .folder) : Reached R B d (ns ++ [m])

/-- What belongs into the copy of the tree at `R`: the folders that are reached, and the regular files
and links to regular files in them whose names have a source extension. -/
inductive Belongs (rules : CopyRules) (R B : Location) (d : Disk) : List Name → Node → Prop where
  | folder {ns : List Name} (h : Reached R B d ns) : Belongs rules R B d ns .folder
  | file {ns : List Name} {m : Name} {content : Bytes} {executable : Bool} (h : Reached R B d ns)
    (hshown : ¬IsScratchItem B (R ++ ns) m) (hext : rules.filter.hasSourceExtension ⟨m⟩ = true)
    (hfile : d.LeadsTo (R ++ ns) m (.file content executable)) :
    Belongs rules R B d (ns ++ [m]) (.file content executable)

theorem Reached.not_isScratchItem (h : Reached R B d ks) (hpre : ns ++ [m] <+: ks) :
    ¬IsScratchItem B (R ++ ns) m := by
  induction h with
  | root => simp at hpre
  | child _ hshown _ ih =>
    rcases List.prefix_concat_iff.mp hpre with heq | hpre
    . obtain ⟨rfl, rfl⟩ := List.append_singleton_inj.mp heq
      exact hshown
    . exact ih hpre

/-- A scratch folder does not belong into a copy, and neither does anything in it. -/
theorem IsScratchItem.not_belongs (h : IsScratchItem B (R ++ ns) m) (hpre : ns ++ [m] <+: ks) :
    ¬rules.Belongs R B d ks node := by
  intro hb
  cases hb with
  | folder hr => exact hr.not_isScratchItem hpre h
  | file hr hshown =>
    rcases List.prefix_concat_iff.mp hpre with heq | hpre
    . obtain ⟨rfl, rfl⟩ := List.append_singleton_inj.mp heq
      exact hshown h
    . exact hr.not_isScratchItem hpre h

/-- By its path from the root, every item of a folder that is reached is seen for what it is. -/
structure Evident (rules : CopyRules) (root : Path) (R B : Location) (d : Disk) : Prop where
  /-- The name and the path of an item are not too long for the system. -/
  fits : ∀ {ns m}, Reached R B d ns → d.node? (R ++ ns ++ [m]) ≠ none → ¬IsScratchItem B (R ++ ns) m →
    m.length ≤ maxName ∧ (root.inside (ns ++ [m])).IsProper
  /-- The links on the way to a file, those to the root among them, are not too many. -/
  links : ∀ {ns m content executable}, Reached R B d ns →
    d.LeadsTo (R ++ ns) m (.file content executable) →
    d.find true (root.inside (ns ++ [m])) ≠ .error .tooManyLinks
  /-- The text of a path shows whether an item named like a scratch folder is one. -/
  starts : ∀ {ns m}, Reached R B d ns → d.node? (R ++ ns ++ [m]) ≠ none → scratchMark <+: m →
    ((root.inside (ns ++ [m])).startsWith rules.scratchBase = true ↔ B <+: R ++ ns ++ [m])
  /-- The names of scratch folders are text. -/
  text : ∀ {ns m}, Reached R B d ns → d.node? (R ++ ns ++ [m]) ≠ none → IsScratchItem B (R ++ ns) m →
    (stringOf? m).isSome = true

theorem hides_child (rules : CopyRules) (p : Path) (hm : IsName m) :
    rules.hides (p.child m) = true
      ↔
    (p.child m).startsWith rules.scratchBase = true ∧ (stringOf? m).isSome = true
      ∧ scratchMark <+: m := by
  have hname : (p.child m).fileName? = some m := by
    rw [Path.fileName?, Path.components_child _ hm, List.getLast?_concat]
  rw [hides, isScratchName, hname, Bool.and_eq_true, Bool.and_eq_true, List.isPrefixOf_iff_prefix]

namespace Evident

/-- The pass takes exactly the scratch folders for scratch folders. -/
theorem hides_iff (h : rules.Evident root R B d) (hr : Reached R B d ns) (hm : IsName m)
    (hthere : d.node? (R ++ ns ++ [m]) ≠ none) :
    rules.hides (root.inside (ns ++ [m])) = true ↔ IsScratchItem B (R ++ ns) m := by
  rw [Path.inside_concat, hides_child _ _ hm, ← Path.inside_concat]
  constructor
  . rintro ⟨hstarts, _, hmark⟩
    exact ⟨(h.starts hr hthere hmark).mp hstarts, hmark⟩
  . intro hscratch
    exact ⟨(h.starts hr hthere hscratch.2).mpr hscratch.1, h.text hr hthere hscratch, hscratch.2⟩

theorem hides_eq_false (h : rules.Evident root R B d) (hr : Reached R B d ns) (hm : IsName m)
    (hthere : d.node? (R ++ ns ++ [m]) ≠ none) :
    rules.hides (root.inside (ns ++ [m])) = false ↔ ¬IsScratchItem B (R ++ ns) m := by
  rw [← Bool.not_eq_true, h.hides_iff hr hm hthere]

theorem visited_iff (h : rules.Evident root R B d) (hroot : d.Opens root R) :
    Visited rules root d ns ↔ Reached R B d ns := by
  constructor
  . intro hv
    induction hv with
    | root => exact .root
    | @child ns m l hv hm hshown hreal hr =>
      obtain ⟨hfind, hns⟩ := hv.find_eq hroot
      obtain ⟨_, _, _, hnode⟩ :=
        (hroot.find_child_iff (hroot.isTree.node?_of_find hfind) hns hm).mp hreal
      have hthere : d.node? (R ++ ns ++ [m]) ≠ none := by
        rw [hnode]
        simp
      exact .child hr ((h.hides_eq_false hr hm hthere).mp hshown) hnode
  . intro hr
    induction hr with
    | root => exact .root
    | @child ns m hr hshown hreal hv =>
      have hthere : d.node? (R ++ ns ++ [m]) ≠ none := by
        rw [hreal]
        simp
      have hm := hroot.isTree.isName hthere
      obtain ⟨hlen, hp⟩ := h.fits hr hthere hshown
      obtain ⟨hfind, hns⟩ := hv.find_eq hroot
      refine .child hv hm ((h.hides_eq_false hr hm hthere).mpr hshown)
        ((hroot.find_child_iff (hroot.isTree.node?_of_find hfind) hns hm).mpr ⟨hp, hlen, rfl, hreal⟩)

/-- Whatever belongs into the copy is taken, and nothing else. -/
theorem taken_iff (h : rules.Evident root R B d) (hroot : d.Opens root R) :
    Taken rules root d ns node ↔ rules.Belongs R B d ns node := by
  obtain ⟨left, hleft⟩ := hroot.exists_locate_child
  constructor
  . intro ht
    cases ht with
    | folder hv => exact .folder ((h.visited_iff hroot).mp hv)
    | @file ns m l content executable hv hm hshown hext hfile =>
      have hr := (h.visited_iff hroot).mp hv
      obtain ⟨hfind, hns⟩ := hv.find_eq hroot
      have hfolder := hroot.isTree.node?_of_find hfind
      obtain ⟨l', node, hreal⟩ := exists_find_false hfile
      obtain ⟨hp, _, _, hnode⟩ := (hroot.find_child_iff hfolder hns hm).mp hreal
      have hthere : d.node? (R ++ ns ++ [m]) ≠ none := by
        rw [hnode]
        simp
      rw [find_eq_ok_iff, hleft d (.refl d) hroot.isTree true hfolder hns hm hp,
        walk_eq_ok_iff] at hfile
      rw [Path.inside_concat, rules.filter.hasSourceExtension_child _ hm] at hext
      exact .file hr ((h.hides_eq_false hr hm hthere).mp hshown) hext ⟨left, l, hfile⟩
  . intro hb
    cases hb with
    | folder hr => exact .folder ((h.visited_iff hroot).mpr hr)
    | @file ns m content executable hr hshown hext hfile =>
      have hv := (h.visited_iff hroot).mpr hr
      have hthere := hfile.node?_ne_none
      have hm := hroot.isTree.isName hthere
      obtain ⟨hlen, hp⟩ := h.fits hr hthere hshown
      obtain ⟨hfind, hns⟩ := hv.find_eq hroot
      have hlocate := hleft d (.refl d) hroot.isTree true (hroot.isTree.node?_of_find hfind) hns hm hp
      have hlinks := h.links hr hfile
      obtain ⟨links, l, hway⟩ := hfile
      rw [← rules.filter.hasSourceExtension_child (root.inside ns) hm, ← Path.inside_concat] at hext
      refine .file hv hm ((h.hides_eq_false hr hm hthere).mpr hshown) hext (l := l) ?_
      rcases hway.walk_eq_or left with hwalk | hwalk
      . rw [find_eq_ok_iff, hlocate, hwalk]
      . rw [find, hlocate, hwalk] at hlinks
        exact absurd rfl hlinks

/-- A folder of the tree is reached, or the pass takes a folder on the way to it for a scratch
folder. -/
theorem reached_or_hidden (h : rules.Evident root R B d) (hroot : d.Opens root R)
    (hfolder : d.node? (R ++ ns) = some .folder) : Reached R B d ns ∨ rules.Hidden root ns := by
  induction ns using List.reverseRecOn with
  | nil => exact .inl .root
  | append_singleton ns m ih =>
    rw [← List.append_assoc] at hfolder
    have hthere : d.node? (R ++ ns ++ [m]) ≠ none := by
      rw [hfolder]
      simp
    rcases ih (hroot.isTree.folder hthere) with hr | ⟨ms, hne, hms, hhides⟩
    . by_cases hscratch : IsScratchItem B (R ++ ns) m
      . have hhides := (h.hides_iff hr (hroot.isTree.isName hthere) hthere).mpr hscratch
        exact .inr ⟨ns ++ [m], by simp, List.prefix_rfl, hhides⟩
      . exact .inl (.child hr hscratch hfolder)
    . exact .inr ⟨ms, hne, hms.trans (List.prefix_append ns [m]), hhides⟩

end Evident

theorem isScratchItem_scratchName (B : Location) (n : Nat) : IsScratchItem B B (scratchName n) :=
  ⟨List.prefix_append _ _, List.prefix_append _ _⟩

theorem Stage.ground (h : Stage rules n root R B d) (he : rules.Evident root R B d) :
    Ground rules n root R B d := by
  refine ⟨h, ?_⟩
  intro ns hplace
  have hfolder := h.source.isTree.node?_of_find h.scratch
  rw [← hplace] at hfolder
  refine (he.reached_or_hidden h.source hfolder).resolve_left ?_
  intro hr
  cases hr with
  | root => exact h.other (by rw [← hplace, List.append_nil])
  | child _ hshown =>
    rw [← List.append_assoc] at hplace
    obtain ⟨hB, hm⟩ := List.append_singleton_inj.mp hplace
    rw [hB, hm] at hshown
    exact hshown (isScratchItem_scratchName B n)

end CopyRules

end InkServer
