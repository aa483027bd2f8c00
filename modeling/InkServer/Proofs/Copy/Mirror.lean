import InkServer.Proofs.Copy.Ending
import InkServer.Proofs.Copy.Sources
import Mathlib.Data.List.Infix

/-!
This module contains what a pass that succeeds comes to: its scratch folder is exactly the copy of the
tree as it stood when that folder was made, and a later pass over the same tree makes the same copy.
-/

namespace InkServer

open Text Disk

namespace Disk

variable {d d' e : Disk} {p : Path} {loc l : Location} {m : Name}

/-- The two disks hold the same, perhaps listed in another order. -/
structure Same (d e : Disk) : Prop where
  current : e.current = d.current
  node : ∀ l, e.node? l = d.node? l

theorem Same.steady (h : d.Same e) : Steady d e := by
  refine ⟨h.current, ?_, ?_⟩
  . intro l hl
    rw [h.node, hl]
  . intro l target
    rw [h.node]

theorem Same.isTree (h : d.Same e) (hd : d.IsTree) : e.IsTree := by
  constructor
  . intro loc m hn
    rw [h.node] at hn
    exact hd.isName hn
  . intro loc m hn
    rw [h.node] at hn ⊢
    exact hd.folder hn
  . rw [h.current, h.node]
    exact hd.current

theorem Same.opens (h : d.Same e) (hp : d.Opens p loc) : e.Opens p loc :=
  hp.steady h.steady (h.isTree hp.isTree)

/-- If the folder around it is there, then a folder is made unless something stands in its place, and
then the folders around it do not matter. -/
theorem Opens.makeFolder_child (h : d.Opens p loc) (hm : IsName m) :
    (∃ e, e ≠ .notFound ∧ d.makeFolder (p.child m) = .error e)
      ∨ (d.node? (loc ++ [m]) = none
        ∧ d.makeFolder (p.child m) = .ok (d.put (loc ++ [m]) .folder)) := by
  unfold makeFolder
  by_cases hp : (p.child m).IsProper
  . obtain ⟨left, hleft⟩ := h.exists_locate_child
    have hlocate : d.locate false (p.child m) = d.walk false left loc [m] := by
      have hfolder : d.node? (loc ++ []) = some .folder := by rw [List.append_nil, h.node?_eq]
      have hlocate := @hleft d (.refl d) h.isTree [] m false hfolder (by simp) hm hp
      rwa [List.append_nil] at hlocate
    rw [hlocate]
    by_cases hlen : m.length ≤ maxName
    . cases hn : d.node? (loc ++ [m]) with
      | none =>
        rw [walk_fits ⟨hm.ne_nil, hm.ne_here, hm.ne_up, hlen⟩, hn]
        exact .inr ⟨rfl, rfl⟩
      | some node =>
        rw [walk_name ⟨hm, hlen⟩ hn (by simp)]
        exact .inl ⟨.alreadyExists, by simp, rfl⟩
    . rw [walk_of_length hm hlen]
      exact .inl ⟨.nameTooLong, by simp, rfl⟩
  . have hne := (Path.isNamed_child p hm).ne_nil
    refine .inl ?_
    unfold locate
    rw [if_neg hne]
    by_cases hnul : (p.child m).bytes.contains 0 = true
    . rw [if_pos hnul]
      exact ⟨.containsNul, by simp, rfl⟩
    . have hlen : (p.child m).bytes.length > maxPath :=
        Nat.lt_of_not_le fun hlen => hp ⟨hne, by simpa using hnul, hlen⟩
      rw [if_neg hnul, if_pos hlen]
      exact ⟨.nameTooLong, by simp, rfl⟩

theorem Opens.createFolders_child (h : d.Opens p loc) (hm : IsName m) :
    (d.createFolders (p.child m)).1 = d
      ∨ (d.node? (loc ++ [m]) = none
        ∧ (d.createFolders (p.child m)).1 = d.put (loc ++ [m]) .folder) := by
  unfold createFolders createFolders.descend
  rcases h.makeFolder_child hm with ⟨e, he, hmade⟩ | ⟨hnone, hmade⟩
  . refine .inl ?_
    rw [hmade]
    split
    . rfl
    . split
      . next heq => cases heq
      . next heq => exact absurd (Except.error.inj heq) he
      . rfl
  . rw [hmade]
    split
    . exact .inl rfl
    . exact .inr ⟨hnone, rfl⟩

theorem Opens.node?_createFolders_child (h : d.Opens p loc) (hm : IsName m)
    (hl : ¬loc ++ [m] <+: l) : (d.createFolders (p.child m)).1.node? l = d.node? l := by
  rcases h.createFolders_child hm with heq | ⟨hnone, heq⟩
  . rw [heq]
  . rw [heq, node?_put_ne (by simp)]
    rintro rfl
    exact hl List.prefix_rfl

end Disk

namespace CopyRules

variable {rules : CopyRules} {n k : Nat} {root scratch other : Path} {R B : Location}
  {d d' e before : Disk} {ns : List Name} {m : Name} {node : Node}

/-- If the same is found in the folders that are visited, then the same folders are visited. -/
theorem Visited.congr
    (hfind : ∀ {rel m}, Visited rules root d rel → IsName m →
      rules.hides (root.inside (rel ++ [m])) = false → ∀ follow,
      d'.find follow (root.inside (rel ++ [m])) = d.find follow (root.inside (rel ++ [m]))) :
    Visited rules root d' ns ↔ Visited rules root d ns := by
  constructor
  . intro h
    induction h with
    | root => exact .root
    | child _ hm hshown hreal ih =>
      rw [hfind ih hm hshown] at hreal
      exact .child ih hm hshown hreal
  . intro h
    induction h with
    | root => exact .root
    | child h hm hshown hreal ih =>
      rw [← hfind h hm hshown] at hreal
      exact .child ih hm hshown hreal

theorem Taken.congr
    (hfind : ∀ {rel m}, Visited rules root d rel → IsName m →
      rules.hides (root.inside (rel ++ [m])) = false → ∀ follow,
      d'.find follow (root.inside (rel ++ [m])) = d.find follow (root.inside (rel ++ [m]))) :
    Taken rules root d' ns node ↔ Taken rules root d ns node := by
  constructor
  . intro h
    cases h with
    | folder h => exact .folder ((Visited.congr hfind).mp h)
    | file h hm hshown hext hfile =>
      have h' := (Visited.congr hfind).mp h
      rw [hfind h' hm hshown] at hfile
      exact .file h' hm hshown hext hfile
  . intro h
    cases h with
    | folder h => exact .folder ((Visited.congr hfind).mpr h)
    | file h hm hshown hext hfile =>
      rw [← hfind h hm hshown] at hfile
      exact .file ((Visited.congr hfind).mpr h) hm hshown hext hfile

/-- The disk once the scratch folder of the `n`th draw was made. -/
def prepared (rules : CopyRules) (n : Nat) (d : Disk) : Disk :=
  (d.createFolders (rules.scratchOf n)).1

/-- The making of a scratch folder for a later pass changes nothing that the pass copies. -/
theorem Ground.find_prepared (h : Ground rules k root R B (rules.prepared k e)) (hsame : d.Same e)
    (hroot : d.Opens root R) (hbase : e.Opens rules.scratchBase B)
    (hr : Visited rules root d ns) (hm : IsName m)
    (hshown : rules.hides (root.inside (ns ++ [m])) = false) (follow : Bool) :
    (rules.prepared k e).find follow (root.inside (ns ++ [m]))
      =
    d.find follow (root.inside (ns ++ [m])) := by
  have hbuilds : Builds e (rules.prepared k e) := .createFolders hbase.isTree _
  have hsteady := hsame.steady.trans hbuilds.toSteady
  have hout : ∀ {l}, ¬B ++ [scratchName k] <+: l → (rules.prepared k e).node? l = d.node? l := by
    intro l hl
    rw [← hsame.node]
    exact hbase.node?_createFolders_child (isName_scratchName k) hl
  have hunnamed : d.NoLinkNames (scratchName k) := fun l target hl =>
    h.unnamed l target (hsteady.link.mpr hl)
  have hpre := h.not_prefix hr
  refine hroot.find_child_outside hsteady h.source.isTree hout hunnamed
    (hroot.isTree.node?_of_find (hr.find_eq hroot).1) (hr.find_eq hroot).2 hm hpre
    (hout fun hinside => ?_)
  rcases List.prefix_concat_iff.mp hinside with heq | hinside
  . -- The scratch folder itself would be hidden.
    obtain ⟨ms, hne, hms, hhides⟩ := h.apart (ns ++ [m]) (by rw [heq, List.append_assoc])
    rcases List.prefix_concat_iff.mp hms with rfl | hms
    . rw [hshown] at hhides
      cases hhides
    . exact hr.not_hidden ⟨ms, hne, hms, hhides⟩
  . exact hpre hinside

/-- When nothing is still to come, the scratch folder holds exactly what is taken. -/
theorem Mirrored.node?_iff (h : Mirrored rules n root B before d fun _ => False) :
    d.node? (B ++ [scratchName n] ++ ns) = some node ↔ rules.Taken root before ns node :=
  ⟨h.sound, fun ht => h.complete ht (by simp)⟩

theorem Mirrored.begin (hg : Ground rules n root R B before) :
    Mirrored rules n root B before before (Awaits [[]]) :=
  (Mirrored.start hg).mono fun _ _ _ hne => ⟨[], .head _, List.nil_prefix, Ne.symm hne⟩

theorem createCopy_mirrored (hg : Ground rules n root R B (rules.prepared n d))
    (hok : rules.createCopy (scratchName n) root d = (d', .ok scratch)) :
    scratch = rules.scratchOf n ∧ Mirrored rules n root B (rules.prepared n d) d' fun _ => False := by
  refine ⟨createCopy_eq_ok (congrArg Prod.snd hok), ?_⟩
  have hbegin := Mirrored.begin hg
  unfold createCopy at hok
  dsimp only at hok
  split at hok
  . cases hok
  . next made hmade =>
    have hprepared : rules.prepared n d = made := by rw [prepared, scratchOf, hmade]
    rw [hprepared] at hg hbegin ⊢
    split at hok
    . next d'' htree =>
      rw [← (Prod.mk.inj hok).1]
      exact hbegin.copyTree hg _ (by simpa using .root) htree
    . cases hok

/-- What is too long to be looked up by its path from the root is left out of a copy that succeeds. -/
theorem node?_of_not_isProper (hg : Ground rules n root R B (rules.prepared n d))
    (hok : rules.createCopy (scratchName n) root d = (d', .ok scratch))
    (hp : ¬(root.inside ns).IsProper) : d'.node? (B ++ [scratchName n] ++ ns) = none := by
  refine Option.eq_none_iff_forall_ne_some.mpr fun node hnode => hp ?_
  have htaken := (createCopy_mirrored hg hok).2.node?_iff.mp hnode
  rcases htaken.cases_file with ⟨_, hv⟩ | ⟨_, _, _, _, _, _, hfind⟩
  . exact (find_eq_ok_iff_way.mp (hv.find_eq hg.source).1).1
  . exact (find_eq_ok_iff_way.mp hfind).1

/-- A pass over a tree in which every item is seen by its path for what it is ends by itself. If it
succeeds, then its scratch folder holds exactly what belongs into the copy of the tree as it stood when
that folder was made, nothing else on the disk is changed, and a later pass over the same tree, in
whatever order its folders are listed, makes the same copy. -/
theorem createCopy_exact (h : Stage rules n root R B (rules.prepared n d))
    (he : rules.Evident root R B (rules.prepared n d)) (hd : d.Distinct) :
    (∀ fuel, (rules.prepared n d).nodes.length < fuel →
      rules.copyTree (rules.scratchOf n) fuel [(root, rules.scratchOf n)] (rules.prepared n d)
        =
      rules.copyTree (rules.scratchOf n) ((rules.prepared n d).nodes.length + maxPath)
        [(root, rules.scratchOf n)] (rules.prepared n d))
    ∧ ∀ d' scratch, rules.createCopy (scratchName n) root d = (d', .ok scratch) →
      d'.find true scratch = .ok (B ++ [scratchName n], .folder)
      ∧ (∀ ns node, d'.node? (B ++ [scratchName n] ++ ns) = some node
        ↔ rules.Belongs R B (rules.prepared n d) ns node)
      ∧ (∀ l, ¬B ++ [scratchName n] <+: l → d'.node? l = (rules.prepared n d).node? l)
      ∧ ∀ k e e' other, d'.Same e → Stage rules k root R B (rules.prepared k e) →
        rules.Evident root R B (rules.prepared k e) →
        rules.createCopy (scratchName k) root e = (e', .ok other) →
        ∀ ns, e'.node? (B ++ [scratchName k] ++ ns) = d'.node? (B ++ [scratchName n] ++ ns) := by
  have hg := h.ground he
  refine ⟨?_, ?_⟩
  . intro fuel hfuel
    have hweight : weight R (rules.prepared n d) [[]] ≤ (rules.prepared n d).nodes.length + 1 := by
      refine Nat.le_trans List.countP_le_length ?_
      simp
    have hlong : 1 ≤ maxPath := by decide
    exact copyTree_fuel hg (by simpa using .root) (List.pairwise_singleton _ _)
      (createFolders_kept (fun l n h => h.put l n) hd) (.begin hg) (by omega) (by omega)
  . intro d' scratch hok
    obtain ⟨hscratch, hm⟩ := createCopy_mirrored hg hok
    refine ⟨?_, fun ns node => ?_, fun l hl => hm.within.outside hl, ?_⟩
    . rw [hscratch]
      exact hm.within.find_folder h.scratch
    . rw [hm.node?_iff, he.taken_iff h.source]
    . intro k e e' other hsame h' he' hok' ns
      have hg' := h'.ground he'
      have hm' := (createCopy_mirrored hg' hok').2
      have hroot := h.source.steady hm.within.toSteady hm.within.isTree
      have hbase := h.base.steady hm.within.toSteady hm.within.isTree
      apply Option.ext
      intro node
      calc
        _ ↔ rules.Taken root (rules.prepared k e) ns node := hm'.node?_iff
        _ ↔ rules.Taken root d' ns node :=
          Taken.congr (hg'.find_prepared hsame hroot (hsame.opens hbase))
        _ ↔ rules.Taken root (rules.prepared n d) ns node :=
          Taken.congr fun hr hname _ => hg.find_eq hm.within hr hname
        _ ↔ _ := hm.node?_iff.symm

/-- Where neither the root nor the folder of the scratch folders is given by way of links, the text of
a path shows whether it lies in that folder. -/
theorem startsWith_iff_of_direct (hR : ∀ m ∈ R, IsName m) (hB : ∀ m ∈ B, IsName m)
    (hns : ∀ m ∈ ns, IsName m) (hroot : root = .ofComponents (.root :: R.map .name))
    (hbase : rules.scratchBase = .ofComponents (.root :: B.map .name)) :
    (root.inside ns).startsWith rules.scratchBase = true ↔ B <+: R ++ ns := by
  rw [Path.startsWith, Path.components_inside _ hns, hroot, hbase,
    Path.components_ofComponents_root (Component.isStep_map_name hR),
    Path.components_ofComponents_root (Component.isStep_map_name hB), List.isPrefixOf_iff_prefix,
    List.cons_append, List.cons_prefix_cons, ← List.map_append,
    List.prefix_map_iff_of_injective fun a b => Component.name.inj]
  simp

/-- Scratch folders are made in the tree that is copied. -/
def nestedRules : CopyRules := ⟨.ofString "/w/s", .standard⟩

/-- A tree with a file in a folder, and a link to each. -/
def nestedDisk : Disk :=
  ⟨[([bytesOf "w"], .folder), ([bytesOf "w", bytesOf "s"], .folder),
    ([bytesOf "w", bytesOf "t"], .folder),
    ([bytesOf "w", bytesOf "t", bytesOf "a.ink"], .file (bytesOf "old") false),
    ([bytesOf "w", bytesOf "b.ink"], .link (.ofString "t/a.ink")),
    ([bytesOf "w", bytesOf "d"], .link (.ofString "t"))], []⟩

def nestedMade : Disk := nestedDisk.put [bytesOf "w", bytesOf "s", scratchName 0] .folder

theorem prepared_nestedDisk : nestedRules.prepared 0 nestedDisk = nestedMade := by
  with_unfolding_all rfl

theorem nestedDisk_isTree : nestedDisk.IsTree := by
  have hname : ∀ m ∈ [bytesOf "w", bytesOf "s", bytesOf "t", bytesOf "a.ink", bytesOf "b.ink",
      bytesOf "d"], IsName m := by
    simp only [List.mem_cons, List.not_mem_nil, or_false, forall_eq_or_imp, forall_eq]
    refine ⟨?_, ?_, ?_, ?_, ?_, ?_⟩ <;> constructor <;> decide
  refine isTree_of_mem rfl ?_
  intro l n hmem
  simp only [nestedDisk, List.mem_cons, Prod.mk.injEq, List.not_mem_nil, or_false] at hmem
  rcases hmem with ⟨hl, _⟩ | ⟨hl, _⟩ | ⟨hl, _⟩ | ⟨hl, _⟩ | ⟨hl, _⟩ | ⟨hl, _⟩
  . exact ⟨[], _, hl, hname _ (by simp), rfl⟩
  . exact ⟨[bytesOf "w"], _, hl, hname _ (by simp), by decide⟩
  . exact ⟨[bytesOf "w"], _, hl, hname _ (by simp), by decide⟩
  . exact ⟨[bytesOf "w", bytesOf "t"], _, hl, hname _ (by simp), by decide⟩
  . exact ⟨[bytesOf "w"], _, hl, hname _ (by simp), by decide⟩
  . exact ⟨[bytesOf "w"], _, hl, hname _ (by simp), by decide⟩

theorem nestedMade_builds : Builds nestedDisk nestedMade := by
  have hbuilds : Builds nestedDisk (nestedRules.prepared 0 nestedDisk) :=
    .createFolders nestedDisk_isTree _
  rwa [prepared_nestedDisk] at hbuilds

theorem nestedDisk_stage :
    nestedRules.Stage 0 (.ofString "/w") [bytesOf "w"] [bytesOf "w", bytesOf "s"]
      (nestedRules.prepared 0 nestedDisk) := by
  have htree := nestedMade_builds.isTree
  rw [prepared_nestedDisk]
  refine ⟨⟨htree, by decide, by decide, by decide +kernel⟩,
    ⟨htree, by decide, by decide, by decide +kernel⟩, by decide +kernel, by decide +kernel, ?_,
    by decide⟩
  intro l target hl
  rw [nestedMade_builds.link] at hl
  have hmem := mem_of_node? (ne_nil_of_not_folder hl (by simp)) hl
  simp only [nestedDisk, List.mem_cons, Prod.mk.injEq, reduceCtorEq, and_false, false_or,
    Node.link.injEq, List.not_mem_nil, or_false] at hmem
  rcases hmem with ⟨_, htarget⟩ | ⟨_, htarget⟩
  . rw [htarget]
    decide
  . rw [htarget]
    decide

def nestedItems : List (List Name) :=
  [[bytesOf "s"], [bytesOf "t"], [bytesOf "t", bytesOf "a.ink"], [bytesOf "b.ink"], [bytesOf "d"],
    [bytesOf "s", scratchName 0]]

theorem mem_nestedItems (h : nestedMade.node? ([bytesOf "w"] ++ ns ++ [m]) ≠ none) :
    ns ++ [m] ∈ nestedItems := by
  obtain ⟨node, hnode⟩ := Option.ne_none_iff_exists'.mp h
  have hplaces : nestedMade.nodes.map Prod.fst
      = [bytesOf "w"] :: nestedItems.map (bytesOf "w" :: ·) := by decide
  have hmem := List.mem_map_of_mem (f := Prod.fst) (mem_of_node? (by simp) hnode)
  rw [hplaces] at hmem
  simpa using hmem

theorem nestedDisk_evident :
    nestedRules.Evident (.ofString "/w") [bytesOf "w"] [bytesOf "w", bytesOf "s"]
      (nestedRules.prepared 0 nestedDisk) := by
  have hnames : ∀ ks ∈ nestedItems, ∀ k ∈ ks,
      (k ≠ [] ∧ k ≠ [dot] ∧ k ≠ [dot, dot] ∧ slash ∉ k) ∧ k.length ≤ maxName
        ∧ (stringOf? k).isSome = true := by decide +kernel
  have hpaths : ∀ ks ∈ nestedItems, ((Path.ofString "/w").inside ks).bytes ≠ []
      ∧ 0 ∉ ((Path.ofString "/w").inside ks).bytes
      ∧ ((Path.ofString "/w").inside ks).bytes.length ≤ maxPath
      ∧ nestedMade.find true ((Path.ofString "/w").inside ks) ≠ .error .tooManyLinks := by
    decide +kernel
  rw [prepared_nestedDisk]
  constructor
  . intro ns m _ hthere _
    have hmem := mem_nestedItems hthere
    obtain ⟨hne, hnul, hlen, _⟩ := hpaths _ hmem
    exact ⟨(hnames _ hmem m (by simp)).2.1, hne, hnul, hlen⟩
  . intro ns m content executable _ hfile
    exact (hpaths _ (mem_nestedItems hfile.node?_ne_none)).2.2.2
  . intro ns m _ hthere _
    rw [List.append_assoc]
    refine startsWith_iff_of_direct ?_ ?_ ?_ (by decide) (by decide)
    . simp only [List.mem_singleton, forall_eq]
      constructor <;> decide
    . simp only [List.mem_cons, List.not_mem_nil, or_false, forall_eq_or_imp, forall_eq]
      refine ⟨?_, ?_⟩ <;> constructor <;> decide
    . intro k hk
      obtain ⟨⟨hne, hhere, hup, hslash⟩, _⟩ := hnames _ (mem_nestedItems hthere) k hk
      exact ⟨hne, hhere, hup, hslash⟩
  . intro ns m _ hthere _
    exact (hnames _ (mem_nestedItems hthere) m (by simp)).2.2

/-- Of two links, the one to a file counts as a file, and the one to a folder counts for nothing. -/
theorem nestedDisk_copied :
    nestedDisk.Distinct
      ∧ ∃ d', nestedRules.createCopy (scratchName 0) (.ofString "/w") nestedDisk
          = (d', .ok (nestedRules.scratchOf 0))
        ∧ d'.node? [bytesOf "w", bytesOf "s", scratchName 0, bytesOf "b.ink"]
          = some (.file (bytesOf "old") false)
        ∧ d'.node? [bytesOf "w", bytesOf "s", scratchName 0, bytesOf "d"] = none := by
  have hdistinct : nestedDisk.Distinct := by
    unfold Distinct
    decide
  have hok : (nestedRules.createCopy (scratchName 0) (.ofString "/w") nestedDisk).2
      = .ok (nestedRules.scratchOf 0) := by decide +kernel
  obtain ⟨_, hexact, _⟩ :=
    (createCopy_exact nestedDisk_stage nestedDisk_evident hdistinct).2 _ _ (Prod.ext rfl hok)
  rw [prepared_nestedDisk] at hexact
  refine ⟨hdistinct, _, Prod.ext rfl hok, ?_, ?_⟩
  . refine (hexact [bytesOf "b.ink"] _).mpr ?_
    refine @Belongs.file _ _ _ _ [] _ _ _ .root ?_ (by decide +kernel) ?_
    . intro hscratch
      exact absurd hscratch.2 (by decide)
    . exact ⟨1, [bytesOf "w", bytesOf "t", bytesOf "a.ink"], walk_eq_ok_iff.mp (by decide +kernel)⟩
  . refine Option.eq_none_iff_forall_ne_some.mpr fun node hnode => ?_
    have hlink : nestedMade.node? [bytesOf "w", bytesOf "d"] = some (.link (.ofString "t")) := by decide
    have hwalk : nestedMade.walk true 1 [bytesOf "w"] [bytesOf "d"]
        = .ok (.found [bytesOf "w", bytesOf "t"] .folder) := by decide +kernel
    have hb := (hexact [bytesOf "d"] node).mp hnode
    generalize hns : [bytesOf "d"] = ns at hb
    cases hb with
    | folder hr =>
      cases hr with
      | root => cases hns
      | child _ _ hreal =>
        rw [List.append_assoc, ← hns] at hreal
        cases hlink.symm.trans hreal
    | file _ _ _ hfile =>
      rw [← List.nil_append [bytesOf "d"]] at hns
      obtain ⟨rfl, rfl⟩ := List.append_singleton_inj.mp hns
      obtain ⟨links, l, hway⟩ := hfile
      rcases hway.walk_eq_or 1 with h | h
      . cases hwalk.symm.trans h
      . cases hwalk.symm.trans h

end CopyRules

end InkServer
