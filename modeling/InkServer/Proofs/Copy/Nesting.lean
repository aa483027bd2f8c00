import InkServer.Proofs.Copy.Mirror

/-!
This module contains scratch folders that a pass does not know by their paths. A pass that succeeds
has made a copy of every folder that it visits, also of the one that it fills.
-/

namespace InkServer

open Text Disk

namespace CopyRules

variable {rules : CopyRules} {n : Nat} {root scratch source target : Path} {R B : Location}
  {before d d' : Disk} {rel ns ms names : List Name} {m : Name} {pending pending' : List Pending}
  {item : Pending}

/-- What is left for later stays so while a folder is copied. -/
theorem mem_of_copyItems
    (h : rules.copyItems scratch source target names pending d = (d', .ok pending'))
    (hitem : item ∈ pending) : item ∈ pending' := by
  induction names generalizing pending d with
  | nil =>
    rw [copyItems, Prod.mk.injEq, Except.ok.injEq] at h
    rwa [← h.2]
  | cons k names ih =>
    unfold copyItems at h
    split at h
    . exact ih h (List.mem_append_right _ hitem)
    . cases h

/-- A folder that is visited is made in the copy and left for later. -/
theorem Visited.copyItem (hroot : before.Opens root R) (hk : Keeps before d)
    (hv : Visited rules root before (rel ++ [m])) {found : Option Pending}
    (h : rules.copyItem (rules.scratchOf n) (root.inside (rel ++ [m])) (target.child m) d
      = (d', .ok found)) :
    found = some (root.inside (rel ++ [m]), target.child m) ∧ d'.isFolder (target.child m) = true := by
  have hm : IsName m := hv.isName m (by simp)
  have hfind := hk.find_folder (hv.find_eq hroot).1
  have hreal : d.isLink (root.inside (rel ++ [m])) = false := by
    obtain ⟨l, hreal⟩ := hv.exists_real (by simp)
    rw [Disk.isLink, hk.find_folder hreal]
  have hfolder : d.isFolder (root.inside (rel ++ [m])) = true := isFolder_iff.mpr ⟨_, hfind⟩
  have hsource : rules.filter.isSource d (root.inside (rel ++ [m])) true = true := by
    rw [SourceFilter.isSource, hfind]
  obtain ⟨around, haround⟩ : ∃ around, (target.child m).parent? = some around := by
    refine @Path.exists_parent? _ m ?_
    rw [Path.components_child _ hm]
    simp
  unfold CopyRules.copyItem at h
  rw [isScratch_scratchOf, hv.shown (by simp), hsource, hreal, hfolder] at h
  simp only [Bool.not_true, Bool.or_self, Bool.false_eq_true, ↓reduceIte, Bool.false_and] at h
  split at h
  . next hmade =>
    rw [Prod.mk.injEq, Except.ok.injEq] at h
    have hthere := createFolders_isFolder haround (congrArg Prod.snd hmade)
    rw [hmade] at hthere
    rw [← h.1, ← h.2]
    exact ⟨rfl, hthere⟩
  . cases h

theorem Visited.copyItems (hroot : before.Opens root R) (hk : Keeps before d)
    (hv : Visited rules root before (rel ++ [m])) (hm : m ∈ names)
    (h : rules.copyItems (rules.scratchOf n) (root.inside rel) target names pending d
      = (d', .ok pending')) :
    (root.inside (rel ++ [m]), target.child m) ∈ pending' ∧ d'.isFolder (target.child m) = true := by
  induction names generalizing pending d with
  | nil => cases hm
  | cons k names ih =>
    have hkeeps := rules.copyItem_keeps (rules.scratchOf n) ((root.inside rel).child k)
      (target.child k) d
    unfold CopyRules.copyItems at h
    split at h
    . next d'' found hitem =>
      rw [hitem] at hkeeps
      rcases List.mem_cons.mp hm with rfl | hm
      . rw [← Path.inside_concat] at hitem
        obtain ⟨hfound, hfolder⟩ := hv.copyItem hroot hk hitem
        have hrest := @copyItems_keeps rules (rules.scratchOf n) (root.inside rel) target names
          (found.toList ++ pending) d''
        rw [h] at hrest
        refine ⟨mem_of_copyItems h ?_, hrest.isFolder hfolder⟩
        rw [hfound]
        exact .head _
      . exact ih (hk.trans hkeeps) hm h
    . cases h

/-- When no folder is left, every folder that is visited has been made in the copy. -/
theorem Visited.copyTree (hroot : before.Opens root R) (fuel : Nat) (hk : Keeps before d)
    (hitem : itemOf root (rules.scratchOf n) rel ∈ pending)
    (hmade : d.isFolder ((rules.scratchOf n).inside rel) = true)
    (hv : Visited rules root before (rel ++ ms))
    (h : rules.copyTree (rules.scratchOf n) fuel pending d = (d', .ok ())) :
    d'.isFolder ((rules.scratchOf n).inside (rel ++ ms)) = true := by
  induction fuel generalizing rel ms pending d with
  | zero =>
    cases pending with
    | nil => cases hitem
    | cons item pending =>
      rcases item with ⟨source, target⟩
      simp [CopyRules.copyTree] at h
  | succ fuel ih =>
    have hall := @copyTree_keeps rules (rules.scratchOf n) (fuel + 1) pending d
    rw [h] at hall
    cases pending with
    | nil => cases hitem
    | cons item pending =>
      rcases item with ⟨source, target⟩
      unfold CopyRules.copyTree at h
      split at h
      . cases h
      . next names hlist =>
        have hkeeps := @copyItems_keeps rules (rules.scratchOf n) source target names pending d
        split at h
        . next d'' pending' hitems =>
          rw [hitems] at hkeeps
          rcases List.mem_cons.mp hitem with heq | hmem
          . obtain ⟨rfl, rfl⟩ := Prod.mk.inj heq
            cases ms with
            | nil =>
              rw [List.append_nil]
              exact hall.isFolder hmade
            | cons m ms =>
              -- The next folder on the way is among those that were listed.
              rw [List.append_cons] at hv ⊢
              have hnext : Visited rules root before (rel ++ [m]) :=
                hv.of_prefix (List.prefix_append _ _)
              have hrel : Visited rules root before rel := hnext.of_prefix (List.prefix_append _ _)
              have hm : m ∈ names := by
                have hthere := hk.folder (hroot.isTree.node?_of_find (hnext.find_eq hroot).1)
                rw [Disk.list, hk.find_folder (hrel.find_eq hroot).1] at hlist
                rw [← Except.ok.inj hlist, mem_children_iff, List.append_assoc, hthere]
                simp
              obtain ⟨hpending, hfolder⟩ := hnext.copyItems hroot hk hm hitems
              rw [← Path.inside_concat] at hpending hfolder
              exact ih (hk.trans hkeeps) hpending hfolder hv h
          . exact ih (hk.trans hkeeps) (mem_of_copyItems hitems hmem) (hkeeps.isFolder hmade) hv h
        . cases h

/-- A pass that succeeds has copied every folder that it visits. -/
theorem isFolder_of_visited (hroot : (rules.prepared n d).Opens root R)
    (hv : Visited rules root (rules.prepared n d) ns)
    (hok : rules.createCopy (scratchName n) root d = (d', .ok scratch)) :
    d'.isFolder (scratch.inside ns) = true := by
  obtain ⟨made, hmade, hcopied, hscratch⟩ := createCopy_steps (congrArg Prod.snd hok)
  have hprepared : rules.prepared n d = made := by rw [prepared, scratchOf, hmade]
  rw [hok] at hcopied
  rw [hprepared] at hroot hv
  have hfolder : made.isFolder (rules.scratchOf n) = true := by
    obtain ⟨around, haround⟩ : ∃ around, (rules.scratchOf n).parent? = some around := by
      refine @Path.exists_parent? _ (scratchName n) ?_
      rw [components_scratchOf]
      simp
    have hthere := createFolders_isFolder haround (congrArg Prod.snd hmade)
    rwa [scratchOf, hmade] at hthere
  rw [hscratch, ← List.nil_append ns]
  exact Visited.copyTree hroot _ (.refl made) (.head _) hfolder hv hcopied

/-- If a pass comes to its own scratch folder by a path that does not begin with the folder of the
scratch folders, then it copies the scratch folder into itself, where it does not belong. -/
theorem createCopy_copies_itself (hroot : (rules.prepared n d).Opens root R)
    (hv : Visited rules root (rules.prepared n d) ns)
    (hmet : (rules.prepared n d).find false (root.inside (ns ++ [scratchName n]))
      = .ok (B ++ [scratchName n], .folder))
    (htext : (root.inside (ns ++ [scratchName n])).startsWith rules.scratchBase = false)
    (hok : rules.createCopy (scratchName n) root d = (d', .ok scratch)) :
    d'.isFolder (scratch.inside (ns ++ [scratchName n])) = true
      ∧ ∀ ks node, ns ++ [scratchName n] <+: ks → ¬rules.Belongs R B (rules.prepared n d) ks node := by
  have hm := isName_scratchName n
  have hshown : rules.hides (root.inside (ns ++ [scratchName n])) = false := by
    rw [hides, htext, Bool.false_and]
  refine ⟨isFolder_of_visited hroot (.child hv hm hshown hmet) hok, ?_⟩
  obtain ⟨hfind, hns⟩ := hv.find_eq hroot
  obtain ⟨_, _, hplace, _⟩ :=
    (hroot.find_child_iff (hroot.isTree.node?_of_find hfind) hns hm).mp hmet
  obtain ⟨rfl, _⟩ := List.append_singleton_inj.mp hplace
  intro ks node
  exact (isScratchItem_scratchName (R ++ ns) n).not_belongs

theorem copyItems_cons {found : Option Pending}
    (h : rules.copyItem scratch (source.child m) (target.child m) d = (d', .ok found)) :
    rules.copyItems scratch source target (m :: names) pending d
      =
    rules.copyItems scratch source target names (found.toList ++ pending) d' := by
  rw [copyItems, h]

theorem copyTree_succ {fuel : Nat} (hlist : d.list source = .ok names)
    (hitems : rules.copyItems scratch source target names pending d = (d', .ok pending')) :
    rules.copyTree scratch (fuel + 1) ((source, target) :: pending) d
      =
    rules.copyTree scratch fuel pending' d' := by
  simp only [copyTree, hlist, hitems]

theorem createCopy_of_steps {made : Disk}
    (hmade : d.createFolders (rules.scratchOf n) = (made, .ok ()))
    (hcopied : rules.copyTree (rules.scratchOf n) (made.nodes.length + maxPath)
      [(root, rules.scratchOf n)] made = (d', .ok ())) :
    rules.createCopy (scratchName n) root d = (d', .ok (rules.scratchOf n)) := by
  unfold scratchOf at hmade hcopied ⊢
  simp only [createCopy, hmade, hcopied]

theorem copyItem_of_file {l : Location} {content : Bytes} {executable : Bool}
    (hshown : rules.hides source = false)
    (hfind : d.find true source = .ok (l, .file content executable))
    (hext : rules.filter.hasSourceExtension source = true)
    (hstore : d.store target content executable = .ok d') :
    rules.copyItem (rules.scratchOf n) source target d = (d', .ok none) := by
  simp [copyItem, isScratch_scratchOf, hshown, SourceFilter.isSource, hfind, hext, isFolder, copyFile,
    hstore]

theorem copyItem_of_folder {l : Location} (hshown : rules.hides source = false)
    (hfind : ∀ follow, d.find follow source = .ok (l, .folder))
    (hmade : d.createFolders target = (d', .ok ())) :
    rules.copyItem (rules.scratchOf n) source target d = (d', .ok (some (source, target))) := by
  simp [copyItem, isScratch_scratchOf, hshown, SourceFilter.isSource, hfind, isFolder, isLink, hmade]

theorem copyItem_of_not_isProper (hp : ¬source.IsProper) :
    rules.copyItem scratch source target d = (d, .ok none) := by
  obtain ⟨e, he⟩ := exists_find_error hp
  simp [copyItem, SourceFilter.isSource, he]

def loopName : Name := List.replicate 250 108

def loopRules : CopyRules := ⟨.ofString "/s", .standard⟩

def loopDisk : Disk :=
  ⟨[([loopName], .link (.ofString "/")), ([bytesOf "s"], .folder),
    ([bytesOf "s", bytesOf "a.ink"], .file (bytesOf "old") false)], []⟩

/-- A path of 4018 bytes to the folder of the scratch folders. -/
@[irreducible]
def loopRoot : Path :=
  .ofComponents (.root :: (List.replicate 16 loopName ++ [bytesOf "s"]).map .name)

/-- The disk while the scratch folder is filled: with the source, with a folder of its own name, and
with the source in that folder. -/
def loopMade : Disk := loopDisk.put [bytesOf "s", scratchName 0] .folder

def loopCopied : Disk :=
  loopMade.put [bytesOf "s", scratchName 0, bytesOf "a.ink"] (.file (bytesOf "old") false)

def loopNested : Disk := loopCopied.put [bytesOf "s", scratchName 0, scratchName 0] .folder

def loopDone : Disk :=
  loopNested.put [bytesOf "s", scratchName 0, scratchName 0, bytesOf "a.ink"]
    (.file (bytesOf "old") false)

theorem holds_loopName : Holds loopName := by
  refine ⟨⟨by decide, by decide, by decide, ?_⟩, ?_⟩
  . intro hmem
    exact absurd (List.eq_of_mem_replicate hmem) (by decide)
  . rw [loopName, List.length_replicate]
    decide

theorem loopDisk_isTree : loopDisk.IsTree := by
  have hname : ∀ m ∈ [loopName, bytesOf "s", bytesOf "a.ink"], IsName m := by
    simp only [List.mem_cons, List.not_mem_nil, or_false, forall_eq_or_imp, forall_eq]
    refine ⟨holds_loopName.toIsName, ?_, ?_⟩ <;> constructor <;> decide
  refine isTree_of_mem rfl ?_
  intro l n hmem
  simp only [loopDisk, List.mem_cons, Prod.mk.injEq, List.not_mem_nil, or_false] at hmem
  rcases hmem with ⟨hl, _⟩ | ⟨hl, _⟩ | ⟨hl, _⟩
  . exact ⟨[], _, hl, hname _ (by simp), rfl⟩
  . exact ⟨[], _, hl, hname _ (by simp), rfl⟩
  . exact ⟨[bytesOf "s"], _, hl, hname _ (by simp), by decide⟩

theorem loopDisk_way (links k : Nat) :
    Way loopDisk true (links + k) [] (List.replicate k loopName ++ [bytesOf "s"])
      (.found [bytesOf "s"] .folder) := by
  induction k with
  | zero =>
    refine .enter ?_ (by decide) .done
    constructor <;> decide
  | succ k ih =>
    rw [List.replicate_succ, List.cons_append, ← Nat.add_assoc]
    have hlink : loopDisk.node? ([] ++ [loopName]) = some (.link (.ofString "/")) := by
      rw [List.nil_append, loopDisk, node?, if_neg (by decide)]
      simp
    refine .follow holds_loopName.fits hlink (.inr rfl) (by decide) ?_
    exact .skip (.inl rfl) (.skip (.inl rfl) ih)

theorem isName_of_mem_loopRoot (h : m ∈ List.replicate 16 loopName ++ [bytesOf "s"]) : IsName m := by
  rcases List.mem_append.mp h with h | h
  . rw [List.eq_of_mem_replicate h]
    exact holds_loopName.toIsName
  . rw [List.mem_singleton.mp h]
    constructor <;> decide

theorem loopRoot_bytes :
    loopRoot.isAbsolute = true ∧ 0 ∉ loopRoot.bytes ∧ loopRoot.bytes.length = 4018 := by
  decide +kernel

theorem loopRoot_isProper : loopRoot.IsProper := by
  obtain ⟨_, hnul, hlength⟩ := loopRoot_bytes
  refine ⟨?_, hnul, ?_⟩
  . apply List.ne_nil_of_length_pos
    rw [hlength]
    decide
  . rw [hlength]
    decide

theorem loopDisk_opens : loopDisk.Opens loopRoot [bytesOf "s"] := by
  refine ⟨loopDisk_isTree, loopRoot_bytes.1, ?_, ?_⟩
  . rw [loopRoot]
    exact Path.normalize_ofComponents_root fun m => isName_of_mem_loopRoot
  . rw [find_eq_ok_iff_way]
    refine ⟨loopRoot_isProper, ?_⟩
    rw [loopRoot, Path.pieces_ofComponents_root (by simp) fun m => isName_of_mem_loopRoot]
    exact .skip (.inl rfl) (loopDisk_way 24 16)

/-- There is room for 77 more bytes behind the root. -/
theorem isProper_loopRoot_inside (hne : ns ≠ []) (hns : ∀ m ∈ ns, IsName m) :
    (loopRoot.inside ns).IsProper ↔ 0 ∉ joined slash ns ∧ (joined slash ns).length ≤ 76 := by
  have hnamed : loopRoot.IsNamed := by
    rw [loopRoot]
    exact Path.isNamed_ofComponents (by simp) fun m => isName_of_mem_loopRoot
  have hbytes := hnamed.bytes_inside hne hns
  obtain ⟨_, hnul, hlength⟩ := loopRoot_bytes
  have hslash : (0 : UInt8) ≠ slash := by decide
  have hmax : maxPath = 4095 := rfl
  constructor
  . intro h
    have hle := h.length_le
    have hmem := h.nul_not_mem
    rw [hbytes, List.length_append, List.length_cons, hlength] at hle
    rw [hbytes, List.mem_append, List.mem_cons, not_or, not_or] at hmem
    exact ⟨hmem.2.2, by omega⟩
  . rintro ⟨hmem, hle⟩
    refine ⟨?_, ?_, ?_⟩
    . rw [hbytes]
      simp
    . rw [hbytes, List.mem_append, List.mem_cons, not_or, not_or]
      exact ⟨hnul, hslash, hmem⟩
    . rw [hbytes, List.length_append, List.length_cons, hlength]
      omega

/-- The path to the root does not begin like the folder of the scratch folders. -/
theorem startsWith_loopRoot (hns : ∀ m ∈ ns, IsName m) :
    (loopRoot.inside ns).startsWith loopRules.scratchBase = false := by
  have hbase : loopRules.scratchBase.components = [.root, .name (bytesOf "s")] := by decide
  have hne : bytesOf "s" ≠ loopName := by decide
  rw [Path.startsWith, Path.components_inside _ hns, hbase, loopRoot,
    Path.components_ofComponents_root (Component.isStep_map_name fun m => isName_of_mem_loopRoot),
    List.replicate_succ]
  simp [List.isPrefixOf, hne]

theorem loopMade_opens : loopMade.Opens loopRoot [bytesOf "s"] :=
  @Opens.put_new _ _ [bytesOf "s"] _ _ _ loopDisk_opens (isName_scratchName 0) (by decide)
    (by decide) (by simp)

theorem loopCopied_opens : loopCopied.Opens loopRoot [bytesOf "s"] := by
  refine @Opens.put_new _ _ [bytesOf "s", scratchName 0] _ _ _ loopMade_opens ?_ (by decide)
    (by decide) (by simp)
  constructor <;> decide

theorem loopNested_opens : loopNested.Opens loopRoot [bytesOf "s"] :=
  @Opens.put_new _ _ [bytesOf "s", scratchName 0] _ _ _ loopCopied_opens (isName_scratchName 0)
    (by decide) (by decide) (by simp)

theorem holds_of_mem_loopMade (h : m ∈ [scratchName 0, bytesOf "a.ink"]) : Holds m := by
  simp only [List.mem_cons, List.not_mem_nil, or_false] at h
  rcases h with rfl | rfl
  . exact ⟨isName_scratchName 0, by decide⟩
  . refine ⟨?_, by decide⟩
    constructor <;> decide

/-- What the pass finds in the folders that it reaches by the long path. -/
theorem find_loopRoot (h : d.Opens loopRoot [bytesOf "s"]) {node : Node} (follow : Bool)
    (hnames : ∀ k ∈ ns ++ [m], k ∈ [scratchName 0, bytesOf "a.ink"])
    (hfolder : d.node? ([bytesOf "s"] ++ ns) = some .folder)
    (hnode : d.node? ([bytesOf "s"] ++ ns ++ [m]) = some node) (hlink : ∀ target, node ≠ .link target)
    (hroom : 0 ∉ joined slash (ns ++ [m]) ∧ (joined slash (ns ++ [m])).length ≤ 76) :
    d.find follow (loopRoot.inside (ns ++ [m])) = .ok ([bytesOf "s"] ++ ns ++ [m], node) := by
  have hholds : ∀ k ∈ ns ++ [m], Holds k := fun k hk => holds_of_mem_loopMade (hnames k hk)
  refine h.find_child_of_node? hfolder (fun k hk => hholds k (by simp [hk])) (hholds m (by simp)) ?_
    hnode fun _ => hlink
  rwa [isProper_loopRoot_inside (by simp) fun k hk => (hholds k hk).toIsName]

theorem hides_loopRoot (hnames : ∀ k ∈ ns, k ∈ [scratchName 0, bytesOf "a.ink"]) :
    loopRules.hides (loopRoot.inside ns) = false := by
  rw [hides, startsWith_loopRoot fun k hk => (holds_of_mem_loopMade (hnames k hk)).toIsName,
    Bool.false_and]

theorem hasSourceExtension_loopRoot (ns : List Name) :
    loopRules.filter.hasSourceExtension (loopRoot.inside (ns ++ [bytesOf "a.ink"])) = true := by
  rw [Path.inside_concat, loopRules.filter.hasSourceExtension_child _
    (holds_of_mem_loopMade (by simp)).toIsName]
  decide +kernel

/-- What the pass makes on the disk, in turn. -/
theorem loopDisk_filled :
    loopDisk.createFolders (loopRules.scratchOf 0) = (loopMade, .ok ())
      ∧ loopMade.store ((loopRules.scratchOf 0).child (bytesOf "a.ink")) (bytesOf "old") false
        = .ok loopCopied
      ∧ loopCopied.createFolders ((loopRules.scratchOf 0).child (scratchName 0)) = (loopNested, .ok ())
      ∧ loopNested.store (((loopRules.scratchOf 0).child (scratchName 0)).child (bytesOf "a.ink"))
        (bytesOf "old") false = .ok loopDone := by
  rw [Prod.ext_iff, Prod.ext_iff, ← toOption_eq_some_iff, ← toOption_eq_some_iff]
  decide +kernel

/-- First the source is copied, -/
theorem copyItem_loopMade :
    loopRules.copyItem (loopRules.scratchOf 0) (loopRoot.child (bytesOf "a.ink"))
      ((loopRules.scratchOf 0).child (bytesOf "a.ink")) loopMade
      =
    (loopCopied, .ok none) :=
  copyItem_of_file (@hides_loopRoot [bytesOf "a.ink"] (by simp))
    (@find_loopRoot _ [] (bytesOf "a.ink") loopMade_opens (.file (bytesOf "old") false) true (by simp)
      (by decide) (by decide) (by simp) (by decide))
    (hasSourceExtension_loopRoot []) loopDisk_filled.2.1

/-- then the scratch folder is met, -/
theorem copyItem_loopCopied :
    loopRules.copyItem (loopRules.scratchOf 0) (loopRoot.child (scratchName 0))
      ((loopRules.scratchOf 0).child (scratchName 0)) loopCopied
      =
    (loopNested, .ok (some (loopRoot.child (scratchName 0),
      (loopRules.scratchOf 0).child (scratchName 0)))) :=
  copyItem_of_folder (@hides_loopRoot [scratchName 0] (by simp))
    (fun follow => @find_loopRoot _ [] (scratchName 0) loopCopied_opens .folder follow (by simp)
      (by decide) (by decide) (by simp) (by decide))
    loopDisk_filled.2.2.1

/-- and the copy in there is copied. -/
theorem copyItem_loopNested :
    loopRules.copyItem (loopRules.scratchOf 0) ((loopRoot.child (scratchName 0)).child (bytesOf "a.ink"))
      (((loopRules.scratchOf 0).child (scratchName 0)).child (bytesOf "a.ink")) loopNested
      =
    (loopDone, .ok none) :=
  copyItem_of_file (@hides_loopRoot [scratchName 0, bytesOf "a.ink"] (by simp))
    (@find_loopRoot _ [scratchName 0] (bytesOf "a.ink") loopNested_opens
      (.file (bytesOf "old") false) true (by simp) (by decide) (by decide) (by simp)
      (by decide))
    (hasSourceExtension_loopRoot [scratchName 0]) loopDisk_filled.2.2.2

theorem createCopy_loopDisk :
    loopRules.createCopy (scratchName 0) loopRoot loopDisk = (loopDone, .ok (loopRules.scratchOf 0)) := by
  have houter : loopMade.list loopRoot = .ok [bytesOf "a.ink", scratchName 0] := by
    rw [Disk.list, loopMade_opens.leads]
    decide
  have hinner : loopNested.list (loopRoot.child (scratchName 0))
      = .ok [bytesOf "a.ink", scratchName 0] := by
    have hfind := @find_loopRoot _ [] (scratchName 0) loopNested_opens .folder true (by simp)
      (by decide) (by decide) (by simp) (by decide)
    rw [Path.inside_concat, Path.inside_nil] at hfind
    rw [Disk.list, hfind]
    decide
  have hlong : ¬((loopRoot.child (scratchName 0)).child (scratchName 0)).IsProper := by
    have hroom := @isProper_loopRoot_inside [scratchName 0, scratchName 0] (by simp)
      (by simp [isName_scratchName])
    rw [Path.inside_cons, Path.inside_cons, Path.inside_nil] at hroom
    rw [hroom]
    decide
  have hitems : loopRules.copyItems (loopRules.scratchOf 0) loopRoot (loopRules.scratchOf 0)
      [bytesOf "a.ink", scratchName 0] [] loopMade
      = (loopNested, .ok [(loopRoot.child (scratchName 0),
        (loopRules.scratchOf 0).child (scratchName 0))]) := by
    rw [copyItems_cons copyItem_loopMade, copyItems_cons copyItem_loopCopied, copyItems]
    rfl
  have hnested : loopRules.copyItems (loopRules.scratchOf 0) (loopRoot.child (scratchName 0))
      ((loopRules.scratchOf 0).child (scratchName 0)) [bytesOf "a.ink", scratchName 0] [] loopNested
      = (loopDone, .ok []) := by
    rw [copyItems_cons copyItem_loopNested, copyItems_cons (copyItem_of_not_isProper hlong), copyItems]
    rfl
  obtain ⟨fuel, hfuel⟩ : ∃ fuel, loopMade.nodes.length + maxPath = fuel + 1 + 1 :=
    ⟨4097, by decide⟩
  refine createCopy_of_steps loopDisk_filled.1 ?_
  rw [hfuel, copyTree_succ houter hitems, copyTree_succ hinner hnested, copyTree]

/-- The pass over this disk succeeds and leaves a copy of its scratch folder, with all that it holds,
in the scratch folder. -/
theorem loopDisk_copies_itself :
    loopRules.createCopy (scratchName 0) loopRoot loopDisk = (loopDone, .ok (loopRules.scratchOf 0))
      ∧ loopDone.node? [bytesOf "s", scratchName 0, scratchName 0, bytesOf "a.ink"]
        = some (.file (bytesOf "old") false)
      ∧ ∀ ks node, [scratchName 0] <+: ks →
        ¬loopRules.Belongs [bytesOf "s"] [bytesOf "s"] (loopRules.prepared 0 loopDisk) ks node := by
  have hprepared : loopRules.prepared 0 loopDisk = loopMade := congrArg Prod.fst loopDisk_filled.1
  have hopens := loopMade_opens
  have hmet := @find_loopRoot _ [] (scratchName 0) hopens .folder false (by simp) (by decide)
    (by decide) (by simp) (by decide)
  rw [← hprepared] at hopens hmet
  refine ⟨createCopy_loopDisk, by decide, ?_⟩
  exact (createCopy_copies_itself hopens .root hmet
    (startsWith_loopRoot (by simp [isName_scratchName])) createCopy_loopDisk).2

end CopyRules

end InkServer
