import InkServer.Proofs.Copy.Effect
import InkServer.Proofs.Disk.Change

/-!
This module contains what the changes of single files do in a scratch folder that holds nothing but
files and folders: one copy is set or taken away, and all others stay as they are.
-/

namespace InkServer

open Text Disk

namespace Disk

variable {d d' d'' : Disk} {p scratch : Path} {loc l : Location} {ns ms : List Name} {m : Name}
  {content : Option Bytes} {bytes : Bytes} {executable : Bool}

/-- The path leads to a folder of the disk that holds nothing but files and folders. -/
structure Clean (d : Disk) (p : Path) (loc : Location) : Prop extends d.Roots p loc where
  regular : ∀ ns : List Name, d.node? (loc ++ ns) ≠ some .sink

/-- Below a folder the content of one file was set, or the file was taken away. Besides it only
folders came in. -/
structure Sets (d : Disk) (loc : Location) (ns : List Name) (content : Option Bytes) (d' : Disk) :
    Prop extends Within loc d d' where
  file : ∀ l, d'.fileAt? l = if l = loc ++ ns then content else d.fileAt? l
  regular : ∀ l, d'.node? l = some .sink → d.node? l = some .sink

theorem Clean.sets (h : d.Clean p loc) (hs : d.Sets l ns content d') : d'.Clean p loc :=
  ⟨h.toRoots.within hs.toWithin, fun ns hn => h.regular ns (hs.regular _ hn)⟩

theorem Clean.content_inside_iff (h : d.Clean p loc) (hns : ∀ m ∈ ns, IsName m) :
    d.content (p.inside ns) = .ok bytes ↔ p.Spans ns ∧ d.fileAt? (loc ++ ns) = some bytes := by
  unfold Disk.content
  constructor
  . intro hc
    split at hc
    . next l found executable hfind =>
      obtain ⟨hspans, _, hnode⟩ := (h.find_true_inside_iff hns).mp hfind
      rw [Except.ok.injEq] at hc
      rw [← hc]
      exact ⟨hspans, fileAt?_eq_some_iff.mpr ⟨executable, hnode⟩⟩
    . next hfind =>
      obtain ⟨_, _, hnode⟩ := (h.find_true_inside_iff hns).mp hfind
      exact absurd hnode (h.regular ns)
    . cases hc
    . cases hc
  . rintro ⟨hspans, hfile⟩
    obtain ⟨executable, hnode⟩ := fileAt?_eq_some_iff.mp hfile
    rw [(h.find_true_inside_iff hns).mpr ⟨hspans, rfl, hnode⟩]

theorem Sets.file_inside (hs : d.Sets loc ns content d') (ms : List Name) :
    d'.fileAt? (loc ++ ms) = if ms = ns then content else d.fileAt? (loc ++ ms) := by
  rw [hs.file]
  by_cases h : ms = ns
  . rw [if_pos (by rw [h]), if_pos h]
  . rw [if_neg (by simpa using h), if_neg h]

theorem Sets.refl (h : d.IsTree) (loc : Location) (ns : List Name) :
    d.Sets loc ns (d.fileAt? (loc ++ ns)) d := by
  refine ⟨.refl loc h, ?_, fun _ hl => hl⟩
  intro l
  split
  . next hl => rw [hl]
  . rfl

theorem Grows.regular {ks : List Name} (h : Grows loc ks d d') (l : Location)
    (hl : d'.node? l = some .sink) : d.node? l = some .sink := by
  rcases h l with hsame | ⟨_, hfolder, _⟩
  . rw [← hsame]
    exact hl
  . rw [hfolder] at hl
    cases hl

theorem Clean.grows {ks : List Name} (h : d.Clean p loc) (hw : Within loc d d')
    (hg : Grows loc ks d d') : d'.Clean p loc :=
  ⟨h.toRoots.within hw, fun ns hn => h.regular ns (hg.regular _ hn)⟩

theorem Grows.find {ks : List Name} {follow : Bool} {n : Node} (hg : Grows loc ks d d')
    (hd : d.IsTree) (hd' : d'.IsTree) (hk : Keeps d d') (h : d.find follow p = .ok (l, n)) :
    d'.find follow p = .ok (l, n) := by
  obtain ⟨n', hfind, _⟩ := hk.find h
  have hn := hd.node?_of_find h
  have hn' := hd'.node?_of_find hfind
  rcases hg l with hsame | ⟨hnone, _⟩
  . rw [hsame, hn, Option.some.injEq] at hn'
    rw [hfind, hn']
  . rw [hn] at hnone
    cases hnone

theorem Sets.of_grows {ks : List Name} (hw : Within loc d d') (hg : Grows loc ks d d')
    (hs : d'.Sets loc ns content d'') : d.Sets loc ns content d'' := by
  refine ⟨hw.trans hs.toWithin, ?_, fun l hl => hg.regular l (hs.regular l hl)⟩
  intro l
  rw [hs.file, hg.fileAt?]

theorem Sets.of_node? (hw : Within loc d d')
    (hnode : ∀ l, d'.node? l = if l = loc ++ ns then content.map (.file · executable) else d.node? l) :
    d.Sets loc ns content d' := by
  refine ⟨hw, ?_, ?_⟩
  . intro l
    by_cases hl : l = loc ++ ns
    . rw [fileAt?, hnode, if_pos hl, if_pos hl]
      cases content with
      | none => rfl
      | some bytes => rfl
    . rw [if_neg hl]
      exact fileAt?_congr (by rw [hnode, if_neg hl])
  . intro l hl
    rw [hnode] at hl
    split at hl
    . cases content with
      | none => cases hl
      | some bytes => cases hl
    . exact hl

theorem Sets.store (h : d.Clean p loc) (hne : ns ≠ []) (hns : ∀ m ∈ ns, IsName m)
    (hs : d.store (p.inside ns) bytes executable = .ok d') :
    d.Sets loc ns (some bytes) d' ∧ p.Spans ns := by
  obtain ⟨hw, hp, mode, hd⟩ := h.store_inside hne hns (h.regular ns) hs
  refine ⟨@of_node? _ _ _ _ _ mode hw ?_, hp⟩
  intro l
  rw [hd, node?_put (by simp [hne])]
  rfl

theorem Sets.unlink (h : d.Clean p loc) (hne : ns ≠ []) (hns : ∀ m ∈ ns, IsName m)
    (hu : d.unlink (p.inside ns) = .ok d') : d.Sets loc ns none d' := by
  obtain ⟨hw, _, hnode⟩ := h.unlink_inside hne hns hu
  exact @of_node? _ _ _ _ _ false hw hnode

end Disk

theorem SourceFilter.of_isSource_file {filter : SourceFilter} {d : Disk} {p : Path}
    (h : filter.isSource d p false = true) :
    ∃ l n, d.find true p = .ok (l, n) ∧ n ≠ .folder ∧ filter.hasSourceExtension p = true := by
  unfold isSource at h
  split at h
  . cases h
  . cases h
  . next found hfolder hfind =>
    refine ⟨found.1, found.2, hfind, ?_, h⟩
    intro heq
    exact hfolder found.1 (by rw [← heq])

namespace Workspace

variable {ws : Workspace} {d d' : Disk} {scratch file root : Path} {loc : Location}
  {ns : List Name} {text : String} {filter : SourceFilter}

theorem scratchPathFor?_iff {target : Path} (hroot : ws.root.IsPlace)
    (hscratch : ws.scratch = some scratch) :
    ws.scratchPathFor? file = some target
      ↔
    ∃ ns, ns ≠ [] ∧ (∀ n ∈ ns, IsName n) ∧ file.normalize = ws.root.inside ns
      ∧ target = scratch.inside ns := by
  unfold scratchPathFor?
  rw [hscratch]
  constructor
  . intro h
    split at h
    . next scratch' rel hs hrel =>
      obtain ⟨ns, hne, hns, hfile, hof⟩ := hroot.relativeTo?_iff.mp hrel
      refine ⟨ns, hne, hns, hfile, ?_⟩
      rw [← Option.some.inj h, ← Option.some.inj hs, hof, Path.join_ofComponents _ hne hns]
    . cases h
  . rintro ⟨ns, hne, hns, hfile, htarget⟩
    have hrel := hroot.relativeTo?_iff.mpr ⟨ns, hne, hns, hfile, rfl⟩
    rw [hrel, htarget]
    dsimp only
    rw [Path.join_ofComponents _ hne hns]

theorem makeParent_inside (h : d.Roots scratch loc) (hne : ns ≠ []) (hns : ∀ n ∈ ns, IsName n) :
    Within loc d (makeParent d (scratch.inside ns)).1
      ∧ Grows loc ns.dropLast d (makeParent d (scratch.inside ns)).1 := by
  have hns' : ∀ n ∈ ns.dropLast, IsName n := fun n hn => hns n ((List.dropLast_sublist ns).subset hn)
  have heffect := h.createFolders_inside hns'
  unfold makeParent
  rw [h.isNamed.parent?_inside hne hns]
  dsimp only
  split
  . next hd =>
    rw [hd] at heffect
    exact heffect
  . next hd =>
    rw [hd] at heffect
    exact heffect

theorem makeParent_of_node? (h : d.Roots scratch loc) (hne : ns ≠ []) (hns : ∀ n ∈ ns, IsName n)
    (hspans : scratch.Spans ns) (hnode : d.node? (loc ++ ns) ≠ none) :
    makeParent d (scratch.inside ns) = (d, .ok ()) := by
  have hlast := List.dropLast_concat_getLast hne
  have hns' : ∀ n ∈ ns.dropLast, IsName n := fun n hn =>
    hns n ((List.dropLast_sublist ns).subset hn)
  have hspans' : scratch.Spans ns.dropLast := by
    rw [← hlast] at hspans hns
    exact hspans.of_append h.isNamed hns
  have hfolder : d.node? (loc ++ ns.dropLast) = some .folder := by
    rw [← hlast, ← List.append_assoc] at hnode
    exact h.isTree.folder hnode
  have hfind := (h.find_true_inside_iff hns').mpr ⟨hspans', rfl, hfolder⟩
  rw [makeParent, h.isNamed.parent?_inside hne hns]
  dsimp only
  rw [createFolders_of_folder hfind]

/-- A text that is written to the copy of a file changes this copy only. -/
theorem applyEdit_sets (h : d.Clean scratch loc) (hscratch : ws.scratch = some scratch)
    (hne : ns ≠ []) (hns : ∀ n ∈ ns, IsName n)
    (htarget : ws.scratchPathFor? file = some (scratch.inside ns))
    (hok : (ws.applyEdit file text d).2 = .ok ()) :
    d.Sets loc ns (some (bytesOf text)) (ws.applyEdit file text d).1 ∧ scratch.Spans ns := by
  obtain ⟨hwithin, hgrows⟩ := makeParent_inside h.toRoots hne hns
  unfold applyEdit at hok ⊢
  rw [if_neg (by simp [hscratch]), htarget] at hok ⊢
  dsimp only at hok ⊢
  generalize makeParent d (scratch.inside ns) = made at hok hwithin hgrows
  rcases made with ⟨d', result⟩
  cases result with
  | error e => cases hok
  | ok u =>
    have hclean := h.grows hwithin hgrows
    dsimp only at hok ⊢
    split at hok
    . next d'' hstore =>
      obtain ⟨hsets, hspans⟩ := Sets.store hclean hne hns hstore
      exact ⟨.of_grows hwithin hgrows hsets, hspans⟩
    . cases hok

/-- The copy of a file that is gone is taken away. -/
theorem applyDeleted_sets (h : d.Clean scratch loc) (hne : ns ≠ []) (hns : ∀ n ∈ ns, IsName n)
    (htarget : ws.scratchPathFor? file = some (scratch.inside ns))
    (hspans : d.fileAt? (loc ++ ns) ≠ none → scratch.Spans ns) :
    d.Sets loc ns none (ws.applyDeleted file d) := by
  unfold applyDeleted
  rw [htarget]
  dsimp only
  split
  . next hu => exact .unlink h hne hns hu
  . next hu =>
    have hnone : d.fileAt? (loc ++ ns) = none := by
      refine Decidable.byContradiction fun hsome => ?_
      exact hsome (h.fileAt?_eq_none_of_unlink hne hns (hspans hsome) hu)
    rw [← hnone]
    exact .refl h.isTree loc ns

theorem applyCreated_of_copyFile {made copied : Disk} (h : d.Clean scratch loc) (hne : ns ≠ [])
    (hns : ∀ n ∈ ns, IsName n) (htarget : ws.scratchPathFor? file = some (scratch.inside ns))
    (hsource : filter.isSource d file false = true)
    (hparent : makeParent d (scratch.inside ns) = (made, .ok ()))
    (hcopy : made.copyFile file (scratch.inside ns) = .ok copied) :
    ∃ l content executable, filter.hasSourceExtension file = true
      ∧ d.find true file = .ok (l, .file content executable)
      ∧ d.Sets loc ns (some content) (ws.applyCreated filter file d) ∧ scratch.Spans ns := by
  obtain ⟨hwithin, hgrows⟩ := makeParent_inside h.toRoots hne hns
  have hkeeps := makeParent_keeps d (scratch.inside ns)
  obtain ⟨l, n, hfind, _, hext⟩ := SourceFilter.of_isSource_file hsource
  have hdisk : ws.applyCreated filter file d = copied := by
    simp [applyCreated, hsource, htarget, hparent, hcopy]
  rw [hparent] at hwithin hgrows hkeeps
  rw [hdisk]
  unfold copyFile at hcopy
  rw [hgrows.find h.isTree hwithin.isTree hkeeps hfind] at hcopy
  split at hcopy
  . cases hcopy
  . next content executable heq =>
    rw [Except.ok.injEq, Prod.mk.injEq] at heq
    rw [heq.2] at hfind
    obtain ⟨hsets, hspans⟩ := Sets.store (h.grows hwithin hgrows) hne hns hcopy
    exact ⟨l, content, executable, hext, hfind, .of_grows hwithin hgrows hsets, hspans⟩
  . cases hcopy

/-- A file that appeared is copied over its copy, or the copy stays as it is. -/
theorem applyCreated_sets (h : d.Clean scratch loc) (hne : ns ≠ []) (hns : ∀ n ∈ ns, IsName n)
    (htarget : ws.scratchPathFor? file = some (scratch.inside ns)) :
    d.Sets loc ns (d.fileAt? (loc ++ ns)) (ws.applyCreated filter file d)
      ∨ ∃ l content executable, filter.hasSourceExtension file = true
        ∧ d.find true file = .ok (l, .file content executable)
        ∧ d.Sets loc ns (some content) (ws.applyCreated filter file d) := by
  obtain ⟨hwithin, hgrows⟩ := makeParent_inside h.toRoots hne hns
  have hsame : ∀ {d' : Disk}, Within loc d d' → Grows loc ns.dropLast d d' →
      d.Sets loc ns (d.fileAt? (loc ++ ns)) d' := by
    intro d' hw hg
    rw [← hg.fileAt? (loc ++ ns)]
    exact .of_grows hw hg (.refl hw.isTree loc ns)
  cases hsource : filter.isSource d file false with
  | false =>
    have hdisk : ws.applyCreated filter file d = d := by simp [applyCreated, hsource]
    rw [hdisk]
    exact .inl (.refl h.isTree loc ns)
  | true =>
    rcases hparent : makeParent d (scratch.inside ns) with ⟨made, result⟩
    rw [hparent] at hwithin hgrows
    cases result with
    | error e =>
      have hdisk : ws.applyCreated filter file d = made := by
        simp [applyCreated, hsource, htarget, hparent]
      rw [hdisk]
      exact .inl (hsame hwithin hgrows)
    | ok u =>
      cases hcopy : made.copyFile file (scratch.inside ns) with
      | error e =>
        have hdisk : ws.applyCreated filter file d = made := by
          simp [applyCreated, hsource, htarget, hparent, hcopy]
        rw [hdisk]
        exact .inl (hsame hwithin hgrows)
      | ok copied =>
        obtain ⟨l, content, executable, hext, hfind, hsets, _⟩ :=
          applyCreated_of_copyFile h hne hns htarget hsource hparent hcopy
        exact .inr ⟨l, content, executable, hext, hfind, hsets⟩

/-- A regular file can be copied over its copy if there is one. -/
theorem exists_copyFile_of_file {content : Bytes} {l : Location} {executable : Bool}
    (h : d.Clean scratch loc) (hne : ns ≠ []) (hns : ∀ n ∈ ns, IsName n)
    (hfind : d.find true file = .ok (l, .file content executable)) (hspans : scratch.Spans ns)
    (hfile : d.fileAt? (loc ++ ns) ≠ none) :
    makeParent d (scratch.inside ns) = (d, .ok ())
      ∧ ∃ copied, d.copyFile file (scratch.inside ns) = .ok copied := by
  obtain ⟨before, hbefore⟩ := Option.ne_none_iff_exists'.mp hfile
  obtain ⟨mode, hnode⟩ := fileAt?_eq_some_iff.mp hbefore
  refine ⟨makeParent_of_node? h.toRoots hne hns hspans (by simp [hnode]), ?_⟩
  rw [copyFile, hfind]
  exact ⟨_, h.store_of_file hne hns hspans hnode executable⟩

/-- A regular source file is copied over its copy if there is one. -/
theorem applyCreated_of_file {content : Bytes} {l : Location} {executable : Bool}
    (h : d.Clean scratch loc) (hne : ns ≠ []) (hns : ∀ n ∈ ns, IsName n)
    (htarget : ws.scratchPathFor? file = some (scratch.inside ns))
    (hext : filter.hasSourceExtension file = true)
    (hfind : d.find true file = .ok (l, .file content executable)) (hspans : scratch.Spans ns)
    (hfile : d.fileAt? (loc ++ ns) ≠ none) :
    d.Sets loc ns (some content) (ws.applyCreated filter file d) := by
  have hsource : filter.isSource d file false = true := by
    rw [SourceFilter.isSource, hfind]
    exact hext
  obtain ⟨hparent, copied, hcopy⟩ := exists_copyFile_of_file h hne hns hfind hspans hfile
  obtain ⟨_, found, _, _, hfound, hsets, _⟩ :=
    applyCreated_of_copyFile h hne hns htarget hsource hparent hcopy
  rw [hfind, Except.ok.injEq, Prod.mk.injEq, Node.file.injEq] at hfound
  rw [hfound.2.1]
  exact hsets

end Workspace

end InkServer
