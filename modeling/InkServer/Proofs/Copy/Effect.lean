import InkServer.Proofs.Copy.Scratch
import InkServer.Proofs.Disk.Operations
import InkServer.Workspace.Edit

/-!
This module contains what passes and edits leave on the disk: nothing that stood there is lost, a
scratch folder that was filled is there, and a text that was written can be read.
-/

namespace InkServer

open Text Disk

variable {rules : CopyRules} {d d' : Disk} {scratch source target root p : Path}

theorem Disk.copyFile_keeps (h : d.copyFile source target = .ok d') : Keeps d d' := by
  unfold copyFile at h
  split at h
  . cases h
  . exact store_keeps h
  . cases h

namespace CopyRules

theorem copyItem_keeps (rules : CopyRules) (scratch source target : Path) (d : Disk) :
    Keeps d (rules.copyItem scratch source target d).1 := by
  unfold copyItem
  split
  . exact .refl d
  . split
    . exact .refl d
    . split
      . have hk := createFolders_keeps d target
        split
        . next h =>
          rw [h] at hk
          exact hk
        . next h =>
          rw [h] at hk
          exact hk
      . split
        . next h => exact copyFile_keeps h
        . exact .refl d

theorem copyItems_keeps (names : List Name) (pending : List Pending) (d : Disk) :
    Keeps d (rules.copyItems scratch source target names pending d).1 := by
  induction names generalizing pending d with
  | nil => exact .refl d
  | cons n names ih =>
    have hk := rules.copyItem_keeps scratch (source.child n) (target.child n) d
    unfold copyItems
    split
    . next h =>
      rw [h] at hk
      exact hk.trans (ih _ _)
    . next h =>
      rw [h] at hk
      exact hk

theorem copyTree_keeps (fuel : Nat) (pending : List Pending) (d : Disk) :
    Keeps d (rules.copyTree scratch fuel pending d).1 := by
  induction fuel generalizing pending d with
  | zero =>
    cases pending with
    | nil => exact .refl d
    | cons item pending => exact .refl d
  | succ fuel ih =>
    cases pending with
    | nil => exact .refl d
    | cons item pending =>
      rcases item with ⟨source, target⟩
      unfold copyTree
      split
      . exact .refl d
      . next names _ =>
        have hk := @copyItems_keeps rules scratch source target names pending d
        split
        . next h =>
          rw [h] at hk
          exact hk.trans (ih _ _)
        . next h =>
          rw [h] at hk
          exact hk

/-- A pass that succeeds made its scratch folder and then copied the tree below the root. -/
theorem createCopy_steps {name : Name} (h : (rules.createCopy name root d).2 = .ok scratch) :
    ∃ made, d.createFolders (rules.scratchBase.child name) = (made, .ok ())
      ∧ rules.copyTree (rules.scratchBase.child name) (made.nodes.length + maxPath)
          [(root, rules.scratchBase.child name)] made = ((rules.createCopy name root d).1, .ok ())
      ∧ scratch = rules.scratchBase.child name := by
  have hscratch := createCopy_eq_ok h
  unfold createCopy at h ⊢
  dsimp only at h ⊢
  split at h
  . cases h
  . next made hmade =>
    split at h
    . next copied hcopied => exact ⟨made, hmade, by rw [hcopied], hscratch⟩
    . cases h

theorem createCopy_isFolder {n : Nat}
    (h : (rules.createCopy (scratchName n) root d).2 = .ok scratch) :
    (rules.createCopy (scratchName n) root d).1.isFolder scratch = true := by
  obtain ⟨made, hmade, hcopied, hscratch⟩ := createCopy_steps h
  have hname : .name (scratchName n) ∈ (rules.scratchBase.child (scratchName n)).components := by
    rw [Path.components_child _ (isName_scratchName n)]
    simp
  obtain ⟨around, haround⟩ := Path.exists_parent? hname
  have hfolder := createFolders_isFolder haround (congrArg Prod.snd hmade)
  have hk := @copyTree_keeps rules (rules.scratchBase.child (scratchName n))
    (made.nodes.length + maxPath) [(root, rules.scratchBase.child (scratchName n))] made
  rw [hmade] at hfolder
  rw [hcopied] at hk
  rw [hscratch]
  exact hk.isFolder hfolder

theorem ne_nil_of_createCopy {name : Name} (h : (rules.createCopy name root d).2 = .ok scratch) :
    root.bytes ≠ [] := by
  obtain ⟨made, _, hcopied, _⟩ := createCopy_steps h
  intro hroot
  have hfuel : made.nodes.length + maxPath = made.nodes.length + 4094 + 1 := rfl
  have hlist : made.list root = .error .notFound := by
    simp [Disk.list, find, locate, hroot]
  rw [hfuel, copyTree, hlist] at hcopied
  simp at hcopied

end CopyRules

namespace Workspace

variable {ws : Workspace} {text : String}

theorem makeParent_keeps (d : Disk) (target : Path) : Keeps d (makeParent d target).1 := by
  unfold makeParent
  split
  . exact .refl d
  . next parent _ =>
    have hk := createFolders_keeps d parent
    split
    . next h =>
      rw [h] at hk
      exact hk
    . next h =>
      rw [h] at hk
      exact hk

theorem applyEdit_keeps (ws : Workspace) (p : Path) (text : String) (d : Disk) :
    Keeps d (ws.applyEdit p text d).1 := by
  unfold applyEdit
  split
  . exact .refl d
  . split
    . exact .refl d
    . next target _ =>
      have hk := makeParent_keeps d target
      split
      . next h =>
        rw [h] at hk
        exact hk
      . next h =>
        rw [h] at hk
        split
        . next hstore => exact hk.trans (store_keeps hstore)
        . exact hk

/-- A text that was written stands at its place, if this is no device. -/
theorem find_of_applyEdit (h : (ws.applyEdit p text d).2 = .ok ()) :
    ∃ target l n, ws.scratchPathFor? p = some target
      ∧ (ws.applyEdit p text d).1.find true target = .ok (l, n)
      ∧ (n ≠ .sink → ∃ executable, n = .file (bytesOf text) executable) := by
  unfold applyEdit at h ⊢
  split at h
  . cases h
  . next hsome =>
    rw [if_neg hsome]
    split at h
    . cases h
    . next target htarget =>
      split at h
      . cases h
      . split at h
        . next hstore =>
          rcases store_eq_ok hstore with ⟨l, mode, _, hfind, _⟩ | ⟨hd, l, hl⟩
          . exact ⟨target, l, _, htarget, hfind, fun _ => ⟨mode, rfl⟩⟩
          . rw [hd]
            exact ⟨target, l, _, htarget, hl, fun hno => absurd rfl hno⟩
        . cases h

end Workspace

end InkServer
