import InkServer.Proofs.Disk.Walk

/-!
This module contains what the operations on the disk leave behind: what is written can be read, a
folder that was created is there, and nothing else is lost.
-/

namespace InkServer

open Text

theorem toOption_eq_some_iff {ε α : Type} {e : Except ε α} {a : α} :
    e.toOption = some a ↔ e = .ok a := by
  cases e with
  | error _ => simp [Except.toOption]
  | ok _ => simp [Except.toOption]

structure Path.IsProper (p : Path) : Prop where
  ne_nil : p.bytes ≠ []
  nul_not_mem : 0 ∉ p.bytes
  length_le : p.bytes.length ≤ Disk.maxPath

namespace Disk

variable {d d' : Disk} {p : Path} {l : Location} {n : Node} {follow : Bool} {t : Target}
  {content : Bytes} {executable : Bool}

def startOf (d : Disk) (p : Path) : Location :=
  if p.isAbsolute then [] else d.current

theorem locate_eq_ok_iff :
    d.locate follow p = .ok t
      ↔
    p.IsProper ∧ Way d follow maxLinks (d.startOf p) (pieces slash p.bytes) t := by
  rw [← walk_eq_ok_iff]
  unfold locate
  constructor
  . intro h
    split at h
    . cases h
    . next hne =>
      split at h
      . cases h
      . next hnul =>
        split at h
        . cases h
        . next hlen => exact ⟨⟨hne, by simpa using hnul, by omega⟩, h⟩
  . rintro ⟨hp, h⟩
    have hlen := hp.length_le
    have hnul := hp.nul_not_mem
    rw [if_neg hp.ne_nil, if_neg (by simpa using hnul), if_neg (by omega)]
    exact h

theorem find_eq_ok_iff : d.find follow p = .ok (l, n) ↔ d.locate follow p = .ok (.found l n) := by
  unfold find
  split
  . next h =>
    rw [h]
    simp
  . next t hne ht =>
    rw [ht]
    simp only [reduceCtorEq, Except.ok.injEq, false_iff]
    exact hne l n
  . next h =>
    rw [h]
    simp

theorem find_eq_ok_iff_way :
    d.find follow p = .ok (l, n)
      ↔
    p.IsProper ∧ Way d follow maxLinks (d.startOf p) (pieces slash p.bytes) (.found l n) := by
  rw [find_eq_ok_iff, locate_eq_ok_iff]

theorem node?_of_find (h : d.find follow p = .ok (l, n)) : n = .folder ∨ d.node? l = some n :=
  (find_eq_ok_iff_way.mp h).2.node?_of_found

theorem isFolder_iff : d.isFolder p = true ↔ ∃ l, d.find true p = .ok (l, .folder) := by
  unfold isFolder
  constructor
  . intro h
    split at h
    . next l hl => exact ⟨l, hl⟩
    . cases h
  . rintro ⟨l, hl⟩
    rw [hl]

theorem Keeps.startOf (h : Keeps d d') (p : Path) : d'.startOf p = d.startOf p := by
  rw [Disk.startOf, h.current]
  rfl

theorem Keeps.find (h : Keeps d d') (hf : d.find follow p = .ok (l, n)) :
    ∃ n', d'.find follow p = .ok (l, n') ∧ n.Alike n' := by
  rw [find_eq_ok_iff_way] at hf
  obtain ⟨n', hway, ha⟩ := hf.2.keeps h
  refine ⟨n', ?_, ha⟩
  rw [find_eq_ok_iff_way, h.startOf]
  exact ⟨hf.1, hway⟩

theorem Keeps.find_folder (h : Keeps d d') (hf : d.find follow p = .ok (l, .folder)) :
    d'.find follow p = .ok (l, .folder) := by
  obtain ⟨n', hf', ha⟩ := h.find hf
  cases ha
  exact hf'

theorem Keeps.isFolder (h : Keeps d d') (hf : d.isFolder p = true) : d'.isFolder p = true := by
  rw [isFolder_iff] at hf ⊢
  obtain ⟨l, hl⟩ := hf
  exact ⟨l, h.find_folder hl⟩

/-- What comes of writing a file: it is put where the path leads, unless a device swallows it. -/
theorem store_eq_ok (h : d.store p content executable = .ok d') :
    (∃ l mode, d' = d.put l (.file content mode) ∧ d'.find true p = .ok (l, .file content mode)
        ∧ (d.locate true p = .ok (.missing l)
          ∨ ∃ before, d.locate true p = .ok (.found l (.file before mode))))
      ∨ (d' = d ∧ ∃ l, d.find true p = .ok (l, .sink)) := by
  unfold store at h
  split at h
  . next l before mode hl =>
    have hd := Except.ok.inj h
    have hnode : d.node? l = some (.file before mode) := by
      rcases node?_of_find (find_eq_ok_iff.mpr hl) with hn | hn
      . cases hn
      . exact hn
    have hk : Keeps d (d.put l (.file content mode)) := .put_file hnode
    obtain ⟨n, hn, ha⟩ := hk.find (find_eq_ok_iff.mpr hl)
    refine .inl ⟨l, mode, hd.symm, ?_, .inr ⟨before, hl⟩⟩
    rw [← hd]
    -- The way leads to the same place, where the new content stands by now.
    rcases node?_of_find hn with hfolder | hnew
    . rw [hfolder] at ha
      cases ha
    . rw [node?_put_self (ne_nil_of_file hnode), Option.some.injEq] at hnew
      rw [hn, ← hnew]
  . next l hl => exact .inr ⟨(Except.ok.inj h).symm, l, find_eq_ok_iff.mpr hl⟩
  . cases h
  . next l hl =>
    have hd := Except.ok.inj h
    refine .inl ⟨l, executable, hd.symm, ?_, .inl hl⟩
    obtain ⟨hp, hway⟩ := locate_eq_ok_iff.mp hl
    rw [← hd, find_eq_ok_iff_way]
    exact ⟨hp, hway.put_file⟩
  . cases h
  . cases h

theorem store_keeps (h : d.store p content executable = .ok d') : Keeps d d' := by
  rcases store_eq_ok h with ⟨l, mode, hd, _, hl⟩ | ⟨hd, _⟩
  . rw [hd]
    rcases hl with hl | ⟨before, hl⟩
    . exact .put_new ((locate_eq_ok_iff.mp hl).2.node?_eq_none (.inl rfl)) _
    . rcases node?_of_find (find_eq_ok_iff.mpr hl) with hn | hn
      . cases hn
      . exact .put_file hn
  . rw [hd]
    exact .refl d

theorem makeFolder_eq_ok (h : d.makeFolder p = .ok d') :
    ∃ l, d' = d.put l .folder ∧ d.node? l = none ∧ d'.find true p = .ok (l, .folder)
      ∧ (d.locate false p = .ok (.missing l) ∨ d.locate false p = .ok (.missingFolder l)) := by
  have hput : ∀ l t, d.locate false p = .ok t → t = .missing l ∨ t = .missingFolder l →
      d.node? l = none ∧ (d.put l .folder).find true p = .ok (l, .folder) := by
    intro l t hl ht
    obtain ⟨hp, hway⟩ := locate_eq_ok_iff.mp hl
    rw [find_eq_ok_iff_way]
    exact ⟨hway.node?_eq_none ht, hp, hway.put_folder ht⟩
  unfold makeFolder at h
  split at h
  . cases h
  . next l hl =>
    rw [← Except.ok.inj h]
    obtain ⟨hnone, hfind⟩ := hput l _ hl (.inl rfl)
    exact ⟨l, rfl, hnone, hfind, .inl hl⟩
  . next l hl =>
    rw [← Except.ok.inj h]
    obtain ⟨hnone, hfind⟩ := hput l _ hl (.inr rfl)
    exact ⟨l, rfl, hnone, hfind, .inr hl⟩
  . cases h

theorem makeFolder_keeps (h : d.makeFolder p = .ok d') : Keeps d d' := by
  obtain ⟨l, hd, hnone, _⟩ := makeFolder_eq_ok h
  rw [hd]
  exact .put_new hnone _

theorem makeFolder_isFolder (h : d.makeFolder p = .ok d') : d'.isFolder p = true := by
  obtain ⟨l, _, _, hfind, _⟩ := makeFolder_eq_ok h
  exact isFolder_iff.mpr ⟨l, hfind⟩

theorem orThere_isFolder {r : Except DiskError Disk} (h : (d.orThere p r).2 = .ok ())
    (hr : ∀ d', r = .ok d' → d'.isFolder p = true) : (d.orThere p r).1.isFolder p = true := by
  cases r with
  | ok d' => exact hr d' rfl
  | error e =>
    simp only [orThere] at h ⊢
    split at h
    . next hfolder => exact hfolder
    . cases h

theorem descend_keeps (d : Disk) (fuel : Nat) (q : Path) :
    Keeps d (createFolders.descend d fuel q).1 := by
  induction fuel generalizing q with
  | zero => exact .refl d
  | succ fuel ih =>
    unfold createFolders.descend
    split
    . exact .refl d
    . next around _ =>
      split
      . next d' hd => exact makeFolder_keeps hd
      . have hk := ih around
        split
        . next d' e hd =>
          rw [hd] at hk
          exact hk
        . next d' hd =>
          rw [hd] at hk
          cases hm : d'.makeFolder q with
          | ok d'' => exact hk.trans (makeFolder_keeps hm)
          | error e => exact hk
      . exact .refl d

theorem createFolders_keeps (d : Disk) (p : Path) : Keeps d (d.createFolders p).1 :=
  descend_keeps d _ p

/-- A folder that was created is there. -/
theorem createFolders_isFolder {around : Path} (hp : p.parent? = some around)
    (h : (d.createFolders p).2 = .ok ()) : (d.createFolders p).1.isFolder p = true := by
  unfold createFolders at h ⊢
  unfold createFolders.descend at h ⊢
  rw [hp] at h ⊢
  dsimp only at h ⊢
  split at h
  . next d' hd => exact makeFolder_isFolder hd
  . split at h
    . cases h
    . exact orThere_isFolder h fun d'' hd'' => makeFolder_isFolder hd''
  . exact orThere_isFolder h (by simp)

end Disk

end InkServer
