import InkServer.Proofs.Disk.Tree

/-!
This module contains what the operations change inside a folder below which there are no links: one
file, and folders on the way to it.
-/

namespace InkServer

open Text

namespace Disk

variable {d d' d'' : Disk} {loc l : Location} {n : Node} {m : Name} {ns ms : List Name}
  {follow : Bool} {links : Nat} {ps : List Bytes} {p : Path} {content : Bytes} {executable : Bool}

/-- The folders of the first disk stay, and both have the same links. -/
structure Steady (d d' : Disk) : Prop where
  current : d'.current = d.current
  folder : ∀ {l : Location}, d.node? l = some .folder → d'.node? l = some .folder
  link : ∀ {l : Location} {target : Path},
    d'.node? l = some (.link target) ↔ d.node? l = some (.link target)

theorem Steady.refl (d : Disk) : Steady d d :=
  ⟨rfl, fun h => h, Iff.rfl⟩

theorem Steady.trans (h : Steady d d') (h' : Steady d' d'') : Steady d d'' :=
  ⟨h'.current.trans h.current, fun hl => h'.folder (h.folder hl), h'.link.trans h.link⟩

theorem Way.steady (hs : Steady d d') (h : Way d follow links loc ps (.found l .folder)) :
    Way d' follow links loc ps (.found l .folder) := by
  generalize ht : Target.found l .folder = t at h ⊢
  induction h with
  | done => exact .done
  | skip hp _ ih => exact .skip hp (ih ht)
  | up _ ih => exact .up (ih ht)
  | missing => cases ht
  | missingFolder => cases ht
  | enter hp hn _ ih => exact .enter hp (hs.folder hn) (ih ht)
  | stop => cases ht
  | follow hp hn hf htarget _ ih => exact .follow hp (hs.link.mpr hn) hf htarget (ih ht)
  | leaf _ _ hfolder =>
    injection ht with _ hn
    exact absurd hn.symm hfolder

theorem Steady.find_folder (h : Steady d d') (hf : d.find follow p = .ok (l, .folder)) :
    d'.find follow p = .ok (l, .folder) := by
  rw [find_eq_ok_iff_way] at hf ⊢
  refine ⟨hf.1, ?_⟩
  rw [Disk.startOf, h.current]
  exact hf.2.steady h

theorem Steady.put_new (h : d.node? l = none) (hn : ∀ target, n ≠ .link target) :
    Steady d (d.put l n) := by
  refine ⟨rfl, fun hk => node?_put_of_some h hk, ?_⟩
  intro k target
  rw [node?_put (ne_nil_of_node? h)]
  split
  . next hk =>
    rw [hk, h]
    simpa using hn target
  . rfl

theorem Steady.put_file {content' : Bytes} {executable' : Bool}
    (h : d.node? l = some (.file content executable)) :
    Steady d (d.put l (.file content' executable')) := by
  refine ⟨rfl, fun hk => (Keeps.put_file h).folder hk, ?_⟩
  intro k target
  rw [node?_put (ne_nil_of_file h)]
  split
  . next hk =>
    rw [hk, h]
    simp
  . rfl

theorem Steady.erase (hd : d.IsTree) (hn : d.node? l = some n) (hfolder : n ≠ .folder)
    (hlink : ∀ target, n ≠ .link target) : Steady d (d.erase l) := by
  have hnode := hd.node?_erase hn hfolder
  refine ⟨rfl, ?_, ?_⟩
  . intro k hk
    rw [hnode, if_neg, hk]
    intro heq
    rw [heq, hn, Option.some.injEq] at hk
    exact hfolder hk
  . intro k target
    rw [hnode]
    split
    . next hk =>
      rw [hk, hn, Option.some.injEq]
      simpa using hlink target
    . rfl

theorem Roots.steady (h : d.Roots p loc) (hs : Steady d d') (hd : d'.IsTree) : d'.Roots p loc := by
  refine ⟨hd, h.isNamed, hs.find_folder h.leads, ?_⟩
  intro ns target hn
  exact h.plain ns target (hs.link.mp hn)

/-- The disk was changed below a folder only. -/
structure Within (loc : Location) (d d' : Disk) : Prop extends Steady d d' where
  isTree : d'.IsTree
  outside : ∀ {l : Location}, ¬loc <+: l → d'.node? l = d.node? l

theorem Within.refl (loc : Location) (h : d.IsTree) : Within loc d d :=
  ⟨.refl d, h, fun _ => rfl⟩

theorem Within.trans (h : Within loc d d') (h' : Within loc d' d'') : Within loc d d'' :=
  ⟨h.toSteady.trans h'.toSteady, h'.isTree, fun hl => (h'.outside hl).trans (h.outside hl)⟩

theorem Roots.within (h : d.Roots p l) (hw : Within loc d d') : d'.Roots p l :=
  h.steady hw.toSteady hw.isTree

def fileAt? (d : Disk) (loc : Location) : Option Bytes :=
  match d.node? loc with
  | some (.file content _) => some content
  | _ => none

theorem fileAt?_eq_some_iff :
    d.fileAt? l = some content ↔ ∃ executable, d.node? l = some (.file content executable) := by
  unfold fileAt?
  split
  . next c x h => simp [h]
  . next hne =>
    simp only [reduceCtorEq, false_iff, not_exists]
    exact fun x hx => hne _ _ hx

theorem fileAt?_congr {k : Location} (h : d'.node? k = d.node? l) : d'.fileAt? k = d.fileAt? l := by
  rw [fileAt?, h]
  rfl

/-- Nothing but folders came in. -/
structure Builds (d d' : Disk) : Prop extends Steady d d' where
  isTree : d'.IsTree
  node : ∀ l, d'.node? l = d.node? l ∨ (d.node? l = none ∧ d'.node? l = some .folder)

theorem Builds.refl (h : d.IsTree) : Builds d d :=
  ⟨.refl d, h, fun _ => .inl rfl⟩

theorem Builds.trans (h : Builds d d') (h' : Builds d' d'') : Builds d d'' := by
  refine ⟨h.toSteady.trans h'.toSteady, h'.isTree, ?_⟩
  intro l
  rcases h.node l with hl | ⟨hbefore, hafter⟩
  . rw [← hl]
    exact h'.node l
  . exact .inr ⟨hbefore, h'.folder hafter⟩

theorem Builds.file (h : Builds d d') (l : Location) : d'.fileAt? l = d.fileAt? l := by
  rcases h.node l with hl | ⟨hbefore, hafter⟩
  . exact fileAt?_congr hl
  . rw [fileAt?, fileAt?, hbefore, hafter]

theorem Builds.makeFolder (hd : d.IsTree) (h : d.makeFolder p = .ok d') : Builds d d' := by
  have htree := hd.makeFolder h
  obtain ⟨l, hput, hnone, _⟩ := makeFolder_eq_ok h
  rw [hput] at htree ⊢
  refine ⟨.put_new hnone (by simp), htree, ?_⟩
  intro k
  rw [node?_put (ne_nil_of_node? hnone)]
  split
  . next hk => exact .inr ⟨by rw [hk, hnone], rfl⟩
  . exact .inl rfl

theorem Builds.descend (hd : d.IsTree) (fuel : Nat) (q : Path) :
    Builds d (createFolders.descend d fuel q).1 := by
  induction fuel generalizing q with
  | zero => exact .refl hd
  | succ fuel ih =>
    unfold createFolders.descend
    split
    . exact .refl hd
    . next around _ =>
      split
      . next d' hm => exact .makeFolder hd hm
      . have hb := ih around
        generalize createFolders.descend d fuel around = r at hb
        rcases r with ⟨d', made⟩
        cases made with
        | error e => exact hb
        | ok u =>
          dsimp only at hb ⊢
          cases hm : d'.makeFolder q with
          | error e => exact hb
          | ok d'' => exact hb.trans (.makeFolder hb.isTree hm)
      . exact .refl hd

theorem Builds.createFolders (hd : d.IsTree) (p : Path) : Builds d (d.createFolders p).1 :=
  .descend hd _ p

/-- Folders came in on the way along names from a folder; all else stayed as it was. -/
def Grows (loc : Location) (ns : List Name) (d d' : Disk) : Prop :=
  ∀ l, d'.node? l = d.node? l ∨
    (d.node? l = none ∧ d'.node? l = some .folder ∧ ∃ ms, ms ≠ [] ∧ ms <+: ns ∧ l = loc ++ ms)

theorem Grows.fileAt? (h : Grows loc ns d d') (l : Location) : d'.fileAt? l = d.fileAt? l := by
  rcases h l with hl | ⟨hbefore, hafter, _⟩
  . exact fileAt?_congr hl
  . rw [Disk.fileAt?, Disk.fileAt?, hbefore, hafter]

theorem Grows.trans (h : Grows loc ns d d') (h' : Grows loc ns d' d'') : Grows loc ns d d'' := by
  intro l
  rcases h l with hl | ⟨hbefore, hafter, hms⟩
  . rw [← hl]
    exact h' l
  . rcases h' l with hl' | ⟨hbefore', _⟩
    . exact .inr ⟨hbefore, hl'.trans hafter, hms⟩
    . rw [hafter] at hbefore'
      cases hbefore'

theorem Grows.mono (h : Grows loc ns d d') (hms : ns <+: ms) : Grows loc ms d d' := by
  intro l
  rcases h l with hl | ⟨hbefore, hafter, ks, hne, hks, heq⟩
  . exact .inl hl
  . exact .inr ⟨hbefore, hafter, ks, hne, hks.trans hms, heq⟩

/-- Where a way that follows links finds something, a way that does not finds something too. -/
theorem Way.of_follow (h : Way d true links loc ps (.found l n)) :
    ∃ l' n', Way d false links loc ps (.found l' n') := by
  generalize ht : Target.found l n = t at h
  induction h with
  | done => exact ⟨_, _, .done⟩
  | skip hp _ ih =>
    obtain ⟨l', n', hway⟩ := ih ht
    exact ⟨l', n', .skip hp hway⟩
  | up _ ih =>
    obtain ⟨l', n', hway⟩ := ih ht
    exact ⟨l', n', .up hway⟩
  | missing => cases ht
  | missingFolder => cases ht
  | enter hp hn _ ih =>
    obtain ⟨l', n', hway⟩ := ih ht
    exact ⟨l', n', .enter hp hn hway⟩
  | stop _ _ hf => cases hf
  | @follow _ _ _ rest _ _ hp hn _ htarget _ ih =>
    by_cases hrest : rest = []
    . rw [hrest]
      exact ⟨_, _, .stop hp hn rfl⟩
    . obtain ⟨l', n', hway⟩ := ih ht
      exact ⟨l', n', .follow hp hn (.inl hrest) htarget hway⟩
  | leaf hp hn hfolder hlink => exact ⟨_, _, .leaf hp hn hfolder hlink⟩

theorem makeFolder_of_folder (h : d.find true p = .ok (l, .folder)) :
    d.makeFolder p = .error .alreadyExists := by
  obtain ⟨hp, hway⟩ := find_eq_ok_iff_way.mp h
  obtain ⟨l', n', hway'⟩ := hway.of_follow
  have hlocate : d.locate false p = .ok (.found l' n') := locate_eq_ok_iff.mpr ⟨hp, hway'⟩
  rw [makeFolder, hlocate]

theorem createFolders_of_folder (h : d.find true p = .ok (l, .folder)) :
    d.createFolders p = (d, .ok ()) := by
  have hfolder : d.isFolder p = true := isFolder_iff.mpr ⟨l, h⟩
  unfold createFolders createFolders.descend
  rw [makeFolder_of_folder h]
  split
  . rfl
  . simp [orThere, hfolder]

namespace Roots

theorem makeFolder_inside (h : d.Roots p loc) (hne : ns ≠ []) (hns : ∀ m ∈ ns, IsName m)
    (hm : d.makeFolder (p.inside ns) = .ok d') : Within loc d d' ∧ Grows loc ns d d' := by
  obtain ⟨l, hd, hnone, _, hl⟩ := makeFolder_eq_ok hm
  have hplace : l = loc ++ ns := by
    rcases hl with hl | hl
    . obtain ⟨_, hspot⟩ := h.locate_inside hne hns hl
      cases hspot
      rfl
    . obtain ⟨_, hspot⟩ := h.locate_inside hne hns hl
      cases hspot
  have htree := h.isTree.makeFolder hm
  rw [hplace] at hd hnone
  rw [hd] at htree ⊢
  refine ⟨⟨.put_new hnone (by simp), htree, ?_⟩, ?_⟩
  . intro l hl
    rw [node?_put_ne (ne_nil_of_node? hnone)]
    rintro rfl
    exact hl (List.prefix_append _ _)
  . intro l
    rw [node?_put (ne_nil_of_node? hnone)]
    split
    . next heq => exact .inr ⟨by rw [heq, hnone], rfl, ns, hne, List.prefix_rfl, heq⟩
    . exact .inl rfl

/-- The creation of a folder leaves alone what is not on the way to it. -/
theorem descend_inside (h : d.Roots p loc) (fuel : Nat) (hns : ∀ m ∈ ns, IsName m) :
    Within loc d (createFolders.descend d fuel (p.inside ns)).1
      ∧ Grows loc ns d (createFolders.descend d fuel (p.inside ns)).1 := by
  have hself : ∀ {ks}, Within loc d d ∧ Grows loc ks d d :=
    ⟨.refl loc h.isTree, fun _ => .inl rfl⟩
  induction fuel generalizing ns with
  | zero => exact hself
  | succ fuel ih =>
    unfold createFolders.descend
    rcases List.eq_nil_or_concat ns with hnil | ⟨ms, m, hms⟩
    . rw [hnil, Path.inside_nil, makeFolder_of_folder h.leads]
      split
      . exact hself
      . exact hself
    . rw [List.concat_eq_append] at hms
      subst hms
      have hms : ∀ k ∈ ms, IsName k := fun k hk => hns k (List.mem_append_left _ hk)
      have hparent : (p.inside (ms ++ [m])).parent? = some (p.inside ms) := by
        rw [h.isNamed.parent?_inside (by simp) hns, List.dropLast_concat]
      have hmake := fun d (h : Roots d p loc) d' => @makeFolder_inside d d' loc _ p h (by simp) hns
      rw [hparent]
      dsimp only
      split
      . next d' hd => exact hmake d h d' hd
      . -- The folders around it come first.
        obtain ⟨hwithin, hgrows⟩ := ih hms
        generalize createFolders.descend d fuel (p.inside ms) = r at hwithin hgrows
        rcases r with ⟨d', made⟩
        dsimp only at hwithin hgrows
        have hgrows := hgrows.mono (List.prefix_append ms [m])
        cases made with
        | error e => exact ⟨hwithin, hgrows⟩
        | ok u =>
          dsimp only
          cases hd : d'.makeFolder (p.inside (ms ++ [m])) with
          | error e => exact ⟨hwithin, hgrows⟩
          | ok d'' =>
            obtain ⟨hwithin', hgrows'⟩ := hmake d' (h.within hwithin) d'' hd
            exact ⟨hwithin.trans hwithin', hgrows.trans hgrows'⟩
      . exact hself

theorem createFolders_inside (h : d.Roots p loc) (hns : ∀ m ∈ ns, IsName m) :
    Within loc d (d.createFolders (p.inside ns)).1
      ∧ Grows loc ns d (d.createFolders (p.inside ns)).1 :=
  h.descend_inside _ hns

theorem store_inside (h : d.Roots p loc) (hne : ns ≠ []) (hns : ∀ m ∈ ns, IsName m)
    (hdevice : d.node? (loc ++ ns) ≠ some .sink)
    (hs : d.store (p.inside ns) content executable = .ok d') :
    Within loc d d' ∧ p.Spans ns ∧ ∃ mode, d' = d.put (loc ++ ns) (.file content mode) := by
  have htree := h.isTree.store hs
  rcases store_eq_ok hs with ⟨l, mode, hd, _, hl⟩ | ⟨_, l, hl⟩
  . have hplace : p.Spans ns ∧ l = loc ++ ns ∧ Steady d d' := by
      rw [hd]
      rcases hl with hl | ⟨before, hl⟩
      . obtain ⟨hp, hspot⟩ := h.locate_inside hne hns hl
        cases hspot with
        | missing hn => exact ⟨hp, rfl, .put_new hn (by simp)⟩
      . obtain ⟨hp, hspot⟩ := h.locate_inside hne hns hl
        cases hspot with
        | found hn => exact ⟨hp, rfl, .put_file hn⟩
    obtain ⟨hp, hl, hsteady⟩ := hplace
    rw [hl] at hd
    refine ⟨⟨hsteady, htree, ?_⟩, hp, mode, hd⟩
    intro k hk
    rw [hd, node?_put_ne (by simp [hne])]
    rintro rfl
    exact hk (List.prefix_append _ _)
  . obtain ⟨_, _, hn⟩ := (h.find_inside_iff hne hns).mp hl
    exact absurd hn hdevice

/-- A file that is new, or as executable as the one before it, is put down as it is given. -/
theorem store_inside_eq (h : d.Roots p loc) (hne : ns ≠ []) (hns : ∀ m ∈ ns, IsName m)
    (hnode : d.node? (loc ++ ns) = none
      ∨ ∃ before, d.node? (loc ++ ns) = some (.file before executable))
    (hs : d.store (p.inside ns) content executable = .ok d') :
    d' = d.put (loc ++ ns) (.file content executable) := by
  unfold store at hs
  cases hl : d.locate true (p.inside ns) with
  | error e =>
    rw [hl] at hs
    cases hs
  | ok t =>
    obtain ⟨_, hspot⟩ := h.locate_inside hne hns hl
    rw [hl] at hs
    cases hspot with
    | missing hn => exact (Except.ok.inj hs).symm
    | found hn =>
      rcases hnode with hnone | ⟨before, hfile⟩
      . rw [hn] at hnone
        cases hnone
      . rw [hn, Option.some.injEq] at hfile
        rw [hfile] at hs
        exact (Except.ok.inj hs).symm

theorem store_of_file (h : d.Roots p loc) (hne : ns ≠ []) (hns : ∀ m ∈ ns, IsName m)
    (hp : p.Spans ns) {before : Bytes} (hn : d.node? (loc ++ ns) = some (.file before executable))
    (mode : Bool) :
    d.store (p.inside ns) content mode = .ok (d.put (loc ++ ns) (.file content executable)) := by
  rw [store, h.locate_found hne hns hp hn]

/-- Removing a file below a folder changes nothing else, and does so if it is there. -/
theorem unlink_inside (h : d.Roots p loc) (hne : ns ≠ []) (hns : ∀ m ∈ ns, IsName m)
    (hu : d.unlink (p.inside ns) = .ok d') :
    Within loc d d' ∧ p.Spans ns
      ∧ ∀ l, d'.node? l = if l = loc ++ ns then none else d.node? l := by
  unfold unlink at hu
  split at hu
  . cases hu
  . next l n hfolder hl =>
    obtain ⟨hp, hplace, hn⟩ := (h.find_inside_iff hne hns).mp hl
    have hnode := h.isTree.node?_erase hn hfolder
    rw [← Except.ok.inj hu, hplace]
    refine ⟨⟨.erase h.isTree hn hfolder ?_, h.isTree.erase hn hfolder, ?_⟩, hp, hnode⟩
    . rintro target rfl
      exact h.plain ns target hn
    . intro k hk
      rw [hnode, if_neg]
      rintro rfl
      exact hk (List.prefix_append _ _)
  . cases hu

theorem fileAt?_eq_none_of_unlink (h : d.Roots p loc) (hne : ns ≠ []) (hns : ∀ m ∈ ns, IsName m)
    (hp : p.Spans ns) {e : DiskError} (hu : d.unlink (p.inside ns) = .error e) :
    d.fileAt? (loc ++ ns) = none := by
  cases hf : d.fileAt? (loc ++ ns) with
  | none => rfl
  | some content =>
    obtain ⟨executable, hn⟩ := fileAt?_eq_some_iff.mp hf
    have hfind : d.find false (p.inside ns) = .ok (loc ++ ns, .file content executable) :=
      (h.find_inside_iff hne hns).mpr ⟨hp, rfl, hn⟩
    rw [unlink, hfind] at hu
    cases hu

end Roots

end Disk

end InkServer
