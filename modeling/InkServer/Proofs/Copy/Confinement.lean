import InkServer.Proofs.Copy.Place
import InkServer.Proofs.Path.Lexical

/-!
This module contains the confinement of updates: a document that a workspace owns has its copy at the
end of names below the scratch folder, and nothing is written or removed anywhere else.
-/

namespace InkServer

open Text Disk

namespace Path

variable {p base q : Path}

/-- The location of a path inside another one is made of names. Whether it is inside is decided on the
texts, and where it lies on the steps. -/
theorem exists_names_of_isInside (hin : p.isInside base = true) (hp : p.normalize = p)
    (hb : base.normalize = base) (h : p.relativeTo? base = some q) :
    ∃ ns : List Name, ns ≠ [] ∧ (∀ n ∈ ns, IsName n) ∧ q = ofComponents (ns.map .name) := by
  cases hcs : base.components with
  | cons c cs =>
    have hc : c ∈ base.components := by simp [hcs]
    have hup : c ≠ .up := by
      rintro rfl
      exact up_not_mem_of_isInside hin hb hc
    rw [← hb] at hc
    obtain ⟨ns, hne, hns, _, hq⟩ := exists_below_of_relativeTo? h hc hup
    exact ⟨ns, hne, hns, hq⟩
  | nil =>
    -- Below the empty path stands the path itself, which could start at the root or lead outwards.
    have hempty : base = .empty := by
      rw [← hb, ← ofComponents_components_normalize, hb, hcs]
      rfl
    obtain ⟨cs, hne, hsteps, hq⟩ := relativeTo?_eq_some_iff.mp h
    rw [hp, hb, hcs, List.nil_append] at hsteps
    obtain ⟨lead, ns, hnormal, hlead⟩ := p.isNormal_components_normalize
    rw [hp] at hnormal
    rcases hlead with hlead | ⟨k, hlead⟩
    . have habs : p.isAbsolute = true := by
        rw [← hp, ← ofComponents_components_normalize, hp, hnormal, hlead]
        rfl
      exact absurd hempty (ne_empty_of_isInside hin habs)
    . cases k with
      | succ k =>
        refine absurd ?_ (up_not_mem_of_isInside_left hin hp)
        rw [hnormal, hlead]
        exact .head _
      | zero =>
        rw [hlead, List.replicate_zero, List.nil_append] at hnormal
        rw [← hsteps, hnormal] at hq hne
        refine ⟨ns, by simpa using hne, ?_, hq⟩
        intro n hn
        apply @isName_of_mem_components p
        rw [hnormal]
        exact List.mem_map_of_mem hn

end Path

namespace Disk

variable {d d' d'' : Disk} {p : Path} {loc : Location} {content : Bytes} {executable : Bool}

/-- Nothing was changed but what the path leads to, apart from missing folders that came in. -/
def ChangedAt (p : Path) (d d' : Disk) : Prop :=
  ∀ l, d'.node? l = d.node? l ∨ (d.node? l = none ∧ d'.node? l = some .folder)
    ∨ (∃ n, d.find false p = .ok (l, n)) ∨ ∃ n, d'.find true p = .ok (l, n)

theorem Builds.changedAt (h : Builds d d') (p : Path) : ChangedAt p d d' := by
  intro l
  rcases h.node l with hl | hl
  . exact .inl hl
  . exact .inr (.inl hl)

theorem ChangedAt.store (h : Builds d d') (hs : d'.store p content executable = .ok d'') :
    ChangedAt p d d'' := by
  rcases store_eq_ok hs with ⟨l, mode, hput, hfind, hl⟩ | ⟨heq, _⟩
  . have hne : l ≠ [] := by
      rcases hl with hl | ⟨before, hl⟩
      . exact ne_nil_of_node? ((locate_eq_ok_iff.mp hl).2.node?_eq_none (.inl rfl))
      . rcases node?_of_find (find_eq_ok_iff.mpr hl) with hn | hn
        . cases hn
        . exact ne_nil_of_file hn
    intro k
    by_cases hk : k = l
    . rw [hk]
      exact .inr (.inr (.inr ⟨_, hfind⟩))
    . rw [hput, node?_put_ne hne hk]
      rcases h.node k with hk | hk
      . exact .inl hk
      . exact .inr (.inl hk)
  . rw [heq]
    exact h.changedAt p

theorem ChangedAt.unlink (hd : d.IsTree) (h : d.unlink p = .ok d') : ChangedAt p d d' := by
  unfold Disk.unlink at h
  split at h
  . cases h
  . next l n hfolder hfind =>
    have hnode := hd.node?_erase (hd.node?_of_find hfind) hfolder
    rw [← Except.ok.inj h]
    intro k
    rw [hnode]
    split
    . next hk =>
      rw [hk]
      exact .inr (.inr (.inl ⟨n, hfind⟩))
    . exact .inl rfl
  . cases h

theorem Within.exists_of_ne (h : Within loc d d') (hroots : d.Roots p loc) {l : Location}
    (hl : d'.node? l ≠ d.node? l) : ∃ ms, ms ≠ [] ∧ l = loc ++ ms := by
  have hpre : loc <+: l := Decidable.byContradiction fun hnot => hl (h.outside hnot)
  obtain ⟨ms, hms⟩ := hpre
  refine ⟨ms, ?_, hms.symm⟩
  rintro rfl
  rw [List.append_nil] at hms
  rw [← hms, hroots.node?_eq, h.folder hroots.node?_eq] at hl
  exact hl rfl

end Disk

namespace Workspace

variable {ws : Workspace} {d d' : Disk} {p q r scratch target : Path} {loc : Location}
  {ns : List Name}

theorem scratchPathFor?_eq_inside (hroot : ws.root.normalize = ws.root) (hp : p.normalize = p)
    (howns : p.isInside ws.root = true) (hscratch : ws.scratch = some scratch)
    (htarget : ws.scratchPathFor? p = some target) :
    ∃ ns, ns ≠ [] ∧ (∀ n ∈ ns, IsName n) ∧ target = scratch.inside ns := by
  unfold scratchPathFor? at htarget
  rw [hscratch] at htarget
  split at htarget
  . next relative heq hrelative =>
    obtain ⟨ns, hne, hns, hof⟩ := Path.exists_names_of_isInside howns hp hroot hrelative
    refine ⟨ns, hne, hns, ?_⟩
    rw [← Option.some.inj htarget, ← Option.some.inj heq, hof, Path.join_ofComponents scratch hne hns]
  . cases htarget

theorem makeParent_builds (hd : d.IsTree) (target : Path) : Builds d (makeParent d target).1 := by
  unfold makeParent
  split
  . exact .refl hd
  . next parent _ =>
    have hb := Builds.createFolders hd parent
    split
    . next h =>
      rw [h] at hb
      exact hb
    . next h =>
      rw [h] at hb
      exact hb

/-- One of the updates of the copy of a file. -/
inductive Updates (ws : Workspace) (p : Path) (d : Disk) : Disk → Prop where
  | edit (text : String) : Updates ws p d (ws.applyEdit p text d).1
  | created (filter : SourceFilter) : Updates ws p d (ws.applyCreated filter p d)
  | deleted : Updates ws p d (ws.applyDeleted p d)

/-- What an update comes to: nothing, or folders around the copy and then perhaps the copy itself, or
the removal of the copy. -/
inductive Outcome (target : Path) (d : Disk) : Disk → Prop where
  | same : Outcome target d d
  | parent : Outcome target d (makeParent d target).1
  | store {d' : Disk} {content : Bytes} {executable : Bool}
    (h : (makeParent d target).1.store target content executable = .ok d') : Outcome target d d'
  | unlink {d' : Disk} (h : d.unlink target = .ok d') : Outcome target d d'

theorem Updates.outcome (h : ws.Updates p d d') (htarget : ws.scratchPathFor? p = some target) :
    Outcome target d d' := by
  have hparent := @Outcome.parent target d
  have hstore := fun d' content executable => @Outcome.store target d d' content executable
  generalize hmade : makeParent d target = made at hparent hstore
  rcases made with ⟨made, result⟩
  cases h with
  | edit text =>
    unfold applyEdit
    split
    . exact .same
    . rw [htarget]
      dsimp only
      rw [hmade]
      cases result with
      | error e => exact hparent
      | ok u =>
        dsimp only
        split
        . next d' h => exact hstore d' _ _ h
        . exact hparent
  | created filter =>
    unfold applyCreated
    split
    . exact .same
    . rw [htarget]
      dsimp only
      rw [hmade]
      cases result with
      | error e => exact hparent
      | ok u =>
        dsimp only
        split
        . next d' h =>
          unfold copyFile at h
          split at h
          . cases h
          . exact hstore d' _ _ h
          . cases h
        . exact hparent
  | deleted =>
    unfold applyDeleted
    rw [htarget]
    dsimp only
    split
    . next d' h => exact .unlink h
    . exact .same

theorem Outcome.changedAt (h : Outcome target d d') (hd : d.IsTree) : ChangedAt target d d' := by
  cases h with
  | same => exact (Builds.refl hd).changedAt target
  | parent => exact (makeParent_builds hd target).changedAt target
  | store h => exact .store (makeParent_builds hd target) h
  | unlink h => exact .unlink hd h

theorem Outcome.within (h : Outcome (scratch.inside ns) d d') (hroots : d.Roots scratch loc)
    (hne : ns ≠ []) (hns : ∀ n ∈ ns, IsName n) : Within loc d d' := by
  obtain ⟨hparent, _⟩ := makeParent_inside hroots hne hns
  have hmade := hroots.within hparent
  cases h with
  | same => exact .refl loc hroots.isTree
  | parent => exact hparent
  | @store _ content executable h =>
    by_cases hsink : (makeParent d (scratch.inside ns)).1.node? (loc ++ ns) = some .sink
    . -- A device swallows what is written.
      rcases store_eq_ok h with ⟨l, mode, _, _, hl⟩ | ⟨heq, _⟩
      . rcases hl with hl | ⟨before, hl⟩
        . obtain ⟨_, hspot⟩ := hmade.locate_inside hne hns hl
          cases hspot with
          | missing hn =>
            rw [hsink] at hn
            cases hn
        . obtain ⟨_, hspot⟩ := hmade.locate_inside hne hns hl
          cases hspot with
          | found hn =>
            rw [hsink] at hn
            cases hn
      . rw [heq]
        exact hparent
    . exact hparent.trans (hmade.store_inside hne hns hsink h).1
  | unlink h => exact (hroots.unlink_inside hne hns h).1

/-- A workspace with a normal root owns a document at a normal path, and its copy has a place. That
place is the scratch folder followed by names. An update changes nothing but what stands there, and
if the scratch folder is there and holds no links, only places strictly inside it are changed; a
workspace that lies apart from it stays as it is. -/
theorem updates_stay_inside (hroot : ws.root = r.normalize) (hscratch : ws.scratch = some scratch)
    (hp : p = q.normalize) (howns : p.isInside ws.root = true)
    (htarget : ws.scratchPathFor? p = some target) :
    (∃ ns, ns ≠ [] ∧ (∀ n ∈ ns, IsName n) ∧ target.components = scratch.components ++ ns.map .name)
      ∧ ∀ d d', d.IsTree → ws.Updates p d d' →
        ChangedAt target d d'
          ∧ ∀ loc, d.Roots scratch loc →
            (∀ l, d'.node? l ≠ d.node? l → ∃ ms, ms ≠ [] ∧ l = loc ++ ms)
              ∧ ∀ R, ¬R <+: loc → ¬loc <+: R → ∀ l, R <+: l → d'.node? l = d.node? l := by
  have hrootNormal : ws.root.normalize = ws.root := by rw [hroot, Path.normalize_normalize]
  have hpNormal : p.normalize = p := by rw [hp, Path.normalize_normalize]
  obtain ⟨ns, hne, hns, hinside⟩ :=
    scratchPathFor?_eq_inside hrootNormal hpNormal howns hscratch htarget
  refine ⟨⟨ns, hne, hns, by rw [hinside, Path.components_inside scratch hns]⟩, ?_⟩
  intro d d' hd hupdates
  have houtcome := hupdates.outcome htarget
  refine ⟨houtcome.changedAt hd, ?_⟩
  intro loc hroots
  rw [hinside] at houtcome
  have hwithin := houtcome.within hroots hne hns
  refine ⟨fun l hl => hwithin.exists_of_ne hroots hl, ?_⟩
  intro R hR hloc l hl
  apply hwithin.outside
  intro hpre
  rcases List.prefix_or_prefix_of_prefix hl hpre with h | h
  . exact hR h
  . exact hloc h

def copiedDisk : Disk :=
  ⟨[([bytesOf "w"], .folder), ([bytesOf "w", bytesOf "b.ink"], .file (bytesOf "old") false),
    ([bytesOf "k"], .folder), ([bytesOf "k", bytesOf "b.ink"], .file (bytesOf "old") false)], []⟩

theorem copiedDisk_roots : copiedDisk.Roots (.ofString "/k") [bytesOf "k"] := by
  have hname : IsName (bytesOf "w") ∧ IsName (bytesOf "k") ∧ IsName (bytesOf "b.ink") := by
    refine ⟨⟨?_, ?_, ?_, ?_⟩, ⟨?_, ?_, ?_, ?_⟩, ⟨?_, ?_, ?_, ?_⟩⟩ <;> decide
  refine ⟨?_, ⟨[[]], _, by decide +kernel, hname.2.1⟩, by with_unfolding_all rfl, ?_⟩
  . refine isTree_of_mem rfl ?_
    intro l n hmem
    simp only [copiedDisk, List.mem_cons, Prod.mk.injEq, List.not_mem_nil, or_false] at hmem
    rcases hmem with ⟨hl, _⟩ | ⟨hl, _⟩ | ⟨hl, _⟩ | ⟨hl, _⟩
    . exact ⟨[], _, hl, hname.1, rfl⟩
    . exact ⟨[bytesOf "w"], _, hl, hname.2.2, by decide⟩
    . exact ⟨[], _, hl, hname.2.1, rfl⟩
    . exact ⟨[bytesOf "k"], _, hl, hname.2.2, by decide⟩
  . intro ns target hnode
    have hmem := mem_of_node? (by simp) hnode
    simp [copiedDisk] at hmem

def detourWorkspace : Workspace :=
  ⟨"a/../w", .ofString "w", some (.ofString "/k")⟩

/-- The copy of a file is removed, and the file stays. -/
theorem deletion_stays_inside :
    let p := Path.ofString "w/b.ink"
    (detourWorkspace.root = (Path.ofString "a/../w").normalize
        ∧ p = (Path.ofString "w//x/./../b.ink").normalize ∧ p.isInside detourWorkspace.root = true
        ∧ detourWorkspace.scratchPathFor? p = some (.ofString "/k/b.ink"))
      ∧ (∃ ns, ns ≠ [] ∧ (∀ n ∈ ns, IsName n)
        ∧ (Path.ofString "/k/b.ink").components = (Path.ofString "/k").components ++ ns.map .name)
      ∧ (detourWorkspace.applyDeleted p copiedDisk).node? [bytesOf "k", bytesOf "b.ink"] = none
      ∧ ∀ l, [bytesOf "w"] <+: l →
        (detourWorkspace.applyDeleted p copiedDisk).node? l = copiedDisk.node? l := by
  intro p
  have hroot : detourWorkspace.root = (Path.ofString "a/../w").normalize := by decide
  have hp : p = (Path.ofString "w//x/./../b.ink").normalize := by decide
  have howns : p.isInside detourWorkspace.root = true := by decide +kernel
  have htarget : detourWorkspace.scratchPathFor? p = some (.ofString "/k/b.ink") := by decide
  obtain ⟨hplace, hchange⟩ := updates_stay_inside hroot rfl hp howns htarget
  obtain ⟨_, hinside⟩ := hchange copiedDisk _ copiedDisk_roots.isTree .deleted
  obtain ⟨_, hapart⟩ := hinside _ copiedDisk_roots
  exact ⟨⟨hroot, hp, howns, htarget⟩, hplace, by decide +kernel,
    hapart [bytesOf "w"] (by decide) (by decide)⟩

end Workspace

end InkServer
