import InkServer.Proofs.Copy.Exact
import Mathlib.Data.List.Nodup

/-!
This module contains the end of a pass: every folder of the tree is visited once, although the pass
makes folders itself. So the pass ends after as many steps as there are places on the disk, whether it
succeeds or not.
-/

namespace InkServer

open Text Disk

namespace Disk

variable {d d' : Disk} {p q : Path} {I : Disk → Prop}

/-- The disk lists every place once. -/
def Distinct (d : Disk) : Prop :=
  (d.nodes.map Prod.fst).Nodup

theorem map_fst_putNode (l : Location) (n : Node) (nodes : List (Location × Node)) :
    (putNode l n nodes).map Prod.fst
      =
    if l ∈ nodes.map Prod.fst then nodes.map Prod.fst else nodes.map Prod.fst ++ [l] := by
  induction nodes with
  | nil => rfl
  | cons entry nodes ih =>
    unfold putNode
    by_cases hl : entry.1 = l
    . rw [if_pos hl, if_pos (by simp [hl]), List.map_cons, List.map_cons, hl]
    . rw [if_neg hl, List.map_cons, ih, List.map_cons]
      have hmem : l ∈ entry.1 :: nodes.map Prod.fst ↔ l ∈ nodes.map Prod.fst := by
        rw [List.mem_cons, or_iff_right (Ne.symm hl)]
      simp only [hmem]
      split
      . rfl
      . rfl

theorem Distinct.put (h : d.Distinct) (l : Location) (n : Node) : (d.put l n).Distinct := by
  unfold Distinct Disk.put
  rw [map_fst_putNode]
  split
  . exact h
  . next hl =>
    rw [← List.concat_eq_append, List.nodup_concat]
    exact ⟨hl, h⟩

theorem Distinct.children (h : d.Distinct) (l : Location) : (d.children l).Nodup := by
  have heq : d.children l = (d.nodes.map Prod.fst).filterMap (childName? l) := by
    rw [List.filterMap_map]
    rfl
  rw [heq]
  refine List.Nodup.filterMap ?_ h
  intro k k' m hk hk'
  rw [childName?_eq_some_iff.mp hk, childName?_eq_some_iff.mp hk']

section Kept

variable (hput : ∀ {d : Disk} (l : Location) (n : Node), I d → I (d.put l n))
include hput

/-- What no single change breaks holds after folders were made, -/
theorem createFolders_kept (h : I d) : I (d.createFolders p).1 := by
  have hmake : ∀ {d d' : Disk} {q : Path}, I d → d.makeFolder q = .ok d' → I d' := by
    intro d d' q h hm
    obtain ⟨l, hd, _⟩ := makeFolder_eq_ok hm
    rw [hd]
    exact hput l _ h
  suffices ∀ fuel q, I (createFolders.descend d fuel q).1 from this _ p
  intro fuel
  induction fuel with
  | zero => exact fun q => h
  | succ fuel ih =>
    intro q
    unfold createFolders.descend
    split
    . exact h
    . next around _ =>
      split
      . next hm => exact hmake h hm
      . have hkept := ih around
        generalize createFolders.descend d fuel around = made at hkept
        rcases made with ⟨d', result⟩
        cases result with
        | error e => exact hkept
        | ok u =>
          dsimp only at hkept ⊢
          cases hm : d'.makeFolder q with
          | error e => exact hkept
          | ok d'' => exact hmake hkept hm
      . exact h

/-- and after a file was copied. -/
theorem copyFile_kept (h : I d) (hc : d.copyFile p q = .ok d') : I d' := by
  unfold copyFile at hc
  split at hc
  . cases hc
  . rcases store_eq_ok hc with ⟨l, mode, hd, _⟩ | ⟨hd, _⟩
    . rw [hd]
      exact hput l _ h
    . rw [hd]
      exact h
  . cases hc

end Kept

end Disk

namespace CopyRules

variable {rules : CopyRules} {n : Nat} {root scratch source target : Path} {R B : Location}
  {before d d' : Disk} {rel : List Name} {m : Name} {rels : List (List Name)}
  {names found : List Name} {pending : List Pending}

theorem distinct_copyItem (h : d.Distinct) :
    (rules.copyItem scratch source target d).1.Distinct := by
  unfold CopyRules.copyItem
  split
  . exact h
  . split
    . exact h
    . split
      . have hmade := @createFolders_kept d target Distinct (fun l n h => h.put l n) h
        split
        . next hd =>
          rw [hd] at hmade
          exact hmade
        . next hd =>
          rw [hd] at hmade
          exact hmade
      . split
        . next hc => exact copyFile_kept (fun l n h => h.put l n) h hc
        . exact h

theorem distinct_copyItems (h : d.Distinct) :
    (rules.copyItems scratch source target names pending d).1.Distinct := by
  induction names generalizing pending d with
  | nil => exact h
  | cons m names ih =>
    have hitem := @distinct_copyItem rules scratch (source.child m) (target.child m) d h
    unfold CopyRules.copyItems
    split
    . next hd =>
      rw [hd] at hitem
      exact ih hitem
    . next hd =>
      rw [hd] at hitem
      exact hitem

/-- The place lies at or below a folder that is still to be copied. -/
def covers (R : Location) (rels : List (List Name)) (l : Location) : Bool :=
  rels.any fun r => (R ++ r).isPrefixOf l

theorem covers_iff {l : Location} : covers R rels l = true ↔ ∃ r ∈ rels, R ++ r <+: l := by
  simp [covers, List.any_eq_true]

/-- How many places of the disk lie at or below folders that are still to be copied. -/
def weight (R : Location) (before : Disk) (rels : List (List Name)) : Nat :=
  ([] :: before.nodes.map Prod.fst).countP (covers R rels)

/-- No folder that is still to be copied lies in another. -/
def Scattered (rels : List (List Name)) : Prop :=
  rels.Pairwise fun r s => ¬r <+: s ∧ ¬s <+: r

theorem Scattered.expand (h : Scattered (rel :: rels)) (hfound : found.Nodup) :
    Scattered (found.map (rel ++ [·]) ++ rels) := by
  obtain ⟨hrel, hrels⟩ := List.pairwise_cons.mp h
  refine List.pairwise_append.mpr ⟨?_, hrels, ?_⟩
  . rw [List.pairwise_map]
    refine hfound.imp ?_
    intro a b hne
    rw [List.prefix_append_right_inj, List.prefix_append_right_inj]
    simp [hne, Ne.symm hne]
  . intro r hr s hs
    obtain ⟨m, _, hm⟩ := List.mem_map.mp hr
    have hsub : rel <+: r := by
      rw [← hm]
      exact List.prefix_append _ _
    refine ⟨fun hpre => (hrel s hs).1 (hsub.trans hpre), fun hpre => ?_⟩
    rw [← hm] at hpre
    rcases List.prefix_concat_iff.mp hpre with heq | hpre
    . exact (hrel s hs).1 (heq ▸ List.prefix_append _ _)
    . exact (hrel s hs).2 hpre

theorem covers_of_expand {l : Location} (h : covers R (found.map (rel ++ [·]) ++ rels) l = true) :
    covers R (rel :: rels) l = true := by
  rw [covers_iff] at h ⊢
  obtain ⟨r, hr, hpre⟩ := h
  rcases List.mem_append.mp hr with hr | hr
  . obtain ⟨m, _, hm⟩ := List.mem_map.mp hr
    rw [← hm, ← List.append_assoc] at hpre
    exact ⟨rel, .head _, (List.prefix_append _ _).trans hpre⟩
  . exact ⟨r, .tail _ hr, hpre⟩

theorem not_covers_expand (h : Scattered (rel :: rels)) :
    ¬covers R (found.map (rel ++ [·]) ++ rels) (R ++ rel) = true := by
  rw [covers_iff]
  rintro ⟨r, hr, hpre⟩
  rw [List.prefix_append_right_inj] at hpre
  rcases List.mem_append.mp hr with hr | hr
  . obtain ⟨m, _, hm⟩ := List.mem_map.mp hr
    rw [← hm] at hpre
    have hlen := hpre.length_le
    rw [List.length_append, List.length_singleton] at hlen
    omega
  . exact ((List.pairwise_cons.mp h).1 r hr).2 hpre

/-- A folder that is done lies no more among those to come. -/
theorem weight_expand (h : Scattered (rel :: rels))
    (hfolder : before.node? (R ++ rel) = some .folder) :
    weight R before (found.map (rel ++ [·]) ++ rels) < weight R before (rel :: rels) := by
  have hmem : R ++ rel ∈ [] :: before.nodes.map Prod.fst := by
    by_cases hne : R ++ rel = []
    . rw [hne]
      exact .head _
    . exact .tail _ (List.mem_map.mpr ⟨_, mem_of_node? hne hfolder, rfl⟩)
  have hdone : covers R (rel :: rels) (R ++ rel) = true :=
    covers_iff.mpr ⟨rel, .head _, List.prefix_rfl⟩
  have hperm := List.perm_cons_erase hmem
  unfold weight
  rw [hperm.countP_eq, hperm.countP_eq, List.countP_cons_of_neg (not_covers_expand h),
    List.countP_cons_of_pos hdone]
  exact Nat.lt_succ_of_le (List.countP_mono_left fun l _ => covers_of_expand)

/-- Once there is a step for every place at or below the folders to come, further steps change
nothing. -/
theorem copyTree_fuel (hg : Ground rules n root R B before) {fuel fuel' : Nat}
    (hrels : ∀ r ∈ rels, Visited rules root before r) (hscattered : Scattered rels)
    (hd : d.Distinct) (h : Mirrored rules n root B before d (Awaits rels))
    (hfuel : weight R before rels ≤ fuel) (hfuel' : weight R before rels ≤ fuel') :
    rules.copyTree (rules.scratchOf n) fuel (rels.map (itemOf root (rules.scratchOf n))) d
      =
    rules.copyTree (rules.scratchOf n) fuel' (rels.map (itemOf root (rules.scratchOf n))) d := by
  induction fuel generalizing fuel' rels d with
  | zero =>
    cases rels with
    | nil => cases fuel' <;> rfl
    | cons rel rels =>
      have hfolder := hg.node?_visited (hrels rel (.head _))
      have hlt := @weight_expand R before rel rels [] hscattered hfolder
      omega
  | succ fuel ih =>
    cases rels with
    | nil => cases fuel' <;> rfl
    | cons rel rels =>
      have hr := hrels rel (.head _)
      have hlt := fun found => @weight_expand R before rel rels found hscattered (hg.node?_visited hr)
      have hpos := hlt []
      obtain ⟨fuel', rfl⟩ : ∃ k, fuel' = k + 1 := ⟨fuel' - 1, by omega⟩
      rw [List.map_cons, itemOf, CopyRules.copyTree, CopyRules.copyTree, h.list_eq hg hr]
      dsimp only
      have hd' := @distinct_copyItems rules (rules.scratchOf n) (root.inside rel)
        ((rules.scratchOf n).inside rel) d (d.children (R ++ rel))
        (rels.map (itemOf root (rules.scratchOf n))) hd
      split
      . next d' pending hitems =>
        rw [hitems] at hd'
        obtain ⟨found, hsub, hpending, hall, hdone⟩ := (h.expand hg).copyItems hg hr
          (fun m hm => h.isName_of_mem_children hm) hitems
        have hfound : found.Nodup := hsub.nodup (List.nodup_reverse.mpr (hd.children _))
        have hlt := hlt found
        rw [hpending]
        exact ih (visited_expand hrels hall) (hscattered.expand hfound) hd' hdone (by omega) (by omega)
      . rfl

end CopyRules

end InkServer
