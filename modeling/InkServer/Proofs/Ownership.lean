import InkServer.Proofs.Copy.Scratch
import InkServer.Proofs.Path.Normal
import InkServer.Proofs.Registry

/-!
This module contains the order of the registry, which workspace it finds for a path, and what holds of
every entry of it: its root is in normal form, and its scratch folder was filled by a pass over that
root.
-/

namespace InkServer

namespace Registry

variable {rules : CopyRules} {r r' : Registry} {uri u : String} {e x : Entry} {p : Path}
  {ws : Workspace} {entries : List (String × Entry)}

/-- The first entry comes before the second. -/
abbrev Precedes (a b : String × Entry) : Prop :=
  a.1 < b.1

/-- The URIs ascend. -/
def Ordered (r : Registry) : Prop :=
  r.entries.Pairwise Precedes

def outline (r : Registry) : List (String × Path) :=
  r.entries.map fun (uri, e) => (uri, e.root)

theorem mem_insertEntry {a : String × Entry} (h : a ∈ insertEntry uri e entries) :
    a = (uri, e) ∨ a ∈ entries := by
  induction entries with
  | nil =>
    rw [insertEntry, List.mem_singleton] at h
    exact .inl h
  | cons entry rest ih =>
    rcases entry with ⟨key, f⟩
    unfold insertEntry at h
    split at h
    . exact (List.mem_cons.mp h).imp_right (.tail _)
    . split at h
      . exact List.mem_cons.mp h
      . cases List.mem_cons.mp h with
        | inl h =>
          rw [h]
          exact .inr (.head _)
        | inr h => exact (ih h).imp_right (.tail _)

theorem pairwise_insertEntry (h : entries.Pairwise Precedes) :
    (insertEntry uri e entries).Pairwise Precedes := by
  induction entries with
  | nil =>
    rw [insertEntry]
    exact List.pairwise_singleton _ _
  | cons entry rest ih =>
    rcases entry with ⟨key, f⟩
    obtain ⟨hkey, hrest⟩ := List.pairwise_cons.mp h
    unfold insertEntry
    split
    . next hu =>
      rw [hu]
      exact List.pairwise_cons.mpr ⟨hkey, hrest⟩
    . next hne =>
      split
      . next hlt =>
        refine List.pairwise_cons.mpr ⟨?_, h⟩
        intro a ha
        cases List.mem_cons.mp ha with
        | inl ha =>
          rw [ha]
          exact hlt
        | inr ha => exact String.lt_trans hlt (hkey a ha)
      . next hge =>
        refine List.pairwise_cons.mpr ⟨?_, ih hrest⟩
        intro a ha
        cases mem_insertEntry ha with
        | inl ha =>
          rw [ha]
          exact Std.lt_of_le_of_ne (String.not_lt.mp hge) (Ne.symm hne)
        | inr ha => exact hkey a ha

theorem Ordered.set (h : r.Ordered) (uri : String) (e : Entry) : (r.set uri e).Ordered :=
  pairwise_insertEntry h

theorem Ordered.forget (h : r.Ordered) (uri : String) : (r.forget uri).Ordered :=
  h.filter _

theorem Ordered.register (h : r.Ordered) (hr : r.register uri = .ok (ws, r')) : r'.Ordered := by
  unfold Registry.register at hr
  split at hr
  . cases hr
  . dsimp only at hr
    split at hr
    . rw [Except.ok.injEq, Prod.mk.injEq] at hr
      rw [← hr.2]
      exact h
    . rw [Except.ok.injEq, Prod.mk.injEq] at hr
      rw [← hr.2]
      exact h.set uri _

theorem Ordered.markStale (h : r.Ordered) (uri : String) (scratch : Path) :
    (r.markStale uri scratch).Ordered := by
  unfold Registry.markStale
  split
  . split
    . exact h.set uri _
    . exact h
  . exact h

theorem Ordered.commit (h : r.Ordered) (uri : String) (generation : Nat) (result : PassResult) :
    (r.commit uri generation result).2.Ordered := by
  unfold Registry.commit
  split
  . exact h
  . split
    . split
      . exact h.set uri _
      . exact h.set uri _
    . split
      . exact h
      . exact h

/-- A new entry for a workspace that is there takes the place of the old one. -/
theorem map_insertEntry (h : entries.Pairwise Precedes) (hx : entries.lookup uri = some x)
    (hroot : e.root = x.root) :
    (insertEntry uri e entries).map (fun (uri, e) => (uri, e.root))
      =
    entries.map (fun (uri, e) => (uri, e.root)) := by
  induction entries with
  | nil => simp at hx
  | cons entry rest ih =>
    rcases entry with ⟨key, f⟩
    obtain ⟨hkey, hrest⟩ := List.pairwise_cons.mp h
    rw [lookup_cons_eq_ite] at hx
    unfold insertEntry
    split
    . next hu =>
      rw [if_pos hu, Option.some.injEq] at hx
      simp only [List.map_cons, hu, hroot, hx]
    . next hne =>
      rw [if_neg hne] at hx
      have hlt : key < uri := hkey _ (mem_of_lookup hx)
      rw [if_neg (fun h => String.lt_irrefl key (String.lt_trans hlt h)), List.map_cons, List.map_cons,
        ih hrest hx]

theorem outline_set (h : r.Ordered) (hx : r.get? uri = some x) (hroot : e.root = x.root) :
    (r.set uri e).outline = r.outline :=
  map_insertEntry h hx hroot

def ownerUri? (r : Registry) (p : Path) : Option String :=
  (r.outline.find? fun (_, root) => p.isInside root).map Prod.fst

theorem findOwner?_eq (h : r.Ordered) (p : Path) :
    r.findOwner? p = (r.ownerUri? p).bind r.workspace? := by
  have hfind : r.findOwner? p
      = (r.entries.find? fun (_, e) => p.isInside e.root).map fun (uri, e) => e.snapshot uri := by
    rw [findOwner?, InkServer.findOwner?, workspaces, List.find?_map]
    rfl
  have howner : r.ownerUri? p
      = (r.entries.find? fun (_, e) => p.isInside e.root).map Prod.fst := by
    rw [ownerUri?, outline, List.find?_map, Option.map_map]
    rfl
  rw [hfind, howner]
  cases hf : r.entries.find? fun (_, e) => p.isInside e.root with
  | none => rfl
  | some entry =>
    rcases entry with ⟨uri, e⟩
    have hget : r.get? uri = some e := lookup_of_mem h (List.mem_of_find?_eq_some hf)
    simp [workspace?, hget]

theorem isInside_of_ownerUri? (h : r.Ordered) (howner : r.ownerUri? p = some uri)
    (he : r.get? uri = some e) : p.isInside e.root = true := by
  obtain ⟨⟨u, root⟩, hf, hu⟩ := Option.map_eq_some_iff.mp howner
  have hin := List.find?_some hf
  obtain ⟨⟨u', e'⟩, hm, heq⟩ := List.mem_map.mp (List.mem_of_find?_eq_some hf)
  injection heq with hu' hroot
  dsimp only at hu hu' hroot hin
  have he' : r.get? u' = some e' := lookup_of_mem h hm
  rw [hu', hu, he, Option.some.injEq] at he'
  rw [he', hroot]
  exact hin

/-- A workspace that is found for a path is the entry of its URI. -/
theorem of_findOwner? (h : r.Ordered) (hw : r.findOwner? p = some ws) :
    ∃ e, r.get? ws.uri = some e ∧ ws = e.snapshot ws.uri ∧ r.ownerUri? p = some ws.uri := by
  rw [findOwner?_eq h, Option.bind_eq_some_iff] at hw
  obtain ⟨uri, howner, hws⟩ := hw
  obtain ⟨e, hget, hsnap⟩ := Option.map_eq_some_iff.mp hws
  have huri : ws.uri = uri := by rw [← hsnap]; rfl
  exact ⟨e, by rw [huri, hget], by rw [huri, hsnap], by rw [huri, howner]⟩

theorem ownerUri?_congr (hout : r'.outline = r.outline) (p : Path) :
    r'.ownerUri? p = r.ownerUri? p := by
  rw [ownerUri?, hout]
  rfl

theorem findOwner?_of_get? (h : r.Ordered) (howner : r.ownerUri? p = some uri)
    (he : r.get? uri = some e) : r.findOwner? p = some (e.snapshot uri) := by
  rw [findOwner?_eq h, howner, Option.bind_some, workspace?, he, Option.map_some]

theorem get?_isSome_of_outline (h : r'.Ordered) (hout : r'.outline = r.outline)
    (hx : r.get? uri = some x) : ∃ e, r'.get? uri = some e ∧ e.root = x.root := by
  have hm : (uri, x.root) ∈ r'.outline := by
    rw [hout]
    exact List.mem_map.mpr ⟨(uri, x), mem_of_lookup hx, rfl⟩
  obtain ⟨⟨u, e⟩, hmem, heq⟩ := List.mem_map.mp hm
  injection heq with hu hroot
  rw [hu] at hmem
  exact ⟨e, lookup_of_mem h hmem, hroot⟩

/-- A pass over the root filled the scratch folder. -/
def FilledFrom (rules : CopyRules) (root scratch : Path) : Prop :=
  ∃ n d, (rules.createCopy (scratchName n) root d).2 = .ok scratch

/-- What holds of every registry that the server comes to have. -/
structure Sound (rules : CopyRules) (r : Registry) : Prop where
  ordered : r.Ordered
  normal : ∀ {u : String} {e : Entry}, r.get? u = some e → e.root.normalize = e.root
  filled : ∀ {u : String} {e : Entry} {scratch : Path}, r.get? u = some e →
    e.state = .ready scratch → FilledFrom rules e.root scratch

theorem Sound.set (h : r.Sound rules) (hn : e.root.normalize = e.root)
    (hf : ∀ scratch, e.state = .ready scratch → FilledFrom rules e.root scratch) :
    (r.set uri e).Sound rules := by
  constructor
  . exact h.ordered.set uri e
  . intro u y hy
    rw [get?_set] at hy
    split at hy
    . rw [Option.some.injEq] at hy
      rw [← hy]
      exact hn
    . exact h.normal hy
  . intro u y scratch hy hs
    rw [get?_set] at hy
    split at hy
    . rw [Option.some.injEq] at hy
      rw [← hy] at hs ⊢
      exact hf scratch hs
    . exact h.filled hy hs

theorem Sound.register (h : r.Sound rules) (hr : r.register uri = .ok (ws, r')) :
    r'.Sound rules := by
  unfold Registry.register at hr
  split at hr
  . cases hr
  . next root _ =>
    split at hr
    . injection hr with hr
      injection hr with _ hr
      rw [← hr]
      exact h
    . injection hr with hr
      injection hr with _ hr
      rw [← hr]
      apply h.set
      . exact Path.normalize_normalize root
      . simp

theorem Sound.registerAll (h : r.Sound rules) (uris : List String) :
    (r.registerAll uris).Sound rules := by
  unfold Registry.registerAll
  induction uris generalizing r with
  | nil => exact h
  | cons uri uris ih =>
    rw [List.foldl_cons]
    split
    . next hr => exact ih (h.register hr)
    . exact ih h

theorem Sound.markStale (h : r.Sound rules) (uri : String) (scratch : Path) :
    (r.markStale uri scratch).Sound rules := by
  unfold Registry.markStale
  split
  . next e he =>
    have hn := h.normal he
    split
    . apply h.set
      . exact hn
      . simp
    . exact h
  . exact h

theorem outline_markStale (h : r.Ordered) (uri : String) (scratch : Path) :
    (r.markStale uri scratch).outline = r.outline := by
  unfold markStale
  split
  . next e he =>
    split
    . exact outline_set h he rfl
    . rfl
  . rfl

theorem Sound.beginPass (h : r.Sound rules) (hx : r.get? uri = some x) :
    (r.set uri x.beginPass).Sound rules := by
  have hn := h.normal hx
  apply h.set
  . exact hn
  . simp

theorem Sound.settlePass {generation : Nat} {result : PassResult} (h : r.Sound rules)
    (hx : r.get? uri = some x) (hf : ∀ s, result = .ok s → FilledFrom rules x.root s) :
    (r.set uri (x.settlePass generation result)).Sound rules := by
  have hroot : (x.settlePass generation result).root = x.root := by
    unfold Entry.settlePass
    split <;> rfl
  apply h.set
  . rw [hroot]
    exact h.normal hx
  . intro scratch hs
    rw [hroot]
    cases Entry.settlePass_state_eq_ready hs with
    | inl hs => exact h.filled hx hs
    | inr hs => exact hf scratch hs

end Registry

end InkServer
