import InkServer.Proofs.Flight.Provenance
import InkServer.Proofs.Path.Relative
import InkServer.Service.Commands

/-!
This module contains the texts of normal paths and the law by which normal forms compose: a path leads
to the same place from another one and from the normal form of that one. So it makes no difference to
a workspace that its root is brought to normal form when it is registered.
-/

namespace InkServer

open Text

namespace Path

variable {p q : Path} {cs : List Component} {ns : List Name}

/-- The path is written as names from the root. -/
def FromRoot (p : Path) : Prop :=
  ∃ ns : List Name, (∀ n ∈ ns, IsName n) ∧ p.bytes = slash :: joined slash ns

/-- The path is written as steps outwards, if any, and names after them. -/
def FromHere (p : Path) : Prop :=
  ∃ (k : Nat) (ns : List Name), (∀ n ∈ ns, IsName n)
    ∧ p.bytes = joined slash (List.replicate k [dot, dot] ++ ns)

theorem bytes_ofComponents_ups (k : Nat) (hns : ∀ n ∈ ns, IsName n) :
    (ofComponents (List.replicate k Component.up ++ ns.map .name)).bytes
      =
    joined slash (List.replicate k [dot, dot] ++ ns) := by
  rw [ofComponents_of_isStep (isStep_ups_names k hns), List.map_append, List.map_replicate,
    Component.map_bytes_name]
  rfl

theorem fromRoot_normalize (h : p.isAbsolute = true) : p.normalize.FromRoot := by
  obtain ⟨ns, hns, hp⟩ := exists_names_of_isAbsolute (isAbsolute_normalize h) p.normalize_normalize
  refine ⟨ns, hns, ?_⟩
  rw [hp, bytes_ofComponents_root]

theorem fromHere_normalize (h : p.isAbsolute = false) : p.normalize.FromHere := by
  obtain ⟨lead, ns, hcs, hlead⟩ := p.isNormal_resolve
  have hmem : ∀ c ∈ lead ++ ns.map .name, c ∈ p.components := by
    intro c hc
    rw [← hcs] at hc
    exact mem_of_mem_resolve hc
  have hns : ∀ n ∈ ns, IsName n := by
    intro n hn
    apply @isName_of_mem_components p
    apply hmem
    exact List.mem_append_right _ (List.mem_map_of_mem hn)
  rcases hlead with hlead | ⟨k, hlead⟩
  . have habs : p.isAbsolute = true := by
      apply isAbsolute_of_root_mem
      apply hmem
      rw [hlead]
      exact .head _
    rw [h] at habs
    cases habs
  . refine ⟨k, ns, hns, ?_⟩
    rw [normalize, hcs, hlead, bytes_ofComponents_ups k hns]

theorem FromRoot.normalize_eq (h : p.FromRoot) : p.normalize = p := by
  obtain ⟨ns, hns, hp⟩ := h
  obtain rfl : p = ofComponents (.root :: ns.map .name) :=
    congrArg Path.mk (hp.trans (bytes_ofComponents_root ns).symm)
  exact normalize_ofComponents_root hns

theorem FromHere.normalize_eq (h : p.FromHere) : p.normalize = p := by
  obtain ⟨k, ns, hns, hp⟩ := h
  obtain rfl : p = ofComponents (List.replicate k Component.up ++ ns.map Component.name) :=
    congrArg Path.mk (hp.trans (bytes_ofComponents_ups k hns).symm)
  apply normalize_ofComponents
  . exact ⟨_, ns, rfl, .inr ⟨k, rfl⟩⟩
  . intro n hn
    exact isStep_ups_names k hns _ hn

/-- A path is its own normal form exactly if it is written without detours. -/
theorem normalize_eq_self_iff : p.normalize = p ↔ p.FromRoot ∨ p.FromHere := by
  constructor
  . intro h
    rw [← h]
    cases habs : p.isAbsolute with
    | true => exact .inl (fromRoot_normalize habs)
    | false => exact .inr (fromHere_normalize habs)
  . rintro (h | h)
    . exact h.normalize_eq
    . exact h.normalize_eq

/-- A relative path leads where its pieces lead, also if it begins with a dot. -/
theorem resolve_components_of_relative (hq : q.isAbsolute = false) :
    resolve q.components = resolve (steps q.bytes) := by
  rcases q with ⟨bytes⟩
  rcases isPlain_or bytes with hplain | ⟨rest, rfl⟩ | ⟨rest, rfl, hhere⟩
  . rw [components_of_isPlain hplain]
  . simp [isAbsolute] at hq
  . have hrest : steps (dot :: rest) = steps rest := by
      rcases (startsHere_cons_iff.mp hhere).2 with rfl | hslash
      . rfl
      . obtain ⟨more, rfl⟩ := List.head?_eq_some_iff.mp hslash
        exact (steps_append_cons [dot] more).trans (steps_append_cons [] more).symm
    rw [components_here hhere, hrest]
    rfl

theorem resolve_components_join (p : Path) (hq : q.isAbsolute = false) :
    resolve (p.join q).components = resolve (p.components ++ steps q.bytes) := by
  by_cases hp : p.bytes = []
  . obtain rfl : p = ⟨[]⟩ := congrArg Path.mk hp
    rw [empty_join]
    exact resolve_components_of_relative hq
  . rw [components_join_of_ne_nil hp hq]

theorem normalize_join_normalize (p q : Path) :
    (p.normalize.join q).normalize = (p.join q).normalize := by
  cases hq : q.isAbsolute with
  | true => simp [join, hq]
  | false =>
    apply normalize_eq_of_components
    rw [components_normalize, components_normalize, resolve_components_join _ hq,
      resolve_components_join _ hq, components_normalize, resolve_append p.isNormal_resolve]

theorem normalize_join_here (p : Path) : (p.join ⟨[dot]⟩).normalize = p.normalize := by
  have hsteps : steps [dot] = [] := by decide
  apply normalize_eq_of_components
  rw [components_normalize, components_normalize, resolve_components_join p (by decide), hsteps,
    List.append_nil]

theorem normalize_child_join_up (p : Path) {n : Name} (hn : IsName n) :
    ((p.child n).join ⟨[dot, dot]⟩).normalize = p.normalize := by
  have hsteps : steps [dot, dot] = [.up] := by decide
  apply normalize_eq_of_components
  rw [components_normalize, components_normalize, resolve_components_join _ (by decide), hsteps,
    components_child p hn, resolve, List.foldl_append, List.foldl_append]
  rfl

theorem relativeTo?_normalize (p base : Path) : p.relativeTo? base.normalize = p.relativeTo? base := by
  unfold relativeTo?
  rw [normalize_normalize]

end Path

namespace Workspace

/-- Main stories, copies and files are found in the same places for either workspace. -/
structure ResolvesAs (v w : Workspace) : Prop where
  place : ∀ q, (v.root.join q).normalize = (w.root.join q).normalize
  request : ∀ settings, Job.requestFor v settings = Job.requestFor w settings
  copy : ∀ p, v.scratchPathFor? p = w.scratchPathFor? p
  file : ∀ m, (v.realPathFor? m).map Path.normalize = (w.realPathFor? m).map Path.normalize

theorem resolvesAs_normalize (ws : Workspace) :
    ResolvesAs { ws with root := ws.root.normalize } ws := by
  have hcopy : ∀ p,
      scratchPathFor? { ws with root := ws.root.normalize } p = ws.scratchPathFor? p := by
    intro p
    unfold scratchPathFor?
    rw [Path.relativeTo?_normalize]
  refine ⟨ws.root.normalize_join_normalize, ?_, hcopy, ?_⟩
  . intro settings
    unfold Job.requestFor
    dsimp only
    rw [Path.normalize_join_normalize, hcopy]
  . intro m
    unfold realPathFor?
    cases ws.scratch with
    | none => rfl
    | some scratch =>
      dsimp only
      rw [Option.map_map, Option.map_map]
      apply congrArg (Option.map · _)
      funext rel
      exact ws.root.normalize_join_normalize rel

end Workspace

/-- The normal form of a path from the root is made of names, and that of a relative one of steps
outwards and then names, and these paths are their own normal forms. Dots are resolved: one changes
nothing, and two take back the name before them, or nothing at the root. A path leads to the same
place from another path and from its normal form. So whatever happened to a registered workspace, it
finds main stories, copies and files just where it would find them from the path of its URI. -/
theorem Path.normalize_composes :
    (∀ p : Path, (p.isAbsolute = true → p.normalize.FromRoot)
        ∧ (p.isAbsolute = false → p.normalize.FromHere))
      ∧ (∀ p : Path, p.normalize = p ↔ p.FromRoot ∨ p.FromHere)
      ∧ (∀ p : Path, p.normalize.normalize = p.normalize)
      ∧ ((∀ p : Path, (p.join ⟨[dot]⟩).normalize = p.normalize)
        ∧ (∀ (p : Path) (n : Name), IsName n →
          ((p.child n).join ⟨[dot, dot]⟩).normalize = p.normalize)
        ∧ (rootDir.join ⟨[dot, dot]⟩).normalize = rootDir)
      ∧ (∀ p q : Path, (p.join q).normalize = (p.normalize.join q).normalize)
      ∧ ∀ (es : List Event) (s : Flight), Flight.History es s →
        ∀ (u : String) (x : Entry), s.registry.get? u = some x →
        ∃ given, Uri.toPath u = .ok given ∧ x.root = given.normalize
          ∧ (x.snapshot u).ResolvesAs { x.snapshot u with root := given } := by
  refine ⟨fun p => ⟨fromRoot_normalize, fromHere_normalize⟩, fun p => normalize_eq_self_iff,
    normalize_normalize, ⟨normalize_join_here, fun p n => normalize_child_join_up p, by decide⟩,
    fun p q => (normalize_join_normalize p q).symm, ?_⟩
  intro es s h u x hx
  obtain ⟨given, hgiven, hroot⟩ := Flight.rootOf_of_get? h hx
  refine ⟨given, hgiven, hroot, ?_⟩
  have hsnapshot : x.snapshot u = { x.snapshot u with root := given.normalize } := by
    rw [← hroot]
    rfl
  rw [hsnapshot]
  exact Workspace.resolvesAs_normalize { x.snapshot u with root := given }

/-- A workspace was registered by a way around and copied. -/
theorem Flight.history_detour :
    ∃ es s, History es s
      ∧ s.registry.get? "/v/.././w" = some ⟨.ofString "/w", .ready (.ofString "/s"), 1⟩ :=
  ⟨_, _, history_of_acts? [.register "/v/.././w", .call "/v/.././w", .advance 0,
    .settle 0 (.ok (.ofString "/s")), .tell 0] .refl rfl, rfl⟩

theorem Path.normalize_composes_detour :
    (Path.ofString "a/../.././b").normalize.FromHere
      ∧ ∃ es s, Flight.History es s
        ∧ s.registry.get? "/v/.././w" = some ⟨.ofString "/w", .ready (.ofString "/s"), 1⟩
        ∧ Workspace.ResolvesAs ⟨"/v/.././w", .ofString "/w", some (.ofString "/s")⟩
          ⟨"/v/.././w", .ofString "/v/.././w", some (.ofString "/s")⟩ := by
  obtain ⟨hform, _, _, _, _, hworkspace⟩ := normalize_composes
  obtain ⟨es, s, hhistory, hentry⟩ := Flight.history_detour
  obtain ⟨given, hgiven, _, hresolves⟩ := hworkspace es s hhistory _ _ hentry
  cases hgiven
  exact ⟨(hform _).2 (by decide), es, s, hhistory, hentry, hresolves⟩

end InkServer
