import InkServer.Proofs.Path.Inside

/-!
This module contains what the relative location of one path below another says about both. Joined to
the outer path it always leads to the inner one. It leads strictly inwards unless the outer path is
made of nothing but outward steps and the inner one leaves it.
-/

namespace InkServer

open Text

namespace Path

variable {p q r base dir : Path} {cs ds : List Component} {ns ms : List Name}

/-- Steps that are resolved one after the other can be resolved up to some point first. -/
theorem resolve_append (h : IsNormal (resolve cs)) (ds : List Component) :
    resolve (resolve cs ++ ds) = resolve (cs ++ ds) := by
  have hfold : (resolve cs).foldl resolveStep [] = cs.foldl resolveStep [] := by
    have hself := congrArg List.reverse h.resolve_eq
    rw [resolve, List.reverse_reverse, resolve, List.reverse_reverse] at hself
    exact hself
  unfold resolve at hfold ⊢
  rw [List.foldl_append, List.foldl_append, hfold]

theorem resolve_append_names (cs : List Component) (ns : List Name) :
    resolve (cs ++ ns.map .name) = resolve cs ++ ns.map .name := by
  rw [resolve, resolve, List.foldl_append, foldl_resolveStep_names, List.reverse_append,
    List.reverse_reverse]

theorem normalize_eq_of_components (h : p.normalize.components = q.normalize.components) :
    p.normalize = q.normalize := by
  rw [← ofComponents_components_normalize p, h, ofComponents_components_normalize]

/-- The normal form of a path that leads on along names leads on along them too. -/
theorem components_normalize_inside (dir : Path) (hns : ∀ n ∈ ns, IsName n) :
    (dir.inside ns).normalize.components = dir.normalize.components ++ ns.map .name := by
  rw [components_normalize, components_inside dir hns, resolve_append_names, components_normalize]

theorem normalize_join_ofComponents (hcs : ∀ c ∈ cs, c.IsStep)
    (h : p.normalize.components = base.normalize.components ++ cs) :
    (base.join (ofComponents cs)).normalize = p.normalize := by
  apply normalize_eq_of_components
  rw [components_normalize, components_join (isPlain_ofComponents hcs), components_ofComponents hcs,
    ← resolve_append base.isNormal_resolve, ← components_normalize, ← h,
    p.isNormal_components_normalize.resolve_eq]

/-- What follows the start of a normal form are steps, unless all of it is left and begins at the
root. -/
theorem IsNormal.isStep_or (h : IsNormal (cs ++ ds))
    (hn : ∀ n, .name n ∈ cs ++ ds → IsName n) :
    (∀ c ∈ ds, c.IsStep) ∨ (cs = [] ∧ .root ∈ ds) := by
  obtain ⟨lead, ns, heq, hlead⟩ := h
  have hnames : ∀ n ∈ ns, IsName n := by
    intro n hmem
    apply hn
    rw [heq, List.mem_append]
    exact .inr (List.mem_map_of_mem hmem)
  have hsteps := Component.isStep_map_name hnames
  rcases hlead with hlead | ⟨k, hlead⟩
  . cases cs with
    | nil =>
      rw [List.nil_append, hlead] at heq
      exact .inr ⟨rfl, by rw [heq]; exact .head _⟩
    | cons c cs =>
      -- The root is the first of the steps that were taken off.
      rw [hlead, List.singleton_append, List.cons_append, List.cons.injEq] at heq
      refine .inl fun d hd => hsteps d ?_
      rw [← heq.2]
      exact List.mem_append_right cs hd
  . refine .inl fun d hd => isStep_ups_names k hnames d ?_
    rw [← hlead, ← heq]
    exact List.mem_append_right cs hd

/-- The steps of a relative location are those of the inner path after those of the outer one. -/
theorem components_of_relativeTo? (h : p.relativeTo? base = some r) :
    r.components ≠ [] ∧ p.normalize.components = base.normalize.components ++ r.components
      ∧ r = ofComponents r.components
      ∧ ((∀ c ∈ r.components, c.IsStep) ∨ (r = p.normalize ∧ r.isAbsolute = true)) := by
  obtain ⟨cs, hne, hcs, hr⟩ := relativeTo?_eq_some_iff.mp h
  have hnormal := p.isNormal_components_normalize
  rw [hcs] at hnormal
  have hname : ∀ n, .name n ∈ base.normalize.components ++ cs → IsName n := by
    intro n hn
    rw [← hcs] at hn
    exact isName_of_mem_components hn
  rcases hnormal.isStep_or hname with hsteps | ⟨hnil, hroot⟩
  . have hcomponents : r.components = cs := by rw [hr, components_ofComponents hsteps]
    rw [hcomponents]
    exact ⟨hne, hcs, hr, .inl hsteps⟩
  . -- All of the inner path is left, and it starts at the root.
    rw [hnil, List.nil_append] at hcs ⊢
    have hp : r = p.normalize := by rw [hr, ← hcs, ofComponents_components_normalize]
    have habs : p.normalize.isAbsolute = true := isAbsolute_of_root_mem (by rw [hcs]; exact hroot)
    rw [hp, hcs]
    exact ⟨hne, rfl, by rw [← hcs, ofComponents_components_normalize], .inr ⟨rfl, habs⟩⟩

/-- A relative location leads from the outer path to the inner one. -/
theorem normalize_join_of_relativeTo? (h : p.relativeTo? base = some r) :
    (base.join r).normalize = p.normalize := by
  obtain ⟨_, hcs, hr, hsteps⟩ := components_of_relativeTo? h
  rcases hsteps with hsteps | ⟨hp, habs⟩
  . rw [hr]
    exact normalize_join_ofComponents hsteps hcs
  . rw [join, habs, Bool.true_or, if_pos rfl, hp, normalize_normalize]

/-- The path consists of names, of which there is at least one. -/
def IsInward (r : Path) : Prop :=
  ∃ ns : List Name, ns ≠ [] ∧ (∀ n ∈ ns, IsName n) ∧ r = ofComponents (ns.map .name)

/-- When dots are resolved, `p` is `base` followed by the given names, of which there is at least
one. -/
structure Follows (p base : Path) (ns : List Name) : Prop where
  ne_nil : ns ≠ []
  valid : ∀ n ∈ ns, IsName n
  components : p.normalize.components = base.normalize.components ++ ns.map .name

/-- When dots are resolved, `q` is `dir` followed by some names. -/
def IsStrictlyIn (q dir : Path) : Prop :=
  ∃ ns, q.Follows dir ns

/-- The outer path is made of outward steps only, if of any, and the inner one starts at the root or
goes out further than that. -/
def Leaves (p base : Path) : Prop :=
  ∃ k, base.normalize.components = List.replicate k .up
    ∧ (p.isAbsolute = true ∨ List.replicate (k + 1) .up <+: p.normalize.components)

theorem Follows.unique (h : p.Follows base ns) (h' : p.Follows base ms) : ms = ns := by
  have hsteps := h'.components.symm.trans h.components
  rw [List.append_right_inj] at hsteps
  exact (List.map_inj_right fun _ _ => Component.name.inj).mp hsteps

theorem follows_inside (dir : Path) (hne : ns ≠ []) (hns : ∀ n ∈ ns, IsName n) :
    (dir.inside ns).Follows dir ns :=
  ⟨hne, hns, components_normalize_inside dir hns⟩

theorem Follows.relativeTo?_eq (h : p.Follows base ns) :
    p.relativeTo? base = some (ofComponents (ns.map .name)) :=
  relativeTo?_eq_some_iff.mpr ⟨ns.map .name, by simpa using h.ne_nil, h.components, rfl⟩

theorem root_mem_of_isAbsolute (h : p.isAbsolute = true) : .root ∈ p.normalize.components := by
  obtain ⟨ns, _, hp⟩ := exists_names_of_isAbsolute (isAbsolute_normalize h) p.normalize_normalize
  rw [hp, ofComponents, components_root]
  exact .head _

/-- What lies inside a path from the root follows it, and nothing else does. -/
theorem relativeTo?_iff_follows (habs : base.isAbsolute = true) :
    p.relativeTo? base = some r ↔ ∃ ns, p.Follows base ns ∧ r = ofComponents (ns.map .name) := by
  constructor
  . intro h
    obtain ⟨ns, hne, hns, hcs, hr⟩ :=
      exists_below_of_relativeTo? h (root_mem_of_isAbsolute habs) (by simp)
    exact ⟨ns, ⟨hne, hns, hcs⟩, hr⟩
  . rintro ⟨ns, h, hr⟩
    rw [h.relativeTo?_eq, hr]

/-- From every folder a path of names leads strictly inwards. -/
theorem IsInward.join_isStrictlyIn (h : r.IsInward) (dir : Path) :
    (dir.join r).IsStrictlyIn dir := by
  obtain ⟨ns, hne, hns, hr⟩ := h
  rw [hr, join_ofComponents dir hne hns]
  exact ⟨ns, follows_inside dir hne hns⟩

theorem IsInward.isName_of_mem {c : Component} (h : r.IsInward) (hc : c ∈ r.components) :
    c.isName = true := by
  obtain ⟨ns, _, hns, hr⟩ := h
  rw [hr, components_ofComponents (Component.isStep_map_name hns)] at hc
  obtain ⟨n, _, heq⟩ := List.mem_map.mp hc
  rw [← heq]
  rfl

theorem not_isInward_of_leaves (h : p.relativeTo? base = some r) (hl : p.Leaves base) :
    ¬r.IsInward := by
  intro hin
  obtain ⟨_, hcs, _, _⟩ := components_of_relativeTo? h
  obtain ⟨k, hbase, hout⟩ := hl
  rw [hbase] at hcs
  rcases hout with habs | ⟨rest, hout⟩
  . -- The root stands before all outward steps, so there are none.
    have hroot := root_mem_of_isAbsolute habs
    rw [hcs, List.mem_append] at hroot
    rcases hroot with hroot | hroot
    . cases List.eq_of_mem_replicate hroot
    . cases hin.isName_of_mem hroot
  . rw [hcs, List.replicate_succ', List.append_assoc, List.append_right_inj] at hout
    have hup : .up ∈ r.components := by
      rw [← hout]
      exact .head _
    cases hin.isName_of_mem hup

theorem isInward_of_not_leaves (h : p.relativeTo? base = some r) (hl : ¬p.Leaves base) :
    r.IsInward := by
  by_cases hups : ∀ c ∈ base.normalize.components, c = .up
  . obtain ⟨hne, hcs, hr, _⟩ := components_of_relativeTo? h
    have hbase := List.eq_replicate_of_mem hups
    obtain ⟨habs, hout⟩ := not_or.mp fun hout => hl ⟨_, hbase, hout⟩
    generalize base.normalize.components.length = k at hbase hout
    obtain ⟨lead, ns, hnormal, hlead⟩ := p.isNormal_components_normalize
    obtain ⟨j, hlead⟩ := hlead.resolve_left fun hroot => habs (isAbsolute_of_root_mem
      (mem_of_mem_resolve (by rw [← components_normalize, hnormal, hroot]; exact .head _)))
    -- The inner path does not go out further than the outer one, so names are left.
    have hle : j ≤ k := by
      apply Nat.le_of_not_lt
      intro hlt
      have hups : List.replicate (k + 1) .up <+: lead := by
        rw [hlead, List.prefix_replicate_iff]
        exact ⟨by rw [List.length_replicate]; exact hlt, by simp⟩
      apply hout
      rw [hnormal]
      exact hups.trans (List.prefix_append _ _)
    have hrest : r.components = (ns.drop (k - j)).map .name := by
      have hdrop := congrArg (List.drop k) (hcs.symm.trans hnormal)
      rw [hbase, hlead, List.drop_left' List.length_replicate, List.drop_append,
        List.drop_eq_nil_of_le (by simpa using hle), List.nil_append, List.length_replicate] at hdrop
      rw [hdrop, List.map_drop]
    refine ⟨ns.drop (k - j), ?_, ?_, by rw [← hrest, ← hr]⟩
    . rintro hnil
      rw [hrest, hnil] at hne
      exact hne rfl
    . intro n hn
      apply @isName_of_mem_components r
      rw [hrest]
      exact List.mem_map_of_mem hn
  . obtain ⟨c, hc⟩ := Classical.not_forall.mp hups
    obtain ⟨hmem, hup⟩ := Classical.not_imp.mp hc
    obtain ⟨ns, hne, hns, _, hr⟩ := exists_below_of_relativeTo? h hmem hup
    exact ⟨ns, hne, hns, hr⟩

/-- The relative location of one path below another leads from the outer path to the inner one. It is
made of names, and then leads strictly inwards from every folder, unless the outer path is made of
outward steps only and the inner one leaves it. -/
theorem relativeTo?_inward_iff (h : p.relativeTo? base = some r) :
    (base.join r).normalize = p.normalize
      ∧ ((r.IsInward ∧ ∀ dir : Path, (dir.join r).IsStrictlyIn dir) ↔ ¬p.Leaves base) := by
  refine ⟨normalize_join_of_relativeTo? h, ?_⟩
  constructor
  . rintro ⟨hin, _⟩ hl
    exact not_isInward_of_leaves h hl hin
  . intro hl
    have hin := isInward_of_not_leaves h hl
    exact ⟨hin, hin.join_isStrictlyIn⟩

/-- Below a folder further out there is a file, given by a way around. -/
theorem relativeTo?_inward_sibling :
    (Path.ofString "../x/../b/./c//d.ink").relativeTo? (.ofString ".././b/")
        = some (.ofString "c/d.ink")
      ∧ (Path.ofString "c/d.ink").IsInward
      ∧ ((Path.ofString "/s/..").join (.ofString "c/d.ink")).IsStrictlyIn (.ofString "/s/..") := by
  have h : (Path.ofString "../x/../b/./c//d.ink").relativeTo? (.ofString ".././b/")
      = some (.ofString "c/d.ink") := by decide
  have hbase : (Path.ofString ".././b/").normalize.components = [.up, .name (bytesOf "b")] := by
    decide
  have hstays : ¬(Path.ofString "../x/../b/./c//d.ink").Leaves (.ofString ".././b/") := by
    rintro ⟨k, hups, _⟩
    have hname : .name (bytesOf "b") ∈ List.replicate k Component.up := by
      rw [← hups, hbase]
      exact .tail _ (.head _)
    cases List.eq_of_mem_replicate hname
  obtain ⟨hin, hdir⟩ := (relativeTo?_inward_iff h).2.mpr hstays
  exact ⟨h, hin, hdir _⟩

/-- The folder `..` counts as lying below `.`, the file `../../x` below `..`, and `/x` below a folder
that is given by a way in and out again. Their relative locations lead out of a folder. -/
theorem relativeTo?_leads_out :
    ((Path.ofString "..").relativeTo? (.ofString ".") = some (.ofString "..")
        ∧ ¬(Path.ofString "..").IsInward)
      ∧ ((Path.ofString "../../x").relativeTo? (.ofString "..") = some (.ofString "../x")
        ∧ ¬((Path.ofString "/s").join (.ofString "../x")).IsStrictlyIn (.ofString "/s"))
      ∧ ((Path.ofString "/x").relativeTo? (.ofString "a/..") = some (.ofString "/x")
        ∧ ¬((Path.ofString "/s").join (.ofString "/x")).IsStrictlyIn (.ofString "/s")) := by
  have hs : (Path.ofString "/s").normalize.components = [.root, .name (bytesOf "s")] := by decide
  have hx : ∀ q : Path, q.normalize.components = [.root, .name (bytesOf "x")] →
      ¬q.IsStrictlyIn (.ofString "/s") := by
    rintro q hq ⟨ns, h⟩
    have heq := h.components
    rw [hq, hs, List.cons_append, List.cons_append, List.cons.injEq, List.cons.injEq] at heq
    exact absurd heq.2.1 (by decide)
  refine ⟨⟨by decide, ?_⟩, ⟨by decide, hx _ (by decide)⟩, ⟨by decide, hx _ (by decide)⟩⟩
  intro hin
  exact absurd (@IsInward.isName_of_mem _ .up hin (by decide)) (by decide)

end Path

end InkServer
