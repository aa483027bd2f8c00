import InkServer.Path.Normal
import InkServer.Proofs.Path.Components

/-!
This module contains the laws of the normal form of a path: which steps it consists of, that it is
its own normal form, and what the relative location of one path below another is.
-/

namespace InkServer

open Text

namespace Path

variable {p q base : Path} {cs ds acc : List Component} {c : Component} {ns ms : List Name}

/-- The steps lead from the root or from a folder further out along names. -/
def IsNormal (cs : List Component) : Prop :=
  ∃ (lead : List Component) (ns : List Name), cs = lead ++ ns.map .name
    ∧ (lead = [.root] ∨ ∃ k, lead = List.replicate k .up)

theorem isNormal_nil : IsNormal [] :=
  ⟨[], [], rfl, .inr ⟨0, rfl⟩⟩

theorem IsNormal.concat_name (h : IsNormal cs) (n : Name) : IsNormal (cs ++ [.name n]) := by
  obtain ⟨lead, ns, hcs, hlead⟩ := h
  refine ⟨lead, ns ++ [n], ?_, hlead⟩
  rw [hcs, List.append_assoc, List.map_append, List.map_singleton]

theorem IsNormal.resolveStep (h : IsNormal acc.reverse) (hc : c.IsStep) :
    IsNormal (resolveStep acc c).reverse := by
  cases c with
  | root => exact absurd hc (by simp [Component.IsStep])
  | here => exact absurd hc (by simp [Component.IsStep])
  | name n =>
    rw [Path.resolveStep, List.reverse_cons]
    . exact h.concat_name n
    all_goals simp
  | up =>
    obtain ⟨lead, ns, hacc, hlead⟩ := h
    cases hns : ns.getLast? with
    | some n =>
      -- The innermost name goes.
      obtain ⟨front, hfront⟩ := List.getLast?_eq_some_iff.mp hns
      have hacc : acc = .name n :: (lead ++ front.map Component.name).reverse := by
        rw [← List.reverse_reverse acc, hacc, hfront]
        simp
      rw [hacc, Path.resolveStep, List.reverse_reverse]
      exact ⟨lead, front, rfl, hlead⟩
    | none =>
      rw [List.getLast?_eq_none_iff] at hns
      rw [hns, List.map_nil, List.append_nil] at hacc
      rcases hlead with hlead | ⟨k, hlead⟩
      . have hacc : acc = [.root] := by
          rw [← List.reverse_reverse acc, hacc, hlead]
          rfl
        rw [hacc]
        exact ⟨[.root], [], rfl, .inl rfl⟩
      . have hacc : acc = List.replicate k .up := by
          rw [← List.reverse_reverse acc, hacc, hlead, List.reverse_replicate]
        have hstep : Path.resolveStep acc .up = List.replicate (k + 1) .up := by
          rw [hacc]
          cases k with
          | zero => rfl
          | succ k => rfl
        rw [hstep, List.reverse_replicate]
        exact ⟨_, [], (List.append_nil _).symm, .inr ⟨k + 1, rfl⟩⟩

theorem IsNormal.foldl_resolveStep (h : IsNormal acc.reverse) (hcs : ∀ c ∈ cs, c.IsStep) :
    IsNormal (cs.foldl Path.resolveStep acc).reverse := by
  induction cs generalizing acc with
  | nil => exact h
  | cons c cs ih =>
    rw [List.foldl_cons]
    exact ih (h.resolveStep (hcs c (.head _))) fun d hd => hcs d (.tail _ hd)

theorem isNormal_resolve (p : Path) : IsNormal (resolve p.components) := by
  have htail : ∀ c ∈ p.components.tail, c.IsStep := fun c hc => isStep_of_mem_tail hc
  unfold resolve
  cases hcs : p.components with
  | nil => exact isNormal_nil
  | cons c cs =>
    rw [hcs, List.tail_cons] at htail
    rw [List.foldl_cons]
    refine IsNormal.foldl_resolveStep ?_ htail
    have hc : c ∈ p.components := by rw [hcs]; exact .head _
    rcases isStep_of_mem_components hc with hc | hc | hc
    . rw [hc]
      exact ⟨[.root], [], rfl, .inl rfl⟩
    . rw [hc]
      exact isNormal_nil
    . exact @IsNormal.resolveStep [] c isNormal_nil hc

theorem mem_resolveStep {d : Component} (h : d ∈ resolveStep acc c) : d ∈ acc ∨ d = c := by
  unfold resolveStep at h
  split at h
  . exact .inl h
  . exact .inl (.tail _ h)
  . exact .inl h
  . exact (List.mem_cons.mp h).symm

theorem mem_foldl_resolveStep {d : Component} (h : d ∈ cs.foldl resolveStep acc) :
    d ∈ acc ∨ d ∈ cs := by
  induction cs generalizing acc with
  | nil => exact .inl h
  | cons c cs ih =>
    rw [List.foldl_cons] at h
    cases ih h with
    | inl h =>
      rw [List.mem_cons]
      exact (mem_resolveStep h).imp_right .inl
    | inr h => exact .inr (.tail _ h)

theorem mem_of_mem_resolve (h : c ∈ resolve cs) : c ∈ cs := by
  rw [resolve, List.mem_reverse] at h
  simpa using mem_foldl_resolveStep h

theorem foldl_resolveStep_names (ns : List Name) (acc : List Component) :
    (ns.map .name).foldl resolveStep acc = (ns.map .name).reverse ++ acc := by
  induction ns generalizing acc with
  | nil => rfl
  | cons n ns ih => simp [resolveStep, ih]

theorem foldl_resolveStep_ups (k m : Nat) :
    (List.replicate k Component.up).foldl resolveStep (List.replicate m .up)
      =
    List.replicate (m + k) .up := by
  induction k generalizing m with
  | zero => rfl
  | succ k ih =>
    have hstep : resolveStep (List.replicate m .up) .up = List.replicate (m + 1) .up := by
      cases m with
      | zero => rfl
      | succ m => rfl
    rw [List.replicate_succ, List.foldl_cons, hstep, ih, Nat.add_right_comm, Nat.add_assoc]

theorem IsNormal.resolve_eq (h : IsNormal cs) : resolve cs = cs := by
  obtain ⟨lead, ns, hcs, hlead⟩ := h
  have hfold : lead.foldl Path.resolveStep [] = lead.reverse := by
    rcases hlead with hlead | ⟨k, hlead⟩
    . rw [hlead]
      rfl
    . have hups := foldl_resolveStep_ups k 0
      rw [hlead, List.reverse_replicate]
      simpa using hups
  rw [hcs, resolve, List.foldl_append, hfold, foldl_resolveStep_names, List.reverse_append,
    List.reverse_reverse, List.reverse_reverse]

theorem isStep_ups_names (k : Nat) (hns : ∀ n ∈ ns, IsName n) :
    ∀ c ∈ List.replicate k Component.up ++ ns.map .name, c.IsStep := by
  intro c hc
  cases List.mem_append.mp hc with
  | inl hc =>
    rw [List.eq_of_mem_replicate hc]
    trivial
  | inr hc => exact Component.isStep_map_name hns c hc

theorem components_ofComponents_of_isNormal (h : IsNormal cs)
    (hn : ∀ n, .name n ∈ cs → IsName n) : (ofComponents cs).components = cs := by
  obtain ⟨lead, ns, hcs, hlead⟩ := h
  have hns : ∀ n ∈ ns, IsName n := by
    intro n hmem
    apply hn
    rw [hcs, List.mem_append]
    exact .inr (List.mem_map_of_mem hmem)
  rcases hlead with hlead | ⟨k, hlead⟩
  . rw [hcs, hlead]
    exact components_ofComponents_root (Component.isStep_map_name hns)
  . rw [hcs, hlead]
    exact components_ofComponents (isStep_ups_names k hns)

theorem normalize_ofComponents (h : IsNormal cs) (hn : ∀ n, .name n ∈ cs → IsName n) :
    (ofComponents cs).normalize = ofComponents cs := by
  rw [normalize, components_ofComponents_of_isNormal h hn, h.resolve_eq]

theorem normalize_ofComponents_root (hns : ∀ n ∈ ns, IsName n) :
    (ofComponents (.root :: ns.map .name)).normalize = ofComponents (.root :: ns.map .name) := by
  apply normalize_ofComponents
  . exact ⟨[.root], ns, rfl, .inl rfl⟩
  . intro n hn
    exact hns n (by simpa using hn)

@[simp]
theorem components_normalize (p : Path) : p.normalize.components = resolve p.components := by
  apply components_ofComponents_of_isNormal p.isNormal_resolve
  intro n hn
  exact isName_of_mem_components (mem_of_mem_resolve hn)

theorem isNormal_components_normalize (p : Path) : IsNormal p.normalize.components := by
  rw [components_normalize]
  exact p.isNormal_resolve

@[simp]
theorem normalize_normalize (p : Path) : p.normalize.normalize = p.normalize := by
  rw [normalize, components_normalize, p.isNormal_resolve.resolve_eq]
  rfl

theorem ofComponents_components_normalize (p : Path) :
    ofComponents p.normalize.components = p.normalize := by
  rw [components_normalize]
  rfl

theorem relativeTo?_eq_some_iff :
    p.relativeTo? base = some q
      ↔
    ∃ cs, cs ≠ [] ∧ p.normalize.components = base.normalize.components ++ cs
      ∧ q = ofComponents cs := by
  unfold relativeTo?
  constructor
  . intro h
    split at h
    . simp at h
    . simp at h
    . next rest hne hrest =>
      rw [Option.some.injEq] at h
      exact ⟨rest, hne, afterStart?_eq_some_iff.mp hrest, h.symm⟩
  . rintro ⟨cs, hne, hcs, hq⟩
    rw [afterStart?_eq_some_iff.mpr hcs]
    cases cs with
    | nil => exact absurd rfl hne
    | cons c cs => rw [hq]

/-- What follows a name or the root in a normal form are names. -/
theorem IsNormal.exists_names (h : IsNormal (cs ++ ds)) (hc : c ∈ cs) (hup : c ≠ .up) :
    ∃ ns : List Name, ds = ns.map .name := by
  obtain ⟨lead, ns, heq, hlead⟩ := h
  have hlen : lead.length ≤ cs.length := by
    -- Otherwise all of `cs` would lie in the lead, which then would consist of outward steps.
    apply Nat.le_of_not_lt
    intro hlt
    have hfront : cs = lead.take cs.length := by
      have htake := congrArg (List.take cs.length) heq
      rwa [List.take_left, List.take_append_of_le_length (Nat.le_of_lt hlt)] at htake
    rcases hlead with hlead | ⟨k, hlead⟩
    . rw [hlead, List.length_singleton, Nat.lt_one_iff, List.length_eq_zero_iff] at hlt
      simp [hlt] at hc
    . rw [hfront, hlead] at hc
      exact hup (List.eq_of_mem_replicate (List.mem_of_mem_take hc))
  refine ⟨ns.drop (cs.length - lead.length), ?_⟩
  have hdrop := congrArg (List.drop cs.length) heq
  rw [List.drop_left, List.drop_append, List.drop_eq_nil_of_le hlen, List.nil_append] at hdrop
  rw [hdrop, List.map_drop]

/-- The relative location of a path below one that does not only lead outwards is made of names. -/
theorem exists_below_of_relativeTo? (h : p.relativeTo? base = some q)
    (hc : c ∈ base.normalize.components) (hup : c ≠ .up) :
    ∃ ns : List Name, ns ≠ [] ∧ (∀ n ∈ ns, IsName n)
      ∧ p.normalize.components = base.normalize.components ++ ns.map .name
      ∧ q = ofComponents (ns.map .name) := by
  obtain ⟨cs, hne, hcs, hq⟩ := relativeTo?_eq_some_iff.mp h
  have hnormal := p.isNormal_components_normalize
  rw [hcs] at hnormal
  obtain ⟨ns, hns⟩ := hnormal.exists_names hc hup
  rw [hns] at hcs hq hne
  refine ⟨ns, by simpa using hne, ?_, hcs, hq⟩
  intro n hn
  apply @isName_of_mem_components p.normalize
  rw [hcs, List.mem_append]
  exact .inr (List.mem_map_of_mem hn)

end Path

end InkServer
