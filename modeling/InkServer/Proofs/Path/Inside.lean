import InkServer.Proofs.Path.Normal

/-!
This module contains the paths that lead on from a folder along names, step by step, and how they are
written.
-/

namespace InkServer

open Text

namespace Path

variable {p q : Path} {n m : Name} {ns ms : List Name}

/-- The last piece of the path is a name. -/
def IsNamed (p : Path) : Prop :=
  ∃ ps n, pieces slash p.bytes = ps ++ [n] ∧ IsName n

theorem IsNamed.getLast?_ne (hp : p.IsNamed) : p.bytes.getLast? ≠ some slash := by
  intro hlast
  obtain ⟨ps, n, hps, hn⟩ := hp
  obtain ⟨front, hfront⟩ := List.getLast?_eq_some_iff.mp hlast
  -- After the slash stands the empty piece.
  rw [hfront, pieces_append_cons] at hps
  exact hn.ne_nil (List.append_singleton_inj.mp hps).2.symm

theorem IsNamed.ne_nil (hp : p.IsNamed) : p.bytes ≠ [] := by
  intro hnil
  obtain ⟨ps, n, hps, hn⟩ := hp
  have hone : [] ++ [[]] = ps ++ [n] := by rw [← hps, hnil]; rfl
  exact hn.ne_nil (List.append_singleton_inj.mp hone).2.symm

theorem isAbsolute_name (hn : IsName n) : (Path.mk n).isAbsolute = false := by
  simpa [isAbsolute] using (isPlain_name hn).1

theorem IsNamed.bytes_child (hp : p.IsNamed) (hn : IsName n) :
    (p.child n).bytes = p.bytes ++ slash :: n := by
  have hne := hp.ne_nil
  unfold child join
  rw [isAbsolute_name hn, Bool.false_or, if_neg (by simpa using hne), if_neg hp.getLast?_ne]

theorem IsNamed.pieces_child (hp : p.IsNamed) (hn : IsName n) :
    pieces slash (p.child n).bytes = pieces slash p.bytes ++ [n] := by
  rw [hp.bytes_child hn, pieces_append_cons, pieces_of_not_mem hn.slash_not_mem]

theorem isNamed_child (p : Path) (hn : IsName n) : (p.child n).IsNamed := by
  have hpieces := pieces_of_not_mem hn.slash_not_mem
  unfold child join
  rw [isAbsolute_name hn, Bool.false_or]
  split
  . exact ⟨[], n, hpieces, hn⟩
  . split
    . next hlast =>
      obtain ⟨front, hfront⟩ := List.getLast?_eq_some_iff.mp hlast
      refine ⟨pieces slash front, n, ?_, hn⟩
      rw [hfront, List.append_assoc, List.singleton_append, pieces_append_cons, hpieces]
    . refine ⟨pieces slash p.bytes, n, ?_, hn⟩
      rw [pieces_append_cons, hpieces]

theorem IsNamed.inside (hp : p.IsNamed) (hns : ∀ n ∈ ns, IsName n) : (p.inside ns).IsNamed := by
  induction ns generalizing p with
  | nil => exact hp
  | cons n ns ih => exact ih (isNamed_child p (hns n (.head _))) fun m hm => hns m (.tail _ hm)

theorem IsNamed.pieces_inside (hp : p.IsNamed) (hns : ∀ n ∈ ns, IsName n) :
    pieces slash (p.inside ns).bytes = pieces slash p.bytes ++ ns := by
  induction ns generalizing p with
  | nil => simp
  | cons n ns ih =>
    have hn := hns n (.head _)
    have hrest := ih (isNamed_child p hn) fun m hm => hns m (.tail _ hm)
    rw [hp.pieces_child hn, List.append_assoc, List.singleton_append] at hrest
    exact hrest

theorem IsNamed.isAbsolute_inside (hp : p.IsNamed) (hns : ∀ n ∈ ns, IsName n) :
    (p.inside ns).isAbsolute = p.isAbsolute := by
  induction ns generalizing p with
  | nil => rfl
  | cons n ns ih =>
    have hn := hns n (.head _)
    have hne := hp.ne_nil
    have hrest := ih (isNamed_child p hn) fun m hm => hns m (.tail _ hm)
    refine hrest.trans ?_
    unfold isAbsolute
    rw [hp.bytes_child hn, List.head?_append]
    cases hb : p.bytes with
    | nil => exact absurd hb hne
    | cons b bytes => simp

theorem IsNamed.length_inside_le (hp : p.IsNamed) (hns : ∀ n ∈ ns, IsName n) :
    p.bytes.length ≤ (p.inside ns).bytes.length := by
  induction ns generalizing p with
  | nil => exact Nat.le_refl _
  | cons n ns ih =>
    have hn := hns n (.head _)
    have hrest := ih (isNamed_child p hn) fun m hm => hns m (.tail _ hm)
    rw [hp.bytes_child hn, List.length_append] at hrest
    exact Nat.le_trans (Nat.le_add_right _ _) hrest

theorem IsNamed.mem_inside (hp : p.IsNamed) (hns : ∀ n ∈ ns, IsName n) {b : UInt8}
    (hb : b ∈ p.bytes) : b ∈ (p.inside ns).bytes := by
  induction ns generalizing p with
  | nil => exact hb
  | cons n ns ih =>
    have hn := hns n (.head _)
    refine ih (isNamed_child p hn) (fun m hm => hns m (.tail _ hm)) ?_
    rw [hp.bytes_child hn]
    exact List.mem_append_left _ hb

theorem IsNamed.bytes_inside (hp : p.IsNamed) (hne : ns ≠ []) (hns : ∀ n ∈ ns, IsName n) :
    (p.inside ns).bytes = p.bytes ++ slash :: joined slash ns := by
  induction ns generalizing p with
  | nil => exact absurd rfl hne
  | cons n ns ih =>
    have hn := hns n (.head _)
    have hb := hp.bytes_child hn
    cases ns with
    | nil => exact hb
    | cons m ms =>
      have hrest := ih (isNamed_child p hn) (by simp) fun k hk => hns k (.tail _ hk)
      rw [hb, List.append_assoc, List.cons_append] at hrest
      exact hrest

theorem bytes_join_append (p : Path) (hn : IsName n) (rest : Bytes) :
    (p.join ⟨n ++ rest⟩).bytes = (p.child n).bytes ++ rest := by
  have habs : (Path.mk (n ++ rest)).isAbsolute = (Path.mk n).isAbsolute := by
    cases n with
    | nil => exact absurd rfl hn.ne_nil
    | cons b bytes => rfl
  unfold child join
  rw [habs]
  split
  . rfl
  . split
    . rw [List.append_assoc]
    . rw [List.append_assoc, List.cons_append]

/-- To join names to a path is to go on along them. -/
theorem join_ofComponents (p : Path) (hne : ns ≠ []) (hns : ∀ n ∈ ns, IsName n) :
    p.join (ofComponents (ns.map .name)) = p.inside ns := by
  rw [ofComponents_of_isStep (Component.isStep_map_name hns), Component.map_bytes_name]
  cases ns with
  | nil => exact absurd rfl hne
  | cons n ns =>
    have hn := hns n (.head _)
    cases ns with
    | nil => rfl
    | cons m ms =>
      rw [Path.mk.injEq, inside_cons, (isNamed_child p hn).bytes_inside (by simp) fun k hk =>
        hns k (.tail _ hk), ← bytes_join_append p hn]
      rfl

theorem trimPieces_concat (ps : List Bytes) (hn : IsName n) : trimPieces (ps ++ [n]) = ps ++ [n] := by
  have hstep : Component.ofPiece? n = some (.name n) := by
    simp [Component.ofPiece?, hn.ne_nil, hn.ne_here, hn.ne_up]
  unfold trimPieces
  rw [List.reverse_append, List.reverse_singleton, List.singleton_append, List.dropWhile_cons, hstep]
  simp

theorem splitLead_of_isPlain (h : p.IsPlain) : splitLead p.bytes = (none, p.bytes) := by
  unfold splitLead
  cases hb : p.bytes with
  | nil => rfl
  | cons b rest =>
    have hslash : b ≠ slash := by simpa [hb] using h.1
    have hhere := h.2
    rw [hb] at hhere
    simp [hslash, hhere]

/-- What follows the lead of a path that ends in a name ends in that name too. -/
theorem IsNamed.splitLead (hp : p.IsNamed) :
    ∃ lead body ps n, ((lead.map Component.bytes).getD [] ++ body = p.bytes)
      ∧ pieces slash body = ps ++ [n] ∧ IsName n
      ∧ ∀ rest, splitLead (p.bytes ++ slash :: rest) = (lead, body ++ slash :: rest) := by
  have hne := hp.ne_nil
  obtain ⟨ps, n, hps, hn⟩ := hp
  rcases p with ⟨bytes⟩
  dsimp only at hps hne ⊢
  have hlast : ∀ first tail, first :: pieces slash tail = ps ++ [n] →
      ∃ qs, pieces slash tail = qs ++ [n] := by
    intro first tail h
    rcases List.cons_eq_append_iff.mp h with ⟨_, h⟩ | ⟨qs, _, h⟩
    . exact absurd (List.cons.inj h).2.symm (pieces_ne_nil slash tail)
    . exact ⟨qs, h⟩
  rcases isPlain_or bytes with hplain | ⟨tail, rfl⟩ | ⟨tail, rfl, hhere⟩
  . exact ⟨none, bytes, ps, n, rfl, hps, hn,
      fun rest => splitLead_of_isPlain (hplain.append_cons hne rest)⟩
  . rw [pieces, if_pos rfl] at hps
    obtain ⟨qs, hqs⟩ := hlast _ _ hps
    refine ⟨some .root, tail, qs, n, rfl, hqs, hn, ?_⟩
    intro rest
    simp [Path.splitLead]
  . cases tail with
    | nil =>
      have hone : [] ++ [[dot]] = ps ++ [n] := hps
      exact absurd (List.append_singleton_inj.mp hone).2.symm hn.ne_here
    | cons b tail =>
      have hb : b = slash := by simpa using (startsHere_cons_iff.mp hhere).2
      subst hb
      have hpieces : [dot] :: pieces slash tail = ps ++ [n] := by
        rw [← hps]
        exact (pieces_append_cons slash [dot] tail).symm
      obtain ⟨qs, hqs⟩ := hlast _ _ hpieces
      refine ⟨some .here, slash :: tail, [] :: qs, n, rfl, ?_, hn, ?_⟩
      . rw [pieces, if_pos rfl, hqs, List.cons_append]
      . intro rest
        have hdot : dot ≠ slash := by decide
        simp [Path.splitLead, startsHere, hdot]

theorem IsNamed.parent?_child (hp : p.IsNamed) (hn : IsName n) : (p.child n).parent? = some p := by
  obtain ⟨lead, body, ps, m, hbytes, hps, hm, hlead⟩ := hp.splitLead
  unfold parent?
  rw [hp.bytes_child hn, hlead n]
  dsimp only
  rw [pieces_append_cons, pieces_of_not_mem hn.slash_not_mem, trimPieces_concat _ hn,
    List.reverse_append, List.reverse_singleton, List.singleton_append]
  dsimp only
  rw [List.reverse_reverse, hps, trimPieces_concat _ hm, ← hps, joined_pieces, hbytes]

theorem IsNamed.parent?_inside (hp : p.IsNamed) (hne : ns ≠ []) (hns : ∀ n ∈ ns, IsName n) :
    (p.inside ns).parent? = some (p.inside ns.dropLast) := by
  have hfront : ∀ n ∈ ns.dropLast, IsName n := fun n hn =>
    hns n ((List.dropLast_sublist ns).subset hn)
  have hlast := List.dropLast_concat_getLast hne
  rw [← hlast, inside_concat, List.dropLast_concat]
  exact (hp.inside hfront).parent?_child (hns _ (List.getLast_mem hne))

/-- An absolute normal path other than the root ends in a name. -/
theorem isNamed_ofComponents (hne : ns ≠ []) (hns : ∀ n ∈ ns, IsName n) :
    (ofComponents (.root :: ns.map .name)).IsNamed := by
  refine ⟨[] :: ns.dropLast, ns.getLast hne, ?_, hns _ (List.getLast_mem hne)⟩
  rw [ofComponents, Component.map_bytes_name, pieces, if_pos rfl,
    pieces_joined hne fun n hn => (hns n hn).slash_not_mem, List.cons_append,
    List.dropLast_concat_getLast]

theorem isNamed_ofComponents_names (hne : ns ≠ []) (hns : ∀ n ∈ ns, IsName n) :
    (ofComponents (ns.map .name)).IsNamed := by
  refine ⟨ns.dropLast, ns.getLast hne, ?_, hns _ (List.getLast_mem hne)⟩
  rw [ofComponents_of_isStep (Component.isStep_map_name hns), Component.map_bytes_name,
    pieces_joined hne fun n hn => (hns n hn).slash_not_mem, List.dropLast_concat_getLast]

/-- An absolute normal path is followed by names as it is written. -/
theorem inside_ofComponents (hne : ns ≠ []) (hns : ∀ n ∈ ns, IsName n) (hms : ∀ n ∈ ms, IsName n) :
    (ofComponents (.root :: ns.map .name)).inside ms
      =
    ofComponents (.root :: (ns ++ ms).map .name) := by
  by_cases hms' : ms = []
  . simp [hms']
  . rw [Path.mk.injEq, (isNamed_ofComponents hne hns).bytes_inside hms' hms]
    simp only [ofComponents, Component.map_bytes_name, List.cons_append]
    rw [joined_append slash hne hms']

/-- A normal path that ends in a name is followed by names as it is written. -/
theorem IsNamed.ofComponents_append (hp : p.IsNamed) (hn : p.normalize = p)
    (hns : ∀ n ∈ ns, IsName n) : ofComponents (p.components ++ ns.map .name) = p.inside ns := by
  have hof := ofComponents_components_normalize p
  rw [hn] at hof
  by_cases hne : ns = []
  . simp [hne, hof]
  . rw [Path.mk.injEq, hp.bytes_inside hne hns]
    have hlast := hp.getLast?_ne
    have hnil := hp.ne_nil
    cases hcs : p.components with
    | nil =>
      rw [hcs] at hof
      rw [← hof] at hnil
      exact absurd rfl hnil
    | cons c cs =>
      rw [hcs] at hof
      by_cases hroot : c = .root
      . rw [hroot, ofComponents] at hof
        have hcs_ne : cs.map Component.bytes ≠ [] := by
          intro hempty
          rw [← hof, hempty] at hlast
          exact hlast rfl
        rw [hroot, List.cons_append, ofComponents, List.map_append, Component.map_bytes_name,
          joined_append slash hcs_ne hne, ← hof]
        rfl
      . have hplain : ∀ ds, (ofComponents (c :: ds)).bytes
            = joined slash ((c :: ds).map Component.bytes) := by
          intro ds
          rw [ofComponents]
          simpa using hroot
        have hbytes := congrArg Path.bytes hof
        rw [hplain] at hbytes
        rw [List.cons_append, hplain, ← List.cons_append, List.map_append, Component.map_bytes_name,
          joined_append slash (by simp) hne, hbytes]

/-- A normal path that starts at the root and does not end there. -/
structure IsPlace (p : Path) : Prop where
  isAbsolute : p.isAbsolute = true
  normal : p.normalize = p
  isNamed : p.IsNamed

theorem exists_names_of_isAbsolute (habs : p.isAbsolute = true) (hn : p.normalize = p) :
    ∃ ns : List Name, (∀ n ∈ ns, IsName n) ∧ p = ofComponents (.root :: ns.map .name) := by
  have hroot : ∃ cs, p.components = .root :: cs := by
    rcases p with ⟨bytes⟩
    rcases isPlain_or bytes with hplain | ⟨tail, rfl⟩ | ⟨tail, rfl, _⟩
    . exact absurd (by simpa [isAbsolute] using habs) hplain.1
    . exact ⟨_, components_root tail⟩
    . exact absurd habs (by simp [isAbsolute, dot, slash])
  obtain ⟨cs, hcs⟩ := hroot
  obtain ⟨lead, ns, heq, hlead⟩ := p.isNormal_components_normalize
  have hof := ofComponents_components_normalize p
  rw [hn] at heq hof
  have hlead : lead = [.root] := by
    rcases hlead with hlead | ⟨k, hlead⟩
    . exact hlead
    . rw [hcs, hlead] at heq
      cases k with
      | zero =>
        cases ns with
        | nil => simp at heq
        | cons n ns => simp at heq
      | succ k => simp [List.replicate_succ] at heq
  rw [hlead, List.singleton_append] at heq
  rw [heq] at hof
  refine ⟨ns, ?_, hof.symm⟩
  intro n hn
  apply @isName_of_mem_components p
  rw [heq]
  exact .tail _ (List.mem_map_of_mem hn)

theorem IsPlace.exists_names (hp : p.IsPlace) :
    ∃ ns, ns ≠ [] ∧ (∀ n ∈ ns, IsName n) ∧ p = ofComponents (.root :: ns.map .name) := by
  obtain ⟨ns, hns, hof⟩ := exists_names_of_isAbsolute hp.isAbsolute hp.normal
  refine ⟨ns, ?_, hns, hof⟩
  rintro rfl
  have hslash := hp.isNamed.getLast?_ne
  rw [hof] at hslash
  exact hslash rfl

/-- The places below a place are the paths that lead on from it along names. -/
theorem IsPlace.relativeTo?_iff {rel : Path} (hp : p.IsPlace) :
    q.relativeTo? p = some rel
      ↔
    ∃ ns, ns ≠ [] ∧ (∀ n ∈ ns, IsName n) ∧ q.normalize = p.inside ns
      ∧ rel = ofComponents (ns.map .name) := by
  obtain ⟨ms, hms_ne, hms, hof⟩ := hp.exists_names
  have hcomponents : p.components = .root :: ms.map .name := by
    rw [hof]
    exact components_ofComponents_root (Component.isStep_map_name hms)
  constructor
  . intro h
    have hroot : .root ∈ p.normalize.components := by
      rw [hp.normal, hcomponents]
      exact .head _
    obtain ⟨ns, hne, hns, hcs, hrel⟩ := exists_below_of_relativeTo? h hroot (by simp)
    refine ⟨ns, hne, hns, ?_, hrel⟩
    have hq := ofComponents_components_normalize q
    rw [hcs, hp.normal, hcomponents, List.cons_append, ← List.map_append] at hq
    rw [← hq, hof, inside_ofComponents hms_ne hms hns]
  . rintro ⟨ns, hne, hns, hq, hrel⟩
    refine relativeTo?_eq_some_iff.mpr ⟨ns.map .name, by simpa using hne, ?_, hrel⟩
    rw [hq, hp.normal, components_inside p hns]

/-- Names follow the root of the disk as they follow any other absolute normal path. -/
theorem inside_ofComponents_root (hns : ∀ n ∈ ns, IsName n) (hms : ∀ n ∈ ms, IsName n) :
    (ofComponents (.root :: ns.map .name)).inside ms = ofComponents (.root :: (ns ++ ms).map .name) := by
  cases ns with
  | nil =>
    cases ms with
    | nil => rfl
    | cons m ms =>
      have hm : ∀ n ∈ [m], IsName n := by simpa using hms m (.head _)
      have habs := isAbsolute_name (hms m (.head _))
      have hroot : (ofComponents [.root]).bytes = [slash] := rfl
      have hchild : (ofComponents [.root]).child m = ofComponents (.root :: [m].map .name) := by
        unfold child join
        rw [habs, hroot, Bool.false_or, if_neg (by simp), if_pos (by rfl)]
        rfl
      rw [List.map_nil, inside_cons, hchild, List.nil_append]
      exact inside_ofComponents (by simp) hm fun n hn => hms n (.tail _ hn)
  | cons n ns => exact inside_ofComponents (by simp) hns hms

theorem pieces_ofComponents_root (hne : ns ≠ []) (hns : ∀ n ∈ ns, IsName n) :
    pieces slash (ofComponents (.root :: ns.map .name)).bytes = [] :: ns := by
  rw [bytes_ofComponents_root, pieces, if_pos rfl,
    pieces_joined hne fun n hn => (hns n hn).slash_not_mem]

theorem root_mem_foldl {cs acc : List Component} (h : .root ∈ acc) :
    .root ∈ cs.foldl resolveStep acc := by
  induction cs generalizing acc with
  | nil => exact h
  | cons c cs ih =>
    apply ih
    unfold resolveStep
    split
    . exact h
    . simpa using h
    . exact h
    . exact .tail _ h

/-- The normal form of a path from the root starts at the root. -/
theorem isAbsolute_normalize (h : p.isAbsolute = true) : p.normalize.isAbsolute = true := by
  apply isAbsolute_of_root_mem
  rw [components_normalize]
  rcases p with ⟨_ | ⟨b, rest⟩⟩
  . simp [isAbsolute] at h
  . obtain rfl : b = slash := by simpa [isAbsolute] using h
    rw [components_root, resolve, List.mem_reverse, List.foldl_cons]
    exact root_mem_foldl (.head _)

/-- What lies inside a path from the root follows it with names. -/
theorem exists_inside_of_isAbsolute {rel : Path} (habs : p.isAbsolute = true)
    (h : q.relativeTo? p = some rel) :
    ∃ ns, ns ≠ [] ∧ (∀ n ∈ ns, IsName n) ∧ q.normalize = p.normalize.inside ns
      ∧ rel = ofComponents (ns.map .name) := by
  obtain ⟨ms, hms, hof⟩ := exists_names_of_isAbsolute (isAbsolute_normalize habs) p.normalize_normalize
  have hcomponents : p.normalize.components = .root :: ms.map .name := by
    rw [hof]
    exact components_ofComponents_root (Component.isStep_map_name hms)
  have hroot : .root ∈ p.normalize.components := by
    rw [hcomponents]
    exact .head _
  obtain ⟨ns, hne, hns, hcs, hrel⟩ := exists_below_of_relativeTo? h hroot (by simp)
  refine ⟨ns, hne, hns, ?_, hrel⟩
  have hq := ofComponents_components_normalize q
  rw [hcs, hcomponents, List.cons_append, ← List.map_append] at hq
  rw [← hq, hof, inside_ofComponents_root hms hns]

end Path

end InkServer
