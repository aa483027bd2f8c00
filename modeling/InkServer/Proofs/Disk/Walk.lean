import InkServer.Disk.Operations

/-!
This module contains the ways on the disk that lead to a place, as a relation beside the walk itself,
and what becomes of them when something is put on the disk.
-/

namespace InkServer

open Text

namespace Disk

variable {d d' : Disk} {loc l : Location} {n : Node}

@[simp]
theorem node?_nil (d : Disk) : d.node? [] = some .folder := rfl

theorem lookup_putNode (loc l : Location) (n : Node) (nodes : List (Location × Node)) :
    (putNode loc n nodes).lookup l = if l = loc then some n else nodes.lookup l := by
  induction nodes with
  | nil =>
    rw [putNode, List.lookup_cons, List.lookup_nil]
    split
    . next h => rw [if_pos (eq_of_beq h)]
    . next h => rw [if_neg (by simpa using h)]
  | cons entry rest ih =>
    rcases entry with ⟨k, m⟩
    unfold putNode
    split
    . next hk =>
      rw [List.lookup_cons, List.lookup_cons, hk]
      split
      . next h => rw [if_pos (eq_of_beq h)]
      . next h => rw [if_neg (by simpa using h)]
    . next hk =>
      rw [List.lookup_cons, List.lookup_cons, ih]
      split
      . next h =>
        rw [if_neg]
        rw [eq_of_beq h]
        exact hk
      . rfl

theorem node?_put (h : loc ≠ []) (l : Location) :
    (d.put loc n).node? l = if l = loc then some n else d.node? l := by
  unfold node? put
  split
  . next hl =>
    rw [hl, if_neg (Ne.symm h)]
  . exact lookup_putNode loc l n d.nodes

/-- A piece of a path that leads into a folder, and is not too long. -/
structure Fits (p : Bytes) : Prop where
  ne_nil : p ≠ []
  ne_here : p ≠ [dot]
  ne_up : p ≠ [dot, dot]
  length_le : p.length ≤ maxName

/-- There is a way from a folder along pieces of a path that leads to the target. -/
inductive Way (d : Disk) (follow : Bool) : Nat → Location → List Bytes → Target → Prop where
  | done {links : Nat} {loc : Location} : Way d follow links loc [] (.found loc .folder)
  | skip {links : Nat} {loc : Location} {p : Bytes} {rest : List Bytes} {t : Target}
    (hp : p = [] ∨ p = [dot]) (h : Way d follow links loc rest t) :
    Way d follow links loc (p :: rest) t
  | up {links : Nat} {loc : Location} {rest : List Bytes} {t : Target}
    (h : Way d follow links loc.dropLast rest t) : Way d follow links loc ([dot, dot] :: rest) t
  | missing {links : Nat} {loc : Location} {p : Bytes} (hp : Fits p)
    (hn : d.node? (loc ++ [p]) = none) : Way d follow links loc [p] (.missing (loc ++ [p]))
  | missingFolder {links : Nat} {loc : Location} {p : Bytes} {rest : List Bytes} (hp : Fits p)
    (hn : d.node? (loc ++ [p]) = none) (hne : rest ≠ []) (hrest : ∀ q ∈ rest, q = []) :
    Way d follow links loc (p :: rest) (.missingFolder (loc ++ [p]))
  | enter {links : Nat} {loc : Location} {p : Bytes} {rest : List Bytes} {t : Target} (hp : Fits p)
    (hn : d.node? (loc ++ [p]) = some .folder) (h : Way d follow links (loc ++ [p]) rest t) :
    Way d follow links loc (p :: rest) t
  | stop {links : Nat} {loc : Location} {p : Bytes} {target : Path} (hp : Fits p)
    (hn : d.node? (loc ++ [p]) = some (.link target)) (hf : follow = false) :
    Way d follow links loc [p] (.found (loc ++ [p]) (.link target))
  | follow {links : Nat} {loc : Location} {p : Bytes} {rest : List Bytes} {target : Path}
    {t : Target} (hp : Fits p) (hn : d.node? (loc ++ [p]) = some (.link target))
    (hf : rest ≠ [] ∨ follow = true) (ht : target.bytes ≠ [])
    (h : Way d follow links (if target.isAbsolute then [] else loc)
      (pieces slash target.bytes ++ rest) t) :
    Way d follow (links + 1) loc (p :: rest) t
  | leaf {links : Nat} {loc : Location} {p : Bytes} {node : Node} (hp : Fits p)
    (hn : d.node? (loc ++ [p]) = some node) (hfolder : node ≠ .folder)
    (hlink : ∀ target, node ≠ .link target) :
    Way d follow links loc [p] (.found (loc ++ [p]) node)

variable {follow : Bool} {links : Nat} {ps rest : List Bytes} {t : Target} {p : Bytes}

theorem fits_of_not (h : ¬(p = [] ∨ p = [dot])) (hup : ¬p = [dot, dot])
    (hlen : ¬p.length > maxName) : Fits p := by
  rw [not_or] at h
  exact ⟨h.1, h.2, hup, by omega⟩

theorem Way.of_walk (h : d.walk follow links loc ps = .ok t) : Way d follow links loc ps t := by
  induction links using Nat.strongRecOn generalizing loc ps with
  | ind links ihlinks =>
    induction ps generalizing loc with
    | nil =>
      rw [walk_nil, Except.ok.injEq] at h
      rw [← h]
      exact .done
    | cons p rest ih =>
      rw [walk_cons] at h
      split at h
      . next hp => exact .skip hp (ih h)
      . next hp =>
        split at h
        . next hup =>
          rw [hup]
          exact .up (ih h)
        . next hup =>
          split at h
          . cases h
          . next hlen =>
            have hfits := fits_of_not hp hup hlen
            split at h
            . next hn =>
              split at h
              . next hrest =>
                rw [← Except.ok.inj h, hrest]
                exact .missing hfits hn
              . next hrest =>
                split at h
                . next hempty =>
                  rw [← Except.ok.inj h]
                  exact .missingFolder hfits hn hrest (by simpa using hempty)
                . cases h
            . next hn => exact .enter hfits hn (ih h)
            . next target hn =>
              split at h
              . next hstop =>
                rw [← Except.ok.inj h, hstop.1]
                exact .stop hfits hn (by simpa using hstop.2)
              . next hgo =>
                cases links with
                | zero => cases h
                | succ links =>
                  dsimp only at h
                  split at h
                  . cases h
                  . next ht =>
                    refine .follow hfits hn ?_ ht (ihlinks links (by omega) h)
                    rw [Decidable.not_and_iff_or_not] at hgo
                    simpa using hgo
            . next node hfolder hlink hn =>
              split at h
              . next hrest =>
                rw [← Except.ok.inj h, hrest]
                exact .leaf hfits hn hfolder hlink
              . cases h

theorem walk_skip (hp : p = [] ∨ p = [dot]) :
    d.walk follow links loc (p :: rest) = d.walk follow links loc rest := by
  rw [walk_cons, if_pos hp]

theorem walk_up :
    d.walk follow links loc ([dot, dot] :: rest) = d.walk follow links loc.dropLast rest := by
  rw [walk_cons, if_neg (by decide), if_pos rfl]

theorem walk_too_long (h : ¬(p = [] ∨ p = [dot])) (hup : ¬p = [dot, dot]) (hlen : p.length > maxName) :
    d.walk follow links loc (p :: rest) = .error .nameTooLong := by
  rw [walk_cons, if_neg h, if_neg hup, if_pos hlen]

theorem walk_fits (hp : Fits p) :
    d.walk follow links loc (p :: rest)
      =
    match d.node? (loc ++ [p]) with
    | none =>
      if rest = [] then .ok (.missing (loc ++ [p]))
      else if rest.all (· = []) then .ok (.missingFolder (loc ++ [p]))
      else .error .notFound
    | some .folder => d.walk follow links (loc ++ [p]) rest
    | some (.link target) =>
      if rest = [] ∧ !follow then .ok (.found (loc ++ [p]) (.link target))
      else
        match links with
        | 0 => .error .tooManyLinks
        | links + 1 =>
          if target.bytes = [] then .error .notFound
          else
            d.walk follow links (if target.isAbsolute then [] else loc)
              (pieces slash target.bytes ++ rest)
    | some node => if rest = [] then .ok (.found (loc ++ [p]) node) else .error .notDirectory := by
  have hlen := hp.length_le
  rewrite [walk_cons, if_neg (by simp [hp.ne_nil, hp.ne_here]), if_neg hp.ne_up, if_neg (by omega)]
  rfl

theorem Way.walk_eq (h : Way d follow links loc ps t) : d.walk follow links loc ps = .ok t := by
  induction h with
  | done => exact walk_nil
  | skip hp _ ih => rw [walk_skip hp, ih]
  | up _ ih => rw [walk_up, ih]
  | missing hp hn => rw [walk_fits hp, hn, if_pos rfl]
  | missingFolder hp hn hne hrest =>
    rw [walk_fits hp, hn, if_neg hne, if_pos (by simpa using hrest)]
  | enter hp hn _ ih => rw [walk_fits hp, hn, ih]
  | stop hp hn hf =>
    rw [walk_fits hp, hn]
    simp [hf]
  | follow hp hn hf ht _ ih =>
    rw [walk_fits hp, hn]
    dsimp only
    rw [if_neg (by rcases hf with hf | hf <;> simp [hf]), if_neg ht, ih]
  | @leaf _ _ _ node hp hn hfolder hlink =>
    rw [walk_fits hp, hn]
    cases node with
    | folder => exact absurd rfl hfolder
    | link target => exact absurd rfl (hlink target)
    | file content executable => rfl
    | sink => rfl

theorem walk_eq_ok_iff : d.walk follow links loc ps = .ok t ↔ Way d follow links loc ps t :=
  ⟨.of_walk, Way.walk_eq⟩

/-- With another number of links a walk leads to the same target or gives up. -/
theorem Way.walk_eq_or (h : Way d follow links loc ps t) (left : Nat) :
    d.walk follow left loc ps = .ok t ∨ d.walk follow left loc ps = .error .tooManyLinks := by
  induction h generalizing left with
  | done => exact .inl Way.done.walk_eq
  | skip hp _ ih =>
    rw [walk_skip hp]
    exact ih left
  | up _ ih =>
    rw [walk_up]
    exact ih left
  | missing hp hn => exact .inl (Way.missing hp hn).walk_eq
  | missingFolder hp hn hne hrest => exact .inl (Way.missingFolder hp hn hne hrest).walk_eq
  | enter hp hn _ ih =>
    rw [walk_fits hp, hn]
    exact ih left
  | stop hp hn hf => exact .inl (Way.stop hp hn hf).walk_eq
  | follow hp hn hf ht _ ih =>
    rw [walk_fits hp, hn]
    dsimp only
    rw [if_neg (by rcases hf with hf | hf <;> simp [hf])]
    cases left with
    | zero => exact .inr rfl
    | succ left =>
      dsimp only
      rw [if_neg ht]
      exact ih left
  | leaf hp hn hfolder hlink => exact .inl (Way.leaf hp hn hfolder hlink).walk_eq

end Disk

/-- Both nodes are of one kind. What a file holds does not matter. -/
inductive Node.Alike : Node → Node → Prop where
  | file {content content' : Bytes} {executable executable' : Bool} :
    Alike (.file content executable) (.file content' executable')
  | folder : Alike .folder .folder
  | link {target : Path} : Alike (.link target) (.link target)
  | sink : Alike .sink .sink

theorem Node.Alike.refl (n : Node) : n.Alike n := by
  cases n with
  | file content executable => exact .file
  | folder => exact .folder
  | link target => exact .link
  | sink => exact .sink

theorem Node.Alike.trans {n m k : Node} (h : n.Alike m) (h' : m.Alike k) : n.Alike k := by
  cases h with
  | file =>
    cases h'
    exact .file
  | folder => exact h'
  | link => exact h'
  | sink => exact h'

namespace Disk

variable {d d' : Disk} {loc l : Location} {n : Node} {follow : Bool} {links : Nat}
  {ps rest : List Bytes} {t : Target}

/-- Nothing that stands on the first disk is gone from the second, or of another kind there. -/
structure Keeps (d d' : Disk) : Prop where
  current : d'.current = d.current
  node : ∀ {loc : Location} {n : Node}, d.node? loc = some n →
    ∃ n', d'.node? loc = some n' ∧ n.Alike n'

theorem Keeps.refl (d : Disk) : Keeps d d :=
  ⟨rfl, fun h => ⟨_, h, .refl _⟩⟩

theorem Keeps.trans {d'' : Disk} (h : Keeps d d') (h' : Keeps d' d'') : Keeps d d'' := by
  refine ⟨h'.current.trans h.current, ?_⟩
  intro loc n hn
  obtain ⟨n', hn', ha⟩ := h.node hn
  obtain ⟨n'', hn'', ha'⟩ := h'.node hn'
  exact ⟨n'', hn'', ha.trans ha'⟩

theorem Keeps.folder (h : Keeps d d') (hn : d.node? loc = some .folder) :
    d'.node? loc = some .folder := by
  obtain ⟨n', hn', ha⟩ := h.node hn
  cases ha
  exact hn'

theorem Keeps.link {target : Path} (h : Keeps d d') (hn : d.node? loc = some (.link target)) :
    d'.node? loc = some (.link target) := by
  obtain ⟨n', hn', ha⟩ := h.node hn
  cases ha
  exact hn'

theorem ne_nil_of_node? (h : d.node? loc = none) : loc ≠ [] := by
  intro hl
  rw [hl] at h
  cases h

theorem ne_nil_of_file {content : Bytes} {executable : Bool}
    (h : d.node? loc = some (.file content executable)) : loc ≠ [] := by
  intro hl
  rw [hl] at h
  cases h

theorem node?_put_self (h : loc ≠ []) : (d.put loc n).node? loc = some n := by
  rw [node?_put h, if_pos rfl]

theorem node?_put_ne (h : loc ≠ []) (hl : l ≠ loc) : (d.put loc n).node? l = d.node? l := by
  rw [node?_put h, if_neg hl]

theorem node?_put_of_some {m : Node} (h : d.node? loc = none) (hl : d.node? l = some m) :
    (d.put loc n).node? l = some m := by
  rw [node?_put_ne (ne_nil_of_node? h) _, hl]
  intro heq
  rw [heq, h] at hl
  cases hl

theorem Keeps.put_new (h : d.node? loc = none) (n : Node) : Keeps d (d.put loc n) :=
  ⟨rfl, fun hl => ⟨_, node?_put_of_some h hl, .refl _⟩⟩

theorem Keeps.put_file {content content' : Bytes} {executable executable' : Bool}
    (h : d.node? loc = some (.file content executable)) :
    Keeps d (d.put loc (.file content' executable')) := by
  refine ⟨rfl, ?_⟩
  intro l n hl
  by_cases heq : l = loc
  . rw [heq, h, Option.some.injEq] at hl
    rw [heq, ← hl, node?_put_self (ne_nil_of_file h)]
    exact ⟨_, rfl, .file⟩
  . rw [node?_put_ne (ne_nil_of_file h) heq]
    exact ⟨n, hl, .refl n⟩

theorem Way.keeps (hk : Keeps d d') (h : Way d follow links loc ps (.found l n)) :
    ∃ n', Way d' follow links loc ps (.found l n') ∧ n.Alike n' := by
  generalize htarget : Target.found l n = t at h
  induction h with
  | done =>
    injection htarget with hl hn
    rw [hl, hn]
    exact ⟨_, .done, .folder⟩
  | skip hp _ ih =>
    obtain ⟨n', hway, ha⟩ := ih htarget
    exact ⟨n', .skip hp hway, ha⟩
  | up _ ih =>
    obtain ⟨n', hway, ha⟩ := ih htarget
    exact ⟨n', .up hway, ha⟩
  | missing => cases htarget
  | missingFolder => cases htarget
  | enter hp hn _ ih =>
    obtain ⟨n', hway, ha⟩ := ih htarget
    exact ⟨n', .enter hp (hk.folder hn) hway, ha⟩
  | stop hp hn hf =>
    injection htarget with hl hn'
    rw [hl, hn']
    exact ⟨_, .stop hp (hk.link hn) hf, .link⟩
  | follow hp hn hf ht _ ih =>
    obtain ⟨n', hway, ha⟩ := ih htarget
    exact ⟨n', .follow hp (hk.link hn) hf ht hway, ha⟩
  | leaf hp hn hfolder hlink =>
    injection htarget with hl hn'
    obtain ⟨n', hn'', ha⟩ := hk.node hn
    rw [hl, hn']
    refine ⟨n', .leaf hp hn'' ?_ ?_, ha⟩
    . intro heq
      rw [heq] at ha
      cases ha
      exact hfolder rfl
    . intro target heq
      rw [heq] at ha
      cases ha
      exact hlink target rfl

theorem Way.node?_eq_none (h : Way d follow links loc ps t)
    (ht : t = .missing l ∨ t = .missingFolder l) : d.node? l = none := by
  induction h with
  | done => simp at ht
  | skip _ _ ih => exact ih ht
  | up _ ih => exact ih ht
  | missing _ hn =>
    simp only [Target.missing.injEq, reduceCtorEq, or_false] at ht
    rw [← ht, hn]
  | missingFolder _ hn =>
    simp only [Target.missingFolder.injEq, reduceCtorEq, false_or] at ht
    rw [← ht, hn]
  | enter _ _ _ ih => exact ih ht
  | stop => simp at ht
  | follow _ _ _ _ _ ih => exact ih ht
  | leaf => simp at ht

theorem Way.node?_of_found (h : Way d follow links loc ps (.found l n)) :
    n = .folder ∨ d.node? l = some n := by
  generalize ht : Target.found l n = t at h
  induction h with
  | done =>
    injection ht with _ hn
    exact .inl hn
  | skip _ _ ih => exact ih ht
  | up _ ih => exact ih ht
  | missing => cases ht
  | missingFolder => cases ht
  | enter _ _ _ ih => exact ih ht
  | stop _ hn =>
    injection ht with hl hn'
    rw [hl, hn']
    exact .inr hn
  | follow _ _ _ _ _ ih => exact ih ht
  | leaf _ hn =>
    injection ht with hl hn'
    rw [hl, hn']
    exact .inr hn

/-- A file that is put at the end of a way stands there. -/
theorem Way.put_file {content : Bytes} {executable : Bool}
    (h : Way d follow links loc ps (.missing l)) :
    Way (d.put l (.file content executable)) true links loc ps
      (.found l (.file content executable)) := by
  have hnone := h.node?_eq_none (.inl rfl)
  generalize ht : Target.missing l = t at h
  induction h with
  | done => cases ht
  | skip hp _ ih => exact .skip hp (ih ht)
  | up _ ih => exact .up (ih ht)
  | missing hp _ =>
    injection ht with hl
    subst hl
    exact .leaf hp (node?_put_self (by simp)) (by simp) (by simp)
  | missingFolder => cases ht
  | enter hp hn _ ih => exact .enter hp (node?_put_of_some hnone hn) (ih ht)
  | stop => cases ht
  | follow hp hn _ htarget _ ih =>
    exact .follow hp (node?_put_of_some hnone hn) (.inr rfl) htarget (ih ht)
  | leaf => cases ht

theorem Way.of_empty_pieces (h : ∀ p ∈ ps, p = []) :
    Way d follow links loc ps (.found loc .folder) := by
  induction ps with
  | nil => exact .done
  | cons p ps ih => exact .skip (.inl (h p (.head _))) (ih fun q hq => h q (.tail _ hq))

/-- A folder that is put at the end of a way stands there. -/
theorem Way.put_folder (h : Way d follow links loc ps t)
    (ht : t = .missing l ∨ t = .missingFolder l) :
    Way (d.put l .folder) true links loc ps (.found l .folder) := by
  have hnone := h.node?_eq_none ht
  induction h with
  | done => simp at ht
  | skip hp _ ih => exact .skip hp (ih ht)
  | up _ ih => exact .up (ih ht)
  | missing hp _ =>
    simp only [Target.missing.injEq, reduceCtorEq, or_false] at ht
    subst ht
    exact .enter hp (node?_put_self (by simp)) .done
  | missingFolder hp _ _ hrest =>
    simp only [Target.missingFolder.injEq, reduceCtorEq, false_or] at ht
    subst ht
    exact .enter hp (node?_put_self (by simp)) (.of_empty_pieces hrest)
  | enter hp hn _ ih => exact .enter hp (node?_put_of_some hnone hn) (ih ht)
  | stop => simp at ht
  | follow hp hn _ htarget _ ih =>
    exact .follow hp (node?_put_of_some hnone hn) (.inr rfl) htarget (ih ht)
  | leaf => simp at ht

end Disk

end InkServer
