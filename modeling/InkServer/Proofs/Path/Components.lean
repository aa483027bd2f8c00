import InkServer.Path.Basic
import InkServer.Proofs.Text.Pieces

/-!
This module contains the laws of the steps of a path: how they follow from its pieces, which steps
can be written down as they are, and what becomes of them when paths are put together.
-/

namespace InkServer

open Text

/-- The bytes can stand for a file or a folder: they are one piece, and no step to the same or the
outer folder. -/
structure IsName (n : Name) : Prop where
  ne_nil : n ≠ []
  ne_here : n ≠ [dot]
  ne_up : n ≠ [dot, dot]
  slash_not_mem : slash ∉ n

namespace Component

/-- The step is written with one piece, and leads in or out. -/
def IsStep : Component → Prop
  | up => True
  | name n => IsName n
  | _ => False

theorem IsStep.ofPiece?_bytes {c : Component} (h : c.IsStep) : ofPiece? c.bytes = some c := by
  cases c with
  | root => exact absurd h (by simp [IsStep])
  | here => exact absurd h (by simp [IsStep])
  | up => rfl
  | name n =>
    have hn : IsName n := h
    simp [bytes, ofPiece?, hn.ne_nil, hn.ne_here, hn.ne_up]

theorem IsStep.slash_not_mem {c : Component} (h : c.IsStep) : slash ∉ c.bytes := by
  cases c with
  | root => exact absurd h (by simp [IsStep])
  | here => exact absurd h (by simp [IsStep])
  | up => decide
  | name n => exact IsName.slash_not_mem h

theorem isStep_of_ofPiece? {piece : Bytes} {c : Component} (hp : slash ∉ piece)
    (h : ofPiece? piece = some c) : c.IsStep ∧ c.bytes = piece := by
  unfold ofPiece? at h
  split at h
  . simp at h
  . next hne =>
    rw [not_or] at hne
    split at h
    . next hup =>
      rw [Option.some.injEq] at h
      rw [← h, hup]
      exact ⟨trivial, rfl⟩
    . next hup =>
      rw [Option.some.injEq] at h
      rw [← h]
      exact ⟨⟨hne.1, hne.2, hup, hp⟩, rfl⟩

theorem filterMap_ofPiece?_bytes {cs : List Component} (h : ∀ c ∈ cs, c.IsStep) :
    (cs.map bytes).filterMap ofPiece? = cs := by
  induction cs with
  | nil => rfl
  | cons c cs ih =>
    rw [List.map_cons, List.filterMap_cons, (h c (.head _)).ofPiece?_bytes,
      ih fun d hd => h d (.tail _ hd)]

theorem isStep_map_name {ns : List Name} (h : ∀ n ∈ ns, IsName n) :
    ∀ c ∈ ns.map name, c.IsStep := by
  intro c hc
  obtain ⟨n, hn, heq⟩ := List.mem_map.mp hc
  rw [← heq]
  exact h n hn

@[simp]
theorem map_bytes_name (ns : List Name) : (ns.map name).map bytes = ns := by
  rw [List.map_map]
  exact List.map_id ns

end Component

namespace Path

variable {p q : Path} {cs : List Component} {n : Name} {ns : List Name} {bytes rest : Bytes}

/-- The steps that the pieces of a byte string stand for. -/
def steps (bytes : Bytes) : List Component :=
  (pieces slash bytes).filterMap Component.ofPiece?

/-- The path has no step of its own before its pieces: it begins neither at the root nor with a
dot. -/
def IsPlain (p : Path) : Prop :=
  p.bytes.head? ≠ some slash ∧ startsHere p.bytes = false

@[simp]
theorem steps_nil : steps [] = [] := rfl

theorem steps_append_cons (bytes rest : Bytes) :
    steps (bytes ++ slash :: rest) = steps bytes ++ steps rest := by
  simp [steps, pieces_append_cons]

theorem isStep_of_mem_steps {c : Component} (h : c ∈ steps bytes) : c.IsStep := by
  obtain ⟨piece, hp, hc⟩ := List.mem_filterMap.mp h
  exact (Component.isStep_of_ofPiece? (not_mem_of_mem_pieces hp) hc).1

theorem startsHere_cons_iff {b : UInt8} :
    startsHere (b :: rest) = true ↔ b = dot ∧ (rest = [] ∨ rest.head? = some slash) := by
  cases rest with
  | nil => simp [startsHere, List.isPrefixOf]
  | cons c rest =>
    simp only [startsHere, List.isPrefixOf, List.cons.injEq, reduceCtorEq, and_false, decide_false,
      Bool.false_or, Bool.and_true, Bool.and_eq_true, beq_iff_eq, false_or, List.head?_cons,
      Option.some.injEq]
    rw [eq_comm, @eq_comm _ slash]

theorem components_of_isPlain (h : p.IsPlain) : p.components = steps p.bytes := by
  unfold components splitLead
  cases hb : p.bytes with
  | nil => rfl
  | cons b rest =>
    have hslash : b ≠ slash := by simpa [hb] using h.1
    have hhere := h.2
    rw [hb] at hhere
    simp [hslash, hhere, steps]

theorem components_root (rest : Bytes) :
    (Path.mk (slash :: rest)).components = .root :: steps rest := by
  simp [components, splitLead, steps]

theorem components_here (h : startsHere (dot :: rest) = true) :
    (Path.mk (dot :: rest)).components = .here :: steps rest := by
  have hne : dot ≠ slash := by decide
  simp [components, splitLead, h, hne, steps]

/-- A path is plain, or it begins with a step to the root or to the same folder. -/
theorem isPlain_or (bytes : Bytes) :
    (Path.mk bytes).IsPlain ∨ (∃ rest, bytes = slash :: rest)
      ∨ ∃ rest, bytes = dot :: rest ∧ startsHere (dot :: rest) = true := by
  cases bytes with
  | nil => exact .inl ⟨by simp, rfl⟩
  | cons b rest =>
    by_cases hs : b = slash
    . exact .inr (.inl ⟨rest, by rw [hs]⟩)
    . cases hh : startsHere (b :: rest) with
      | false => exact .inl ⟨by simpa using hs, hh⟩
      | true =>
        have hd := (startsHere_cons_iff.mp hh).1
        subst hd
        exact .inr (.inr ⟨rest, rfl, hh⟩)

theorem isStep_of_mem_components {c : Component} (h : c ∈ p.components) :
    c = .root ∨ c = .here ∨ c.IsStep := by
  rcases p with ⟨bytes⟩
  rcases isPlain_or bytes with hp | ⟨rest, rfl⟩ | ⟨rest, rfl, hh⟩
  . rw [components_of_isPlain hp] at h
    exact .inr (.inr (isStep_of_mem_steps h))
  . rw [components_root, List.mem_cons] at h
    exact h.imp_right fun h => .inr (isStep_of_mem_steps h)
  . rw [components_here hh, List.mem_cons] at h
    exact .inr (h.imp_right isStep_of_mem_steps)

theorem isName_of_mem_components (h : .name n ∈ p.components) : IsName n := by
  have hs := isStep_of_mem_components h
  simpa [Component.IsStep] using hs

/-- Only a path that starts at the root has a step to it. -/
theorem isAbsolute_of_root_mem (h : .root ∈ p.components) : p.isAbsolute = true := by
  rcases p with ⟨bytes⟩
  rcases isPlain_or bytes with hp | ⟨rest, rfl⟩ | ⟨rest, rfl, hh⟩
  . rw [components_of_isPlain hp] at h
    cases isStep_of_mem_steps h
  . rfl
  . rw [components_here hh, List.mem_cons] at h
    rcases h with h | h
    . cases h
    . cases isStep_of_mem_steps h

theorem isStep_of_mem_tail {c : Component} (h : c ∈ p.components.tail) : c.IsStep := by
  rcases p with ⟨bytes⟩
  rcases isPlain_or bytes with hp | ⟨rest, rfl⟩ | ⟨rest, rfl, hh⟩
  . rw [components_of_isPlain hp] at h
    exact isStep_of_mem_steps (List.mem_of_mem_tail h)
  . rw [components_root] at h
    exact isStep_of_mem_steps h
  . rw [components_here hh] at h
    exact isStep_of_mem_steps h

theorem IsPlain.append_cons (h : (Path.mk bytes).IsPlain) (hb : bytes ≠ []) (rest : Bytes) :
    (Path.mk (bytes ++ slash :: rest)).IsPlain := by
  cases bytes with
  | nil => exact absurd rfl hb
  | cons b tail =>
    refine ⟨by simpa using h.1, ?_⟩
    have hh := h.2
    rw [← Bool.not_eq_true, startsHere_cons_iff] at hh
    rw [← Bool.not_eq_true, List.cons_append, startsHere_cons_iff]
    cases tail with
    | nil => simpa using hh
    | cons c tail => simpa using hh

theorem components_append_cons (hb : bytes ≠ []) (rest : Bytes) :
    (Path.mk (bytes ++ slash :: rest)).components = (Path.mk bytes).components ++ steps rest := by
  rcases isPlain_or bytes with hp | ⟨tail, rfl⟩ | ⟨tail, rfl, hh⟩
  . rw [components_of_isPlain (hp.append_cons hb rest), components_of_isPlain hp,
      steps_append_cons]
  . rw [List.cons_append, components_root, components_root, steps_append_cons, List.cons_append]
  . have hh' : startsHere (dot :: (tail ++ slash :: rest)) = true := by
      rw [startsHere_cons_iff] at hh ⊢
      cases tail with
      | nil => simp
      | cons c tail => simpa using hh
    rw [List.cons_append, components_here hh', components_here hh, steps_append_cons,
      List.cons_append]

/-- The pieces of a relative path follow the steps of the path that it is joined to. -/
theorem components_join_of_ne_nil (hp : p.bytes ≠ []) (hq : q.isAbsolute = false) :
    (p.join q).components = p.components ++ steps q.bytes := by
  rcases p with ⟨bytes⟩
  unfold join
  rw [hq, Bool.false_or, if_neg (by simpa using hp)]
  split
  . next hlast =>
    -- The slash at the end is followed by an empty piece, which is no step.
    obtain ⟨front, hfront⟩ := List.getLast?_eq_some_iff.mp hlast
    dsimp only at hfront ⊢
    rw [hfront, List.append_assoc, List.singleton_append]
    by_cases hf : front = []
    . rw [hf, List.nil_append, List.nil_append, components_root, components_root]
      rfl
    . rw [components_append_cons hf, components_append_cons hf, steps_nil, List.append_nil]
  . exact components_append_cons hp q.bytes

theorem empty_join (q : Path) : (Path.mk []).join q = q := by
  simp [join]

theorem components_join (hq : q.IsPlain) :
    (p.join q).components = p.components ++ q.components := by
  have habs : q.isAbsolute = false := by simpa [isAbsolute] using hq.1
  by_cases hp : p.bytes = []
  . obtain rfl : p = ⟨[]⟩ := congrArg Path.mk hp
    rw [empty_join]
    rfl
  . rw [components_join_of_ne_nil hp habs, components_of_isPlain hq]

theorem isPlain_name (hn : IsName n) : (Path.mk n).IsPlain := by
  cases n with
  | nil => exact absurd rfl hn.ne_nil
  | cons b rest =>
    have hs := hn.slash_not_mem
    rw [List.mem_cons, not_or] at hs
    refine ⟨by simpa [eq_comm] using hs.1, ?_⟩
    rw [← Bool.not_eq_true, startsHere_cons_iff]
    rintro ⟨rfl, hrest⟩
    cases rest with
    | nil => exact hn.ne_here rfl
    | cons c rest =>
      rw [List.mem_cons, not_or] at hs
      cases hrest with
      | inl hrest => simp at hrest
      | inr hrest => exact hs.2.1 (by simpa [eq_comm] using hrest)

theorem components_name (hn : IsName n) : (Path.mk n).components = [.name n] := by
  rw [components_of_isPlain (isPlain_name hn), steps, pieces_of_not_mem hn.slash_not_mem]
  simp [Component.ofPiece?, hn.ne_nil, hn.ne_here, hn.ne_up]

theorem components_child (p : Path) (hn : IsName n) :
    (p.child n).components = p.components ++ [.name n] := by
  rw [child, components_join (isPlain_name hn), components_name hn]

theorem isPlain_bytes {c : Component} (h : c.IsStep) :
    (Path.mk c.bytes).IsPlain ∧ c.bytes ≠ [] := by
  cases c with
  | root => exact absurd h (by simp [Component.IsStep])
  | here => exact absurd h (by simp [Component.IsStep])
  | up => exact ⟨⟨by decide, by decide⟩, by decide⟩
  | name n => exact ⟨isPlain_name h, h.ne_nil⟩

theorem ofComponents_of_isStep (h : ∀ c ∈ cs, c.IsStep) :
    ofComponents cs = ⟨joined slash (cs.map Component.bytes)⟩ := by
  unfold ofComponents
  split
  . exact absurd (h _ (.head _)) (by simp [Component.IsStep])
  . rfl

theorem isPlain_ofComponents (h : ∀ c ∈ cs, c.IsStep) : (ofComponents cs).IsPlain := by
  rw [ofComponents_of_isStep h]
  cases cs with
  | nil => exact ⟨by simp [joined], rfl⟩
  | cons c cs =>
    obtain ⟨hplain, hne⟩ := isPlain_bytes (h c (.head _))
    cases cs with
    | nil => exact hplain
    | cons d cs => exact hplain.append_cons hne _

theorem steps_joined (h : ∀ c ∈ cs, c.IsStep) :
    steps (joined slash (cs.map Component.bytes)) = cs := by
  cases cs with
  | nil => rfl
  | cons c cs =>
    rw [steps, pieces_joined (by simp)]
    . exact Component.filterMap_ofPiece?_bytes h
    . intro piece hp
      obtain ⟨d, hd, heq⟩ := List.mem_map.mp hp
      rw [← heq]
      exact (h d hd).slash_not_mem

theorem components_ofComponents (h : ∀ c ∈ cs, c.IsStep) : (ofComponents cs).components = cs := by
  rw [components_of_isPlain (isPlain_ofComponents h), ofComponents_of_isStep h, steps_joined h]

theorem components_ofComponents_root (h : ∀ c ∈ cs, c.IsStep) :
    (ofComponents (.root :: cs)).components = .root :: cs := by
  rw [ofComponents, components_root, steps_joined h]

/-- A path of names from the root is written with slashes before them. -/
theorem bytes_ofComponents_root (ns : List Name) :
    (ofComponents (.root :: ns.map .name)).bytes = slash :: joined slash ns := by
  rw [ofComponents, Component.map_bytes_name]

/-- The path that leads on from `p` along names. Without names it is `p` itself. -/
def inside (p : Path) (ns : List Name) : Path :=
  ns.foldl child p

@[simp]
theorem inside_nil (p : Path) : p.inside [] = p := rfl

theorem inside_cons (p : Path) (n : Name) (ns : List Name) :
    p.inside (n :: ns) = (p.child n).inside ns := rfl

theorem inside_concat (p : Path) (ns : List Name) (n : Name) :
    p.inside (ns ++ [n]) = (p.inside ns).child n := by
  simp [inside]

theorem inside_append (p : Path) (ns ms : List Name) :
    p.inside (ns ++ ms) = (p.inside ns).inside ms := by
  simp [inside]

theorem components_inside (p : Path) (hns : ∀ n ∈ ns, IsName n) :
    (p.inside ns).components = p.components ++ ns.map .name := by
  induction ns generalizing p with
  | nil => simp
  | cons n ns ih =>
    rw [inside_cons, ih (p.child n) fun m hm => hns m (.tail _ hm), components_child p (hns n (.head _)),
      List.append_assoc, List.singleton_append, List.map_cons]

theorem exists_parent? (h : .name n ∈ p.components) : ∃ around, p.parent? = some around := by
  have hpiece : ∃ piece ∈ pieces slash (splitLead p.bytes).2, Component.ofPiece? piece ≠ none := by
    rcases List.mem_append.mp h with h | h
    . rw [Option.mem_toList] at h
      split at h
      . simp at h
      . split at h
        . simp at h
        . split at h <;> simp at h
    . obtain ⟨piece, hp, hc⟩ := List.mem_filterMap.mp h
      exact ⟨piece, hp, by simp [hc]⟩
  unfold parent? trimPieces
  dsimp only
  rw [List.reverse_reverse]
  split
  . exact ⟨_, rfl⟩
  . next hnil =>
    obtain ⟨piece, hp, hc⟩ := hpiece
    have hall := @List.takeWhile_append_dropWhile _ (fun p => (Component.ofPiece? p).isNone)
      (pieces slash (splitLead p.bytes).2).reverse
    rw [hnil, List.append_nil] at hall
    rw [← List.mem_reverse, ← hall] at hp
    have hnone := List.all_eq_true.mp List.all_takeWhile piece hp
    rw [Option.isNone_iff_eq_none] at hnone
    exact absurd hnone hc

end Path

end InkServer
