import InkServer.Proofs.Path.Lexical
import InkServer.Workspace.Registry
import Mathlib.Order.Preorder.Chain

/-!
This module contains the shape of lexical forms and the order of paths by inclusion. It is the order
of a tree: strict, transitive, and such that of two paths around a third one the first lies inside the
second or the other way round, unless both have the same lexical form. So the workspaces around a
document form a chain.
-/

namespace InkServer

open Text

namespace LexicalPath

variable {p q r : LexicalPath} {anchored : Bool} {resolved segments : List (List Char)}

/-- The segment is the name of a file or folder. -/
def IsOrdinary (segment : List Char) : Prop :=
  segment ≠ [] ∧ segment ≠ ['.'] ∧ segment ≠ upSegment

/-- The segments lead outwards, but not from an anchor, and then along names. -/
def IsResolved (anchored : Bool) (segments : List (List Char)) : Prop :=
  ∃ (k : Nat) (ns : List (List Char)), segments = List.replicate k upSegment ++ ns
    ∧ (∀ s ∈ ns, IsOrdinary s) ∧ (anchored = true → k = 0)

theorem isResolved_of_ordinary (h : ∀ s ∈ segments, IsOrdinary s) :
    IsResolved anchored segments :=
  ⟨0, segments, rfl, h, fun _ => rfl⟩

/-- Segments that do not begin with an outward one are names. -/
theorem IsResolved.ordinary (h : IsResolved anchored segments)
    (hhead : segments.head? ≠ some upSegment) : ∀ s ∈ segments, IsOrdinary s := by
  obtain ⟨k, ns, hsegments, hns, _⟩ := h
  cases k with
  | zero =>
    rw [hsegments]
    exact hns
  | succ k =>
    rw [hsegments] at hhead
    exact absurd rfl hhead

theorem isResolved_true_iff :
    IsResolved true segments ↔ ∀ s ∈ segments, IsOrdinary s := by
  constructor
  . rintro ⟨k, ns, hsegments, hns, hk⟩
    rw [hsegments, hk rfl]
    exact hns
  . exact isResolved_of_ordinary

theorem addSegment_ordinary {segment : List Char} (h : IsOrdinary segment) :
    addSegment anchored resolved segment = segment :: resolved := by
  unfold addSegment
  rw [if_neg (not_or.mpr ⟨h.1, h.2.1⟩), if_neg h.2.2]

theorem addSegment_up_name {last : List Char} (h : IsOrdinary last) :
    addSegment anchored (last :: resolved) upSegment = resolved := by
  unfold addSegment
  rw [if_neg (by decide), if_pos rfl]
  exact if_pos h.2.2

/-- Without an anchor an outward segment is kept behind outward ones. -/
theorem addSegment_up_ups (k : Nat) :
    addSegment false (List.replicate k upSegment) upSegment = List.replicate (k + 1) upSegment := by
  cases k with
  | zero => rfl
  | succ k => rfl

theorem IsResolved.addSegment (h : IsResolved anchored resolved.reverse) (segment : List Char) :
    IsResolved anchored (addSegment anchored resolved segment).reverse := by
  by_cases hskip : segment = [] ∨ segment = ['.']
  . unfold LexicalPath.addSegment
    rw [if_pos hskip]
    exact h
  obtain ⟨k, ns, hresolved, hns, hk⟩ := h
  have hresolved : resolved = (List.replicate k upSegment ++ ns).reverse := by
    rw [← hresolved, List.reverse_reverse]
  by_cases hup : segment = upSegment
  . rw [hup]
    rcases List.eq_nil_or_concat ns with hnil | ⟨front, last, hconcat⟩
    . rw [hnil, List.append_nil, List.reverse_replicate] at hresolved
      rw [hresolved]
      cases anchored with
      | true =>
        -- At the anchor there is nothing to take away.
        rw [hk rfl]
        change IsResolved true []
        exact isResolved_of_ordinary (by simp)
      | false =>
        rw [addSegment_up_ups, List.reverse_replicate]
        exact ⟨k + 1, [], (List.append_nil _).symm, by simp, by simp⟩
    . have hcons : resolved = last :: (List.replicate k upSegment ++ front).reverse := by
        rw [hresolved, hconcat]
        simp
      rw [hcons, addSegment_up_name (hns last (by simp [hconcat])), List.reverse_reverse]
      exact ⟨k, front, rfl, fun s hs => hns s (by simp [hconcat, hs]), hk⟩
  . have hsegment : IsOrdinary segment :=
      ⟨fun hnil => hskip (.inl hnil), fun hhere => hskip (.inr hhere), hup⟩
    rw [addSegment_ordinary hsegment]
    refine ⟨k, ns ++ [segment], ?_, ?_, hk⟩
    . rw [List.reverse_cons, hresolved, List.reverse_reverse, List.append_assoc]
    . intro s hs
      cases List.mem_append.mp hs with
      | inl hs => exact hns s hs
      | inr hs =>
        rw [List.mem_singleton.mp hs]
        exact hsegment

theorem IsResolved.foldl_addSegment (h : IsResolved anchored resolved.reverse) :
    IsResolved anchored (segments.foldl (LexicalPath.addSegment anchored) resolved).reverse := by
  induction segments generalizing resolved with
  | nil => exact h
  | cons segment segments ih =>
    rw [List.foldl_cons]
    exact ih (h.addSegment segment)

theorem isResolved_ofText (text : List Char) :
    IsResolved (!(ofText text).anchor.isNone) (ofText text).segments := by
  apply IsResolved.foldl_addSegment
  exact isResolved_of_ordinary (by simp)

/-- A path lies inside another one if its form is made of names that begin with those of the other
and go on. -/
theorem isInside_iff_names (hp : IsResolved anchored p.segments) :
    p.isInside q = true
      ↔
    p.anchor = q.anchor ∧ (∀ s ∈ p.segments, IsOrdinary s) ∧ q.segments <+: p.segments
      ∧ q.segments ≠ p.segments := by
  rw [isInside_iff]
  constructor
  . rintro ⟨hanchor, hup, first, more, hfirst, hsegments⟩
    refine ⟨hanchor, hp.ordinary ?_, ⟨_, hsegments.symm⟩, ?_⟩
    . -- The first segment is one of the other path or the one that follows them.
      rw [hsegments]
      intro hhead
      cases hq : q.segments with
      | nil =>
        rw [hq] at hhead
        exact hfirst (Option.some.inj hhead)
      | cons s segments =>
        rw [hq] at hhead hup
        apply hup
        rw [← Option.some.inj hhead]
        exact .head _
    . intro hsame
      rw [hsame] at hsegments
      simp at hsegments
  . rintro ⟨hanchor, hnames, ⟨more, hmore⟩, hne⟩
    refine ⟨hanchor, ?_, ?_⟩
    . intro hup
      apply (hnames upSegment _).2.2 rfl
      rw [← hmore]
      exact List.mem_append_left _ hup
    . cases more with
      | nil =>
        rw [List.append_nil] at hmore
        exact absurd hmore hne
      | cons first more =>
        refine ⟨first, more, (hnames first ?_).2.2, hmore.symm⟩
        rw [← hmore]
        exact List.mem_append_right _ (.head _)

theorem length_lt_of_isInside (h : p.isInside q = true) :
    q.segments.length < p.segments.length := by
  obtain ⟨_, _, first, more, _, hsegments⟩ := isInside_iff.mp h
  rw [hsegments, List.length_append, List.length_cons]
  omega

theorem isInside_irrefl (p : LexicalPath) : p.isInside p = false := by
  rw [← Bool.not_eq_true]
  intro h
  have hlt := length_lt_of_isInside h
  omega

theorem isInside_asymm (h : p.isInside q = true) : q.isInside p = false := by
  rw [← Bool.not_eq_true]
  intro h'
  have hlt := length_lt_of_isInside h
  have hlt' := length_lt_of_isInside h'
  omega

theorem isInside_trans (hpq : p.isInside q = true) (hqr : q.isInside r = true) :
    p.isInside r = true := by
  obtain ⟨hanchor, _, first, more, _, hsegments⟩ := isInside_iff.mp hpq
  obtain ⟨hanchor', hup, first', more', hfirst', hsegments'⟩ := isInside_iff.mp hqr
  apply isInside_iff.mpr
  refine ⟨hanchor.trans hanchor', hup, first', more' ++ first :: more, hfirst', ?_⟩
  rw [hsegments, hsegments', List.append_assoc, List.cons_append]

/-- What has more segments than a path, and no outward one among them, lies inside that path. -/
theorem eq_or_isInside_of_prefix (hanchor : p.anchor = q.anchor) (hp : upSegment ∉ p.segments)
    (h : q.segments <+: p.segments) : q = p ∨ p.isInside q = true := by
  obtain ⟨more, hmore⟩ := h
  cases more with
  | nil =>
    left
    rw [List.append_nil] at hmore
    cases p
    cases q
    cases hanchor
    cases hmore
    rfl
  | cons first more =>
    right
    rw [← hmore, List.mem_append, not_or, List.mem_cons, not_or] at hp
    exact isInside_iff.mpr ⟨hanchor, hp.1, first, more, Ne.symm hp.2.1, hmore.symm⟩

/-- Of two paths around a third, one lies inside the other, unless they have the same form. -/
theorem related (hq : p.isInside q = true) (hr : p.isInside r = true) :
    q = r ∨ q.isInside r = true ∨ r.isInside q = true := by
  obtain ⟨hanchor, hup, first, more, _, hsegments⟩ := isInside_iff.mp hq
  obtain ⟨hanchor', hup', first', more', _, hsegments'⟩ := isInside_iff.mp hr
  have hprefix : q.segments <+: p.segments := ⟨_, hsegments.symm⟩
  have hprefix' : r.segments <+: p.segments := ⟨_, hsegments'.symm⟩
  rcases List.prefix_or_prefix_of_prefix hprefix hprefix' with hqr | hrq
  . rcases eq_or_isInside_of_prefix (hanchor'.symm.trans hanchor) hup' hqr with heq | hin
    . exact .inl heq
    . exact .inr (.inr hin)
  . rcases eq_or_isInside_of_prefix (hanchor.symm.trans hanchor') hup hrq with heq | hin
    . exact .inl heq.symm
    . exact .inr (.inl hin)

end LexicalPath

/-- The lexical forms of the roots that a path lies inside. -/
def Registry.formsAround (r : Registry) (p : Path) : Set LexicalPath :=
  {form | ∃ ws ∈ r.workspaces, p.isInside ws.root = true ∧ LexicalPath.ofPath ws.root = form}

theorem Registry.isChain_formsAround (r : Registry) (p : Path) :
    IsChain (fun a b => a.isInside b = true) (r.formsAround p) := by
  rintro a ⟨ws, _, hws, rfl⟩ b ⟨ws', _, hws', rfl⟩ hne
  exact (LexicalPath.related hws hws').resolve_left hne

/-- To lie inside is the strict order of a tree, for paths in either style, with or without drives and
dots. A path lies inside another one if both have the same anchor and its resolved form is made of
names that begin with those of the other and go on. No path lies inside itself, what lies inside a
path lies inside all that is around it, two paths never lie inside each other, and of two paths around
a third one lies inside the other, unless both have the same form. So the roots of the workspaces
around a document form a chain. -/
theorem Path.isInside_tree_order :
    (∀ p q : Path, p.isInside q = true
        ↔
      (LexicalPath.ofPath p).anchor = (LexicalPath.ofPath q).anchor
        ∧ (∀ s ∈ (LexicalPath.ofPath p).segments, LexicalPath.IsOrdinary s)
        ∧ (LexicalPath.ofPath q).segments <+: (LexicalPath.ofPath p).segments
        ∧ (LexicalPath.ofPath q).segments ≠ (LexicalPath.ofPath p).segments)
      ∧ (∀ p : Path, p.isInside p = false)
      ∧ (∀ p q r : Path, p.isInside q = true → q.isInside r = true → p.isInside r = true)
      ∧ (∀ p q : Path, p.isInside q = true → q.isInside p = false)
      ∧ (∀ p q r : Path, p.isInside q = true → p.isInside r = true →
        LexicalPath.ofPath q = LexicalPath.ofPath r ∨ q.isInside r = true ∨ r.isInside q = true)
      ∧ ∀ (reg : Registry) (p : Path),
        IsChain (fun a b => a.isInside b = true) (reg.formsAround p) := by
  refine ⟨?_, fun p => LexicalPath.isInside_irrefl _, ?_, ?_, ?_, Registry.isChain_formsAround⟩
  . intro p q
    exact LexicalPath.isInside_iff_names (LexicalPath.isResolved_ofText _)
  . intro p q r hpq hqr
    exact LexicalPath.isInside_trans hpq hqr
  . intro p q hpq
    exact LexicalPath.isInside_asymm hpq
  . intro p q r hq hr
    exact LexicalPath.related hq hr

/-- A document on a drive, given by a way around, with two folders around it in mixed styles. -/
theorem Path.isInside_tree_order_drive :
    let p := Path.ofString "c:\\w/x/..\\story/./a.ink"
    let q := Path.ofString "C:/w\\story/"
    let r := Path.ofString "C:\\"
    (p.isInside q = true ∧ q.isInside r = true) ∧ p.isInside r = true ∧ q.isInside p = false
      ∧ (LexicalPath.ofPath q = LexicalPath.ofPath r ∨ q.isInside r = true
        ∨ r.isInside q = true) := by
  intro p q r
  obtain ⟨_, _, htrans, hasymm, hrelated, _⟩ := isInside_tree_order
  have hpq : p.isInside q = true := by decide +kernel
  have hqr : q.isInside r = true := by decide +kernel
  have hpr := htrans p q r hpq hqr
  exact ⟨⟨hpq, hqr⟩, hpr, hasymm p q hpq, hrelated p q r hpq hpr⟩

end InkServer
