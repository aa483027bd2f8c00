import InkServer.Proofs.Path.Inside
import InkServer.Proofs.Path.Order

/-!
This module contains the paths whose lexical form says all about them: those that start at the root
and are texts without backslashes. Two such roots that have a path inside both of them are related.
-/

namespace InkServer

open Text

theorem Text.decodeLossy_encode (cs : List Char) : decodeLossy (encode cs) = cs := by
  rw [decodeLossy, decodeUnits_encode, List.map_map]
  exact List.map_id cs

theorem Text.encode_joined (ps : List (List Char)) :
    encode (joined '/' ps) = joined slash (ps.map encode) := by
  fun_induction joined '/' ps with
  | case1 => rfl
  | case2 p => rfl
  | case3 p q ps ih =>
    rw [encode_append, encode_cons, ih]
    rfl

/-- Cutting a text at slashes and cutting its bytes come to the same. -/
theorem Text.pieces_encode (cs : List Char) :
    pieces slash (encode cs) = (pieces '/' cs).map encode := by
  have hcs : encode cs = joined slash ((pieces '/' cs).map encode) := by
    rw [← encode_joined, joined_pieces]
  rw [hcs, pieces_joined]
  . simpa using pieces_ne_nil '/' cs
  . intro piece hpiece
    obtain ⟨q, hq, heq⟩ := List.mem_map.mp hpiece
    rw [← heq]
    exact not_mem_encode (by decide) (not_mem_of_mem_pieces hq)

namespace LexicalPath

variable {segments resolved : List (List Char)}

theorem foldl_addSegment_of_ordinary {anchored : Bool} (h : ∀ s ∈ segments, IsOrdinary s) :
    segments.foldl (addSegment anchored) resolved = segments.reverse ++ resolved := by
  induction segments generalizing resolved with
  | nil => rfl
  | cons s segments ih =>
    rw [List.foldl_cons, addSegment_ordinary (h s (.head _)), ih fun s hs => h s (.tail _ hs),
      List.reverse_cons, List.append_assoc]
    rfl

theorem segments_ofText_slash {cs : List Char} (h : '\\' ∉ cs) :
    (ofText ('/' :: cs)).segments = ((pieces '/' cs).foldl (addSegment true) []).reverse := by
  have hunified : ('/' :: cs).map (fun c => if c = '\\' then '/' else c) = '/' :: cs := by
    rw [List.map_cons, if_neg (by decide)]
    congr 1
    refine (List.map_congr_left fun c hc => ?_).trans (List.map_id cs)
    rw [if_neg, id]
    rintro rfl
    exact h hc
  have hpieces : pieces '/' ('/' :: cs) = [] :: pieces '/' cs := by
    simp [pieces]
  unfold ofText
  rw [hunified]
  simp [hasDrive_slash, Anchor.isNone, hpieces, addSegment]

end LexicalPath

namespace Path

variable {p a b : Path}

/-- The path starts at the root and is a text without backslashes. -/
structure IsLegible (p : Path) : Prop where
  absolute : p.isAbsolute = true
  text : ∃ cs, p.bytes = encode cs ∧ '\\' ∉ cs

theorem IsLegible.bytes_eq (h : p.IsLegible) (hn : p.normalize = p) :
    p.bytes = encode ('/' :: joined '/' (LexicalPath.ofPath p).segments) := by
  obtain ⟨ns, hns, hp⟩ := exists_names_of_isAbsolute h.absolute hn
  have hbytes : p.bytes = slash :: joined slash ns := by rw [hp, bytes_ofComponents_root]
  obtain ⟨cs, hcs, hback⟩ := h.text
  obtain ⟨ds, hds⟩ : ∃ ds, cs = '/' :: ds := by
    have htext := congrArg decodeLossy (hcs.symm.trans hbytes)
    rw [decodeLossy_encode, decodeLossy_cons (by decide)] at htext
    exact ⟨_, htext⟩
  rw [hds] at hcs hback
  have hrest : encode ds = joined slash ns :=
    List.tail_eq_of_cons_eq (hcs.symm.trans hbytes)
  have hsegments := LexicalPath.segments_ofText_slash fun hmem => hback (.tail _ hmem)
  have hof : LexicalPath.ofPath p = LexicalPath.ofText ('/' :: ds) := by
    rw [LexicalPath.ofPath, hcs, decodeLossy_encode]
  rw [hof, hsegments, hcs]
  congr 2
  cases ns with
  | nil =>
    -- Only the empty text has no bytes.
    have hnil : ds = [] := by
      rw [← decodeLossy_encode ds, hrest]
      simp [joined, decodeLossy, decodeUnits]
    rw [hnil]
    rfl
  | cons n ns =>
    have hpieces : (pieces '/' ds).map encode = n :: ns := by
      rw [← pieces_encode, hrest, pieces_joined (by simp)]
      intro m hm
      exact (hns m hm).slash_not_mem
    have hordinary : ∀ s ∈ pieces '/' ds, LexicalPath.IsOrdinary s := by
      intro s hs
      have hname : IsName (encode s) := by
        apply hns
        rw [← hpieces]
        exact List.mem_map.mpr ⟨s, hs, rfl⟩
      refine ⟨?_, ?_, ?_⟩
      . rintro rfl
        exact hname.ne_nil rfl
      . rintro rfl
        exact hname.ne_here rfl
      . rintro rfl
        exact hname.ne_up rfl
    rw [LexicalPath.foldl_addSegment_of_ordinary hordinary, List.append_nil, List.reverse_reverse,
      joined_pieces]

theorem IsLegible.eq_of_segments (ha : a.IsLegible) (hna : a.normalize = a) (hb : b.IsLegible)
    (hnb : b.normalize = b)
    (h : (LexicalPath.ofPath a).segments = (LexicalPath.ofPath b).segments) : a = b := by
  have hbytes : a.bytes = b.bytes := by rw [ha.bytes_eq hna, hb.bytes_eq hnb, h]
  exact congrArg Path.mk hbytes

theorem isInside_of_segments {first : List Char} {rest : List (List Char)}
    (hanchor : (LexicalPath.ofPath p).anchor = (LexicalPath.ofPath a).anchor)
    (hup : LexicalPath.upSegment ∉ (LexicalPath.ofPath a).segments)
    (hfirst : first ≠ LexicalPath.upSegment)
    (h : (LexicalPath.ofPath p).segments = (LexicalPath.ofPath a).segments ++ first :: rest) :
    p.isInside a = true :=
  LexicalPath.isInside_iff.mpr ⟨hanchor, hup, first, rest, hfirst, h⟩

/-- Of two legible roots with a path inside both, one is or contains the other. -/
theorem IsLegible.related (ha : a.IsLegible) (hna : a.normalize = a) (hb : b.IsLegible)
    (hnb : b.normalize = b) (hpa : p.isInside a = true) (hpb : p.isInside b = true) :
    a = b ∨ a.isInside b = true ∨ b.isInside a = true := by
  apply (LexicalPath.related hpa hpb).imp_left
  intro hform
  exact ha.eq_of_segments hna hb hnb (congrArg LexicalPath.segments hform)

end Path

end InkServer
