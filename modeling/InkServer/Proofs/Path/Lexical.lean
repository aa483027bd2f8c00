import InkServer.Path.Lexical
import InkServer.Proofs.Path.Normal
import InkServer.Proofs.Text.Utf8

/-!
This module contains the agreement between the two views of a path: one that leads outwards has an
outward segment in its lexical form, so that nothing lies inside it and it lies inside nothing.
-/

namespace InkServer

open Text

namespace LexicalPath

variable {resolved segments : List (List Char)} {rest : List Char} {p base : LexicalPath}

theorem isInside_iff :
    p.isInside base = true
      ↔
    p.anchor = base.anchor ∧ upSegment ∉ base.segments
      ∧ ∃ first more, first ≠ upSegment ∧ p.segments = base.segments ++ first :: more := by
  unfold isInside
  simp only [Bool.and_eq_true, decide_eq_true_eq, Bool.not_eq_true', List.contains_eq_mem,
    decide_eq_false_iff_not, and_assoc]
  apply and_congr_right
  intro _
  apply and_congr_right
  intro _
  constructor
  . intro h
    split at h
    . next first more hafter =>
      exact ⟨first, more, by simpa using h, afterStart?_eq_some_iff.mp hafter⟩
    . cases h
  . rintro ⟨first, more, hfirst, hsegments⟩
    rw [afterStart?_eq_some_iff.mpr hsegments]
    simpa using hfirst

theorem getLast?_addSegment (h : resolved.getLast? = some upSegment) (segment : List Char) :
    (addSegment false resolved segment).getLast? = some upSegment := by
  unfold addSegment
  split
  . exact h
  . split
    . split
      . next last before =>
        split
        . next hlast =>
          cases before with
          | nil => exact absurd (by simpa using h) hlast
          | cons next before => simpa using h
        . simp [h]
      . simp at h
    . rw [List.getLast?_cons, h]
      rfl

theorem getLast?_foldl (h : resolved.getLast? = some upSegment) :
    (segments.foldl (addSegment false) resolved).getLast? = some upSegment := by
  induction segments generalizing resolved with
  | nil => exact h
  | cons segment segments ih =>
    rw [List.foldl_cons]
    exact ih (getLast?_addSegment h segment)

theorem hasDrive_slash (cs : List Char) : hasDrive ('/' :: cs) = false := by
  unfold hasDrive
  split
  . next heq =>
    obtain ⟨rfl, -⟩ := List.cons.inj heq
    decide
  . next heq =>
    obtain ⟨rfl, -⟩ := List.cons.inj heq
    rw [show isLetter '/' = false by decide, Bool.false_and]
  . rfl

/-- A text that begins with an outward step keeps it in its lexical form. -/
theorem head?_ofText_up (h : rest = [] ∨ rest.head? = some '/') :
    (ofText ('.' :: '.' :: rest)).segments.head? = some upSegment := by
  have hdrive : ∀ cs : List Char, hasDrive ('.' :: '.' :: cs) = false := by
    intro cs
    unfold hasDrive
    split <;> simp_all
  have hpieces : ∃ ps, pieces '/' ('.' :: '.' :: rest.map fun c => if c = '\\' then '/' else c)
      = upSegment :: ps := by
    cases rest with
    | nil => exact ⟨[], by decide⟩
    | cons c rest =>
      have hc : c = '/' := by simpa using h
      refine ⟨pieces '/' (rest.map fun c => if c = '\\' then '/' else c), ?_⟩
      rw [hc]
      simp [pieces, upSegment]
  obtain ⟨ps, hps⟩ := hpieces
  unfold ofText
  simp only [List.map_cons, Char.reduceEq, if_false, hdrive, Bool.false_eq_true, List.head?_cons,
    Option.some.injEq, decide_false, Anchor.isNone, Option.isNone_none, Bool.not_false, Bool.and_self,
    Bool.not_true, hps, List.foldl_cons, List.head?_reverse]
  apply getLast?_foldl
  rfl

end LexicalPath

namespace Path

variable {p base : Path}

/-- The bytes of a normal path that leads outwards begin with an outward step. -/
theorem exists_bytes_of_up (hn : p.normalize = p) (hup : .up ∈ p.components) :
    ∃ rest, p.bytes = dot :: dot :: rest ∧ (rest = [] ∨ rest.head? = some slash) := by
  obtain ⟨lead, ns, hcs, hlead⟩ := p.isNormal_components_normalize
  rw [hn] at hcs
  rcases hlead with hlead | ⟨k, hlead⟩
  . rw [hcs, hlead] at hup
    simp at hup
  . cases k with
    | zero =>
      rw [hcs, hlead] at hup
      simp at hup
    | succ k =>
      rw [List.replicate_succ] at hlead
      rw [hlead] at hcs
      have hof := ofComponents_components_normalize p
      rw [hn, hcs] at hof
      rw [← hof, ofComponents]
      . cases htail : List.replicate k Component.up ++ ns.map .name with
        | nil =>
          rw [List.cons_append, htail]
          exact ⟨[], rfl, .inl rfl⟩
        | cons c cs =>
          rw [List.cons_append, htail]
          exact ⟨_, rfl, .inr rfl⟩
      . simp

theorem head?_ofPath_up (hn : p.normalize = p) (hup : .up ∈ p.components) :
    (LexicalPath.ofPath p).segments.head? = some LexicalPath.upSegment := by
  obtain ⟨rest, hbytes, hrest⟩ := exists_bytes_of_up hn hup
  rw [LexicalPath.ofPath, hbytes, decodeLossy_cons (by decide), decodeLossy_cons (by decide)]
  apply LexicalPath.head?_ofText_up
  cases rest with
  | nil => exact .inl (by simp [decodeLossy, decodeUnits])
  | cons b rest =>
    have hslash : b = slash := by simpa using hrest
    rw [hslash, decodeLossy_cons (by decide)]
    exact .inr rfl

theorem of_isInside (h : p.isInside base = true) :
    (LexicalPath.ofPath p).anchor = (LexicalPath.ofPath base).anchor
      ∧ LexicalPath.upSegment ∉ (LexicalPath.ofPath base).segments
      ∧ ∃ first rest, first ≠ LexicalPath.upSegment
        ∧ (LexicalPath.ofPath p).segments = (LexicalPath.ofPath base).segments ++ first :: rest :=
  LexicalPath.isInside_iff.mp h

theorem up_not_mem_of_isInside (h : p.isInside base = true) (hb : base.normalize = base) :
    .up ∉ base.components := by
  intro hup
  obtain ⟨_, hnot, _⟩ := of_isInside h
  exact hnot (List.mem_of_head? (head?_ofPath_up hb hup))

theorem up_not_mem_of_isInside_left (h : p.isInside base = true) (hn : p.normalize = p) :
    .up ∉ p.components := by
  intro hup
  have hfirst := head?_ofPath_up hn hup
  obtain ⟨_, hnot, first, rest, hne, hsegments⟩ := of_isInside h
  rw [hsegments] at hfirst
  cases hbase : (LexicalPath.ofPath base).segments with
  | nil =>
    rw [hbase] at hfirst
    exact hne (by simpa using hfirst)
  | cons segment segments =>
    rw [hbase] at hfirst hnot
    exact hnot (by simp [← show segment = LexicalPath.upSegment by simpa using hfirst])

/-- A path that starts at the root lies inside no empty path. -/
theorem ne_empty_of_isInside (h : p.isInside base = true) (habs : p.isAbsolute = true) :
    base ≠ .empty := by
  rintro rfl
  obtain ⟨rest, hbytes⟩ : ∃ rest, p.bytes = slash :: rest := by
    rcases p with ⟨_ | ⟨b, rest⟩⟩
    . simp [isAbsolute] at habs
    . exact ⟨rest, by simpa [isAbsolute] using habs⟩
  have hslash : Char.ofNat slash.toNat = '/' := by decide
  obtain ⟨hanchor, _⟩ := of_isInside h
  rw [LexicalPath.ofPath, LexicalPath.ofPath, hbytes, decodeLossy_cons (by decide), hslash] at hanchor
  simp [LexicalPath.ofText, LexicalPath.hasDrive_slash, empty, decodeLossy, decodeUnits] at hanchor

end Path

end InkServer
