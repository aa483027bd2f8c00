import InkServer.Proofs.Text.Numeral

/-!
This module contains the laws of the longest stretch of a class at the start of a list: where it ends,
and that a list is cut there in one way only. They are used for blanks, which are the characters with
the property White_Space.
-/

namespace InkServer.Text

section

variable {α : Type} {p : α → Bool} {x : α} {xs ys xs' ys' : List α}

/-- The list does not begin with a member of the class. -/
def Stops (p : α → Bool) (xs : List α) : Prop :=
  ∀ x, xs.head? = some x → p x = false

theorem stops_nil (p : α → Bool) : Stops p [] := by
  intro _ h
  cases h

theorem stops_cons : Stops p (x :: xs) ↔ p x = false := by
  simp [Stops]

instance (p : α → Bool) : (xs : List α) → Decidable (Stops p xs)
  | [] => isTrue (stops_nil p)
  | x :: _ => decidable_of_iff (p x = false) stops_cons.symm

theorem stops_dropWhile (p : α → Bool) (xs : List α) : Stops p (xs.dropWhile p) := by
  intro x hx
  have hhead := List.head?_dropWhile_not p xs
  rw [hx] at hhead
  exact hhead

theorem takeWhile_of_stops (h : Stops p xs) : xs.takeWhile p = [] := by
  cases xs with
  | nil => rfl
  | cons x xs => simp [stops_cons.mp h]

theorem takeWhile_append_of_stops (hxs : xs.all p) (hys : Stops p ys) :
    (xs ++ ys).takeWhile p = xs := by
  rw [List.takeWhile_append_of_pos (List.all_eq_true.mp hxs), takeWhile_of_stops hys,
    List.append_nil]

theorem dropWhile_of_stops (h : Stops p xs) : xs.dropWhile p = xs := by
  cases xs with
  | nil => rfl
  | cons x xs => simp [stops_cons.mp h]

theorem dropWhile_append_of_stops (hxs : xs.all p) (hys : Stops p ys) :
    (xs ++ ys).dropWhile p = ys := by
  rw [List.dropWhile_append_of_pos (List.all_eq_true.mp hxs), dropWhile_of_stops hys]

/-- A list is cut at the end of its longest stretch in one way only. -/
theorem append_inj_of_stops (hxs : xs.all p) (hys : Stops p ys) (hxs' : xs'.all p)
    (hys' : Stops p ys') (h : xs ++ ys = xs' ++ ys') : xs = xs' ∧ ys = ys' := by
  constructor
  . rw [← takeWhile_append_of_stops hxs hys, h, takeWhile_append_of_stops hxs' hys']
  . rw [← dropWhile_append_of_stops hxs hys, h, dropWhile_append_of_stops hxs' hys']

/-- The stretch up to the first `x` is one of members other than `x`. -/
theorem append_cons_inj_of_not_mem [DecidableEq α] (hxs : x ∉ xs) (hxs' : x ∉ xs')
    (h : xs ++ x :: ys = xs' ++ x :: ys') : xs = xs' ∧ ys = ys' := by
  have hother : ∀ {zs : List α}, x ∉ zs → zs.all (· ≠ x) := by
    intro zs hzs
    apply List.all_eq_true.mpr
    intro z hz
    apply decide_eq_true
    rintro rfl
    exact hzs hz
  have hstops : ∀ zs, Stops (fun z => decide (z ≠ x)) (x :: zs) := by
    intro zs
    simp [stops_cons]
  obtain ⟨hfront, hback⟩ := append_inj_of_stops (hother hxs) (hstops ys) (hother hxs') (hstops ys') h
  exact ⟨hfront, (List.cons.inj hback).2⟩

end

/-- The characters with the property White_Space. -/
def whiteSpace : List Nat :=
  [0x9, 0xA, 0xB, 0xC, 0xD, 0x20, 0x85, 0xA0, 0x1680, 0x2000, 0x2001, 0x2002, 0x2003, 0x2004, 0x2005,
   0x2006, 0x2007, 0x2008, 0x2009, 0x200A, 0x2028, 0x2029, 0x202F, 0x205F, 0x3000]

theorem isBlank_iff_mem_whiteSpace (c : Char) : isBlank c = true ↔ c.toNat ∈ whiteSpace := by
  simp only [isBlank, Bool.or_eq_true, Bool.and_eq_true, decide_eq_true_eq, beq_iff_eq, whiteSpace,
    List.mem_cons, List.not_mem_nil, or_false]
  omega

variable {c : Char} {cs core before after : List Char}

/-- `core` is what is left of `cs` without the blanks at its ends. -/
structure Trimmed (cs core : List Char) : Prop where
  around : ∃ before after, cs = before ++ (core ++ after) ∧ allBlank before ∧ allBlank after
  starts : Stops isBlank core
  ends : Stops isBlank core.reverse

theorem allBlank_reverse (cs : List Char) : allBlank cs.reverse = allBlank cs :=
  List.all_reverse

theorem allBlank_takeWhile (cs : List Char) : allBlank (cs.takeWhile isBlank) :=
  List.all_takeWhile

theorem allBlank_append : allBlank (before ++ after) ↔ allBlank before ∧ allBlank after := by
  rw [allBlank, List.all_append, Bool.and_eq_true]
  rfl

theorem trimmed_trim (cs : List Char) : Trimmed cs (trim cs) := by
  have hback : trim cs ++ ((trimStart cs).reverse.takeWhile isBlank).reverse = trimStart cs := by
    rw [trim, trimEnd, ← List.reverse_append, List.takeWhile_append_dropWhile, List.reverse_reverse]
  constructor
  . refine ⟨cs.takeWhile isBlank, ((trimStart cs).reverse.takeWhile isBlank).reverse, ?_, ?_, ?_⟩
    . rw [hback, trimStart, List.takeWhile_append_dropWhile]
    . apply allBlank_takeWhile
    . rw [allBlank_reverse]
      apply allBlank_takeWhile
  . -- The start of what is left is the start of the text without its first blanks.
    intro c hc
    apply stops_dropWhile isBlank cs c
    rw [← trimStart, ← hback, List.head?_append, hc, Option.some_or]
  . rw [trim, trimEnd, List.reverse_reverse]
    exact stops_dropWhile _ _

theorem Trimmed.eq_trim (h : Trimmed cs core) : core = trim cs := by
  obtain ⟨before, after, hcs, hbefore, hafter⟩ := h.around
  rw [hcs, trim, trimStart_append hbefore]
  cases core with
  | nil =>
    have hnil := trimStart_append hafter []
    rw [List.append_nil] at hnil
    rw [List.nil_append, hnil]
    rfl
  | cons c rest =>
    rw [List.cons_append, trimStart_cons_of_not (stops_cons.mp h.starts), ← List.cons_append,
      trimEnd_append hafter, trimEnd, dropWhile_of_stops h.ends, List.reverse_reverse]

theorem Trimmed.append (h : Trimmed cs core) (hafter : allBlank after) :
    Trimmed (cs ++ after) core where
  around := by
    obtain ⟨b, a, hcs, hb, ha⟩ := h.around
    exact ⟨b, a ++ after, by simp [hcs], hb, allBlank_append.mpr ⟨ha, hafter⟩⟩
  starts := h.starts
  ends := h.ends

theorem trim_append (hafter : allBlank after) (cs : List Char) : trim (cs ++ after) = trim cs :=
  ((trimmed_trim cs).append hafter).eq_trim.symm

theorem trim_eq_nil_iff : trim cs = [] ↔ allBlank cs := by
  constructor
  . intro h
    obtain ⟨b, a, hcs, hb, ha⟩ := (trimmed_trim cs).around
    rw [hcs, h, List.nil_append]
    exact allBlank_append.mpr ⟨hb, ha⟩
  . intro h
    have hnil := trim_append h []
    rwa [List.nil_append] at hnil

theorem trimEnd_append_cons (hc : isBlank c = false) (before after : List Char) :
    trimEnd (before ++ c :: after) = before ++ c :: trimEnd after := by
  have hstops : Stops isBlank (c :: before.reverse) := stops_cons.mpr hc
  rw [trimEnd, List.reverse_append, List.reverse_cons, List.append_assoc, List.dropWhile_append]
  split
  . next hempty =>
    have hafter : trimEnd after = [] := by
      rw [trimEnd, List.isEmpty_iff.mp hempty, List.reverse_nil]
    rw [hafter, List.singleton_append, dropWhile_of_stops hstops]
    simp
  . simp [trimEnd]

theorem trim_trimEnd (cs : List Char) : trim (trimEnd cs) = trim cs := by
  have hcs : trimEnd cs ++ (cs.reverse.takeWhile isBlank).reverse = cs := by
    rw [trimEnd, ← List.reverse_append, List.takeWhile_append_dropWhile, List.reverse_reverse]
  have hblank : allBlank (cs.reverse.takeWhile isBlank).reverse := by
    rw [allBlank_reverse]
    apply allBlank_takeWhile
  have htrim := trim_append hblank (trimEnd cs)
  rwa [hcs, eq_comm] at htrim

end InkServer.Text
