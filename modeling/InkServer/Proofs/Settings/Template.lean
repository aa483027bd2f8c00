import InkServer.Proofs.Text.Pieces
import InkServer.Proofs.Text.Span
import InkServer.Settings.Expansion
import Mathlib.Logic.ExistsUnique

/-!
This module contains the cut of a configuration value at its variables. Every text is cut in exactly
one way, and its expansion is the text with the value of each variable in place of the variable, so
that nothing is done with the values themselves.
-/

namespace InkServer

open Text

/-- What a variable begins with. -/
def opening : List Char := ['$', '\x7b']

/-- No variable begins in the text. -/
def Inert (text : List Char) : Prop :=
  ¬opening <:+: text

/-- A text that was cut at its variables from the left. -/
inductive Template where
  /-- No variable is left. -/
  | plain (last : List Char) (hlast : Inert last)
  /-- The variable that begins next does not end. -/
  | unclosed (last tail : List Char) (hlast : Inert last) (htail : '\x7d' ∉ tail)
  /-- A variable stands between two texts, and the second one was cut too. -/
  | slot (before name : List Char) (hbefore : Inert before) (hname : '\x7d' ∉ name)
    (after : Template)

namespace Template

/-- The text that was cut. -/
def text : Template → List Char
  | plain last _ => last
  | unclosed last tail _ _ => last ++ (opening ++ tail)
  | slot before name _ _ after => before ++ (opening ++ (name ++ '\x7d' :: after.text))

/-- The text with the value of each variable in its place. A variable that is unset or has no name
leaves nothing. -/
def fill (env : Environment) : Template → List Char
  | plain last _ => last
  | unclosed last tail _ _ => last ++ (opening ++ tail)
  | slot before name _ _ after =>
    before
      ++ ((if name = [] then "" else (env.lookup (String.ofList name)).getD "").toList
        ++ after.fill env)

/-- The names of the variables from the left. -/
def names : Template → List (List Char)
  | plain _ _ => []
  | unclosed _ _ _ _ => []
  | slot _ name _ _ after => name :: after.names

end Template

section

variable {c : Char} {cs before before' after after' : List Char}

theorem inert_nil : Inert [] := by
  rintro ⟨front, back, h⟩
  simp [opening] at h

theorem inert_cons : Inert (c :: cs) ↔ ¬opening <+: c :: cs ∧ Inert cs := by
  unfold Inert
  rw [List.infix_cons_iff, not_or]

theorem Inert.ne_append_opening (h : Inert cs) (before rest : List Char) :
    cs ≠ before ++ (opening ++ rest) := by
  rintro rfl
  exact h ⟨before, rest, List.append_assoc ..⟩

/-- A variable that begins behind an inert text does not begin earlier, also if the text ends with a
dollar sign. -/
theorem not_opening_prefix_append (h : Inert (c :: cs)) (rest : List Char) :
    ¬opening <+: c :: (cs ++ (opening ++ rest)) := by
  intro hprefix
  obtain ⟨hc, hcs⟩ := List.cons_prefix_cons.mp hprefix
  cases cs with
  | nil => simp [opening] at hcs
  | cons d cs =>
    have hd : '\x7b' = d := (List.cons_prefix_cons.mp hcs).1
    apply (inert_cons.mp h).1
    rw [← hc, ← hd]
    exact List.prefix_append opening cs

/-- A text is cut before its first variable in one way only. -/
theorem append_opening_inj (h : Inert before) (h' : Inert before')
    (heq : before ++ (opening ++ after) = before' ++ (opening ++ after')) :
    before = before' ∧ after = after' := by
  induction before generalizing before' with
  | nil =>
    cases before' with
    | nil => exact ⟨rfl, List.append_cancel_left heq⟩
    | cons d before' =>
      refine absurd ?_ (not_opening_prefix_append h' after')
      exact ⟨after, heq⟩
  | cons c before ih =>
    cases before' with
    | nil =>
      refine absurd ?_ (not_opening_prefix_append h after)
      exact ⟨after', heq.symm⟩
    | cons d before' =>
      rw [List.cons_append, List.cons_append, List.cons.injEq] at heq
      obtain ⟨hfront, hback⟩ := ih (inert_cons.mp h).2 (inert_cons.mp h').2 heq.2
      exact ⟨by rw [heq.1, hfront], hback⟩

theorem inert_or_opening (cs : List Char) :
    Inert cs ∨ ∃ before rest, Inert before ∧ cs = before ++ (opening ++ rest) := by
  induction cs with
  | nil => exact .inl inert_nil
  | cons c cs ih =>
    by_cases hc : opening <+: c :: cs
    . obtain ⟨rest, hrest⟩ := hc
      exact .inr ⟨[], rest, inert_nil, hrest.symm⟩
    . rcases ih with hcs | ⟨before, rest, hbefore, hcs⟩
      . exact .inl (inert_cons.mpr ⟨hc, hcs⟩)
      . refine .inr ⟨c :: before, rest, inert_cons.mpr ⟨?_, hbefore⟩, by rw [hcs, List.cons_append]⟩
        intro hprefix
        apply hc
        rw [hcs, ← List.cons_append]
        exact hprefix.trans (List.prefix_append _ _)

end

namespace Template

theorem text_injective {t u : Template} (h : t.text = u.text) : t = u := by
  induction t generalizing u with
  | plain last hlast =>
    cases u with
    | plain last' hlast' =>
      cases h
      rfl
    | unclosed last' tail' hlast' htail' => exact absurd h (hlast.ne_append_opening _ _)
    | slot before' name' hbefore' hname' after' => exact absurd h (hlast.ne_append_opening _ _)
  | unclosed last tail hlast htail =>
    cases u with
    | plain last' hlast' => exact absurd h.symm (hlast'.ne_append_opening _ _)
    | unclosed last' tail' hlast' htail' =>
      obtain ⟨rfl, rfl⟩ := append_opening_inj hlast hlast' h
      rfl
    | slot before' name' hbefore' hname' after' =>
      -- The variable that begins first ends in one of them only.
      obtain ⟨_, rfl⟩ := append_opening_inj hlast hbefore' h
      simp at htail
  | slot before name hbefore hname after ih =>
    cases u with
    | plain last' hlast' => exact absurd h.symm (hlast'.ne_append_opening _ _)
    | unclosed last' tail' hlast' htail' =>
      obtain ⟨_, rfl⟩ := append_opening_inj hbefore hlast' h
      simp at htail'
    | slot before' name' hbefore' hname' after' =>
      obtain ⟨rfl, hrest⟩ := append_opening_inj hbefore hbefore' h
      obtain ⟨rfl, hafter⟩ := append_cons_inj_of_not_mem hname hname' hrest
      rw [ih hafter]

theorem exists_text_eq (cs : List Char) : ∃ t : Template, t.text = cs := by
  rcases inert_or_opening cs with hcs | ⟨before, rest, hbefore, hcs⟩
  . exact ⟨.plain cs hcs, rfl⟩
  . by_cases hclosed : '\x7d' ∈ rest
    . obtain ⟨name, rest', hrest, hname⟩ := List.eq_append_cons_of_mem hclosed
      have hlt : rest'.length < cs.length := by
        simp only [hcs, hrest, List.length_append, List.length_cons]
        omega
      obtain ⟨after, hafter⟩ := exists_text_eq rest'
      refine ⟨.slot before name hbefore hname after, ?_⟩
      rw [text, hafter, hcs, hrest]
    . exact ⟨.unclosed before rest hbefore hclosed, hcs.symm⟩
termination_by cs.length

theorem three_mul_length_names_le (t : Template) : 3 * t.names.length ≤ t.text.length := by
  induction t with
  | plain => simp [names]
  | unclosed => simp [names]
  | slot before name hbefore hname after ih =>
    simp only [names, text, opening, List.length_append, List.length_cons]
    omega

end Template

namespace Environment

variable {cs before name tail : List Char}

theorem expand_cons {c : Char} (env : Environment) (h : ¬opening <+: c :: cs) :
    env.expand (c :: cs) = c :: env.expand cs := by
  rw [expand]
  rintro rest rfl rfl
  exact h ⟨rest, rfl⟩

theorem expand_inert (env : Environment) (h : Inert cs) : env.expand cs = cs := by
  induction cs with
  | nil => rw [expand]
  | cons c cs ih =>
    obtain ⟨hc, hcs⟩ := inert_cons.mp h
    rw [expand_cons env hc, ih hcs]

theorem expand_append_opening (env : Environment) (h : Inert before) (rest : List Char) :
    env.expand (before ++ (opening ++ rest)) = before ++ env.expand (opening ++ rest) := by
  induction before with
  | nil => rfl
  | cons c before ih =>
    rw [List.cons_append, expand_cons env (not_opening_prefix_append h rest),
      ih (inert_cons.mp h).2, List.cons_append]

theorem expand_unclosed (env : Environment) (h : '\x7d' ∉ tail) :
    env.expand (opening ++ tail) = opening ++ tail := by
  have hsplit := splitFirst?_eq_none h
  rw [opening, List.cons_append, List.cons_append, List.nil_append, expand]
  split
  . rfl
  . next heq =>
    rw [hsplit] at heq
    cases heq

/-- One round of the pass: a variable gives way to its value, and the pass goes on behind it. -/
theorem expand_slot (env : Environment) (h : '\x7d' ∉ name) (rest : List Char) :
    env.expand (opening ++ (name ++ '\x7d' :: rest)) = env.value name ++ env.expand rest := by
  have hsplit := splitFirst?_append_cons h rest
  rw [opening, List.cons_append, List.cons_append, List.nil_append, expand]
  split
  . next heq =>
    rw [hsplit] at heq
    cases heq
  . next heq =>
    rw [hsplit, Option.some.injEq, Prod.mk.injEq] at heq
    rw [heq.1, heq.2]

theorem value_eq (env : Environment) (name : List Char) :
    env.value name
      =
    (if name = [] then "" else (env.lookup (String.ofList name)).getD "").toList := by
  unfold value
  split
  . rfl
  . cases env.lookup (String.ofList name) with
    | none => rfl
    | some v => rfl

theorem expand_text (env : Environment) (t : Template) : env.expand t.text = t.fill env := by
  induction t with
  | plain last hlast => exact env.expand_inert hlast
  | unclosed last tail hlast htail =>
    rw [Template.text, env.expand_append_opening hlast, env.expand_unclosed htail]
    rfl
  | slot before name hbefore hname after ih =>
    rw [Template.text, env.expand_append_opening hbefore, env.expand_slot hname, ih, value_eq]
    rfl

/-- Variables are expanded in one pass from the left. A text is cut at its variables in exactly one
way, with an opening that has no end and all that follows it as the last part. The expansion has the
value of each variable in its place and everything else as it was, whatever the values look like. The
pass ends, since each of its rounds takes at least three characters off the text. -/
theorem expandText_one_pass :
    (∀ (env : Environment) (t : Template),
        env.expandText (String.ofList t.text) = String.ofList (t.fill env))
      ∧ (∀ s : String, ∃! t : Template, t.text = s.toList)
      ∧ ∀ t : Template, 3 * t.names.length ≤ t.text.length := by
  refine ⟨?_, ?_, Template.three_mul_length_names_le⟩
  . intro env t
    rw [expandText, String.toList_ofList, expand_text]
  . intro s
    obtain ⟨t, ht⟩ := Template.exists_text_eq s.toList
    refine ⟨t, ht, ?_⟩
    intro u hu
    exact Template.text_injective (hu.trans ht.symm)

-- The value of `A` looks like a variable, and the name of the next one like the start of another.
example :
    expandText [("A", "$\x7bB\x7d"), ("B", "b"), ("a$\x7bb", "c"), ("", "d")]
        "$$\x7bA\x7d$\x7ba$\x7bb\x7d$\x7b\x7d|$\x7bA"
      =
    "$$\x7bB\x7dc|$\x7bA" := by
  decide +kernel

end Environment

end InkServer
