import InkServer.Tool.Lookup

/-!
This module contains the law of the memory of compilers that were found. It keeps only the name of a
compiler, so the answers are those of fresh lookups exactly as long as no compiler that can only be
started through a shim is looked for without one after it was found with one.
-/

namespace InkServer

open Text

namespace Disk

variable {d : Disk} {folders : List Path} {s t : Settings}

theorem hasTool_of_shim (h : s.shim.isSome) :
    d.hasTool folders s
      =
    (d.isFile (.ofString s.inklecate) || (d.which? folders s.inklecate).isSome) := by
  obtain ⟨command, hcommand⟩ := Option.isSome_iff_exists.mp h
  rw [hasTool, hcommand]

theorem hasTool_of_no_shim (h : s.shim = none) :
    d.hasTool folders s = (d.which? folders s.inklecate).isSome := by
  rw [hasTool, h]

end Disk

namespace ToolMemory

variable {d : Disk} {folders : List Path} {m : ToolMemory} {past calls : List Settings}
  {s t : Settings}

/-- The answers to calls that are made one after the other. -/
def answers (d : Disk) (folders : List Path) : ToolMemory → List Settings → List Bool
  | _, [] => []
  | m, s :: rest =>
    let (found, m) := m.check d folders s
    found :: answers d folders m rest

theorem check_fst (m : ToolMemory) (d : Disk) (folders : List Path) (s : Settings) :
    (m.check d folders s).1 = (m.found.contains s.inklecate || d.hasTool folders s) := by
  unfold check
  split
  . next hfound => rw [hfound, Bool.true_or]
  . next hfound =>
    rw [Bool.not_eq_true] at hfound
    rw [hfound, Bool.false_or]
    split
    . next htool => exact htool.symm
    . next htool => exact (Bool.eq_false_iff.mpr htool).symm

theorem mem_found_check {e : String} :
    e ∈ (m.check d folders s).2.found
      ↔
    e ∈ m.found ∨ (s.inklecate = e ∧ d.hasTool folders s = true) := by
  unfold check
  split
  . next hfound =>
    rw [List.contains_iff_mem] at hfound
    constructor
    . exact .inl
    . rintro (hmem | ⟨rfl, _⟩)
      . exact hmem
      . exact hfound
  . split
    . next htool =>
      rw [List.mem_cons, or_comm]
      simp [htool, eq_comm]
    . next htool => simp [htool]

/-- The memory holds the compilers that the calls so far found. -/
def Recalls (d : Disk) (folders : List Path) (m : ToolMemory) (past : List Settings) : Prop :=
  ∀ e, e ∈ m.found ↔ ∃ s ∈ past, s.inklecate = e ∧ d.hasTool folders s = true

theorem recalls_empty (d : Disk) (folders : List Path) : Recalls d folders .empty [] := by
  intro e
  simp [empty]

theorem Recalls.check (h : Recalls d folders m past) (s : Settings) :
    Recalls d folders (m.check d folders s).2 (past ++ [s]) := by
  intro e
  rw [mem_found_check, h e]
  constructor
  . rintro (⟨t, ht, hfound⟩ | hfound)
    . exact ⟨t, List.mem_append_left _ ht, hfound⟩
    . exact ⟨s, by simp, hfound⟩
  . rintro ⟨t, ht, hfound⟩
    rcases List.mem_append.mp ht with ht | ht
    . exact .inl ⟨t, ht, hfound⟩
    . rw [List.mem_singleton.mp ht] at hfound
      exact .inr hfound

/-- A call without a shim for a file that cannot be started by itself, after a call for the same file
with a shim. -/
structure Misled (d : Disk) (folders : List Path) (past : List Settings) (t : Settings) : Prop where
  no_shim : t.shim = none
  isFile : d.isFile (.ofString t.inklecate) = true
  not_found : d.which? folders t.inklecate = none
  found_before : ∃ s ∈ past, s.inklecate = t.inklecate ∧ s.shim.isSome

/-- What was found before and is not found now is a file that was looked for with a shim. -/
theorem misled_of_found (hs : s ∈ past) (hname : s.inklecate = t.inklecate)
    (hfound : d.hasTool folders s = true) (hnot : d.hasTool folders t = false) :
    Misled d folders past t := by
  have hwhich : (d.which? folders t.inklecate).isSome = false := by
    cases ht : t.shim with
    | none => rwa [Disk.hasTool_of_no_shim ht] at hnot
    | some command =>
      rw [Disk.hasTool_of_shim (by simp [ht]), Bool.or_eq_false_iff] at hnot
      exact hnot.2
  have hshim : s.shim.isSome := by
    rw [Option.isSome_iff_ne_none]
    intro hs
    rw [Disk.hasTool_of_no_shim hs, hname, hwhich] at hfound
    cases hfound
  have hfile : d.isFile (.ofString t.inklecate) = true := by
    rwa [Disk.hasTool_of_shim hshim, hname, hwhich, Bool.or_false] at hfound
  have hnone : t.shim = none := by
    apply Option.not_isSome_iff_eq_none.mp
    intro ht
    rw [Disk.hasTool_of_shim ht, hfile, Bool.true_or] at hnot
    cases hnot
  exact ⟨hnone, hfile, by simpa using hwhich, s, hs, hname, hshim⟩

theorem Misled.fresh (h : Misled d folders past t) : d.hasTool folders t = false := by
  rw [Disk.hasTool_of_no_shim h.no_shim, h.not_found]
  rfl

/-- One call answers as a fresh lookup does, unless it is misled. -/
theorem Recalls.check_fresh_iff (h : Recalls d folders m past) (t : Settings) :
    (m.check d folders t).1 = d.hasTool folders t ↔ ¬ Misled d folders past t := by
  rw [check_fst]
  constructor
  . intro hsame hmisled
    obtain ⟨s, hs, hname, hshim⟩ := hmisled.found_before
    have hmem : t.inklecate ∈ m.found := by
      refine (h t.inklecate).mpr ⟨s, hs, hname, ?_⟩
      rw [Disk.hasTool_of_shim hshim, hname, hmisled.isFile, Bool.true_or]
    rw [List.contains_iff_mem.mpr hmem, hmisled.fresh] at hsame
    cases hsame
  . intro hnot
    cases hfound : m.found.contains t.inklecate with
    | false => rw [Bool.false_or]
    | true =>
      rw [Bool.true_or]
      apply Eq.symm
      rw [← Bool.not_eq_false]
      intro hfresh
      obtain ⟨s, hs, hname, htool⟩ := (h t.inklecate).mp (List.contains_iff_mem.mp hfound)
      exact hnot (misled_of_found hs hname htool hfresh)

/-- With a past behind it, a sequence of calls is answered as by fresh lookups exactly when none of them
is misled by what came before it. -/
theorem Recalls.answers_iff (h : Recalls d folders m past) :
    answers d folders m calls = calls.map (d.hasTool folders)
      ↔
    ∀ before t after, calls = before ++ t :: after → ¬ Misled d folders (past ++ before) t := by
  induction calls generalizing m past with
  | nil => simp [answers]
  | cons s rest ih =>
    have hrest := ih (h.check s)
    rw [answers, List.map_cons, List.cons.injEq, h.check_fresh_iff, hrest]
    constructor
    . rintro ⟨hfirst, hlater⟩ before t after hcalls
      cases before with
      | nil =>
        cases hcalls
        rwa [List.append_nil]
      | cons u before =>
        cases hcalls
        have hnot := hlater before t after rfl
        rwa [List.append_assoc] at hnot
    . intro hall
      constructor
      . have hnot := hall [] s rest rfl
        rwa [List.append_nil] at hnot
      . intro before t after hcalls
        have hnot := hall (s :: before) t after (by rw [hcalls, List.cons_append])
        rwa [List.append_assoc]

/-- The memory changes no answer exactly when no compiler that is a file but cannot be started by itself
is looked for without a shim after it was looked for with one. -/
theorem answers_fresh_iff (d : Disk) (folders : List Path) (calls : List Settings) :
    answers d folders .empty calls = calls.map (d.hasTool folders)
      ↔
    ∀ before t after, calls = before ++ t :: after → ¬ Misled d folders before t :=
  (recalls_empty d folders).answers_iff

/-- A disk with a file that cannot be started by itself. -/
def plainToolDisk : Disk :=
  ⟨[([bytesOf "tool"], .file [] false)], []⟩

/-- A call with a shim, and then one without. -/
def plainToolCalls : List Settings :=
  [⟨"main.ink", "/tool", some "mono"⟩, ⟨"main.ink", "/tool", none⟩]

/-- A file that was found with a shim is reported as a compiler to start without one. -/
theorem answers_remembers_shim :
    answers plainToolDisk [] .empty plainToolCalls = [true, true]
      ∧ plainToolCalls.map (plainToolDisk.hasTool []) = [true, false] := by
  decide +kernel

end ToolMemory

end InkServer
