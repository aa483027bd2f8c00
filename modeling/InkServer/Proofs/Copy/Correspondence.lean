import InkServer.Proofs.Path.Relative
import InkServer.Workspace.Entry

/-!
This module contains the correspondence between the files of a workspace and their copies. Both are
reached along the same names, from the root and from the scratch folder, so that each way of going
from one to the other undoes the other.
-/

namespace InkServer

open Text

namespace Path

variable {p base : Path} {ns : List Name}

/-- What follows a normal path from the root is written as that path with the names after it. -/
theorem Follows.normalize_eq (h : p.Follows base ns) (habs : base.isAbsolute = true)
    (hn : base.normalize = base) : p.normalize = base.inside ns := by
  obtain ⟨ms, hms, hbase⟩ := exists_names_of_isAbsolute habs hn
  have hcomponents : base.components = .root :: ms.map .name := by
    rw [hbase]
    exact components_ofComponents_root (Component.isStep_map_name hms)
  have hsteps := h.components
  rw [hn, hcomponents, List.cons_append, ← List.map_append] at hsteps
  rw [← ofComponents_components_normalize p, hsteps, hbase, inside_ofComponents_root hms h.valid]

end Path

namespace Workspace

variable {ws : Workspace} {p q m m' scratch : Path}

/-- The file has a copy just when it follows the root, and then the copy follows the scratch folder
along the same names. -/
theorem scratchPathFor?_iff_follows (habs : ws.root.isAbsolute = true)
    (hscratch : ws.scratch = some scratch) :
    ws.scratchPathFor? p = some m ↔ ∃ ns, p.Follows ws.root ns ∧ m = scratch.inside ns := by
  unfold scratchPathFor?
  rw [hscratch]
  constructor
  . intro h
    split at h
    . next relative heq hrelative =>
      obtain ⟨ns, hfollows, hof⟩ := (Path.relativeTo?_iff_follows habs).mp hrelative
      refine ⟨ns, hfollows, ?_⟩
      rw [← Option.some.inj h, ← Option.some.inj heq, hof,
        Path.join_ofComponents scratch hfollows.ne_nil hfollows.valid]
    . cases h
  . rintro ⟨ns, hfollows, hm⟩
    rw [hfollows.relativeTo?_eq, hm, ← Path.join_ofComponents scratch hfollows.ne_nil hfollows.valid]

/-- A path is a copy just when it follows the scratch folder, and then it belongs to the file that
follows the root along the same names. -/
theorem realPathFor?_iff_follows (hscratch : ws.scratch = some scratch)
    (habs : scratch.isAbsolute = true) :
    ws.realPathFor? m = some p ↔ ∃ ns, m.Follows scratch ns ∧ p = ws.root.inside ns := by
  unfold realPathFor?
  rw [hscratch]
  dsimp only
  rw [Option.map_eq_some_iff]
  constructor
  . rintro ⟨relative, hrelative, hp⟩
    obtain ⟨ns, hfollows, hof⟩ := (Path.relativeTo?_iff_follows habs).mp hrelative
    refine ⟨ns, hfollows, ?_⟩
    rw [← hp, hof, Path.join_ofComponents ws.root hfollows.ne_nil hfollows.valid]
  . rintro ⟨ns, hfollows, hp⟩
    refine ⟨_, hfollows.relativeTo?_eq, ?_⟩
    rw [hp, Path.join_ofComponents ws.root hfollows.ne_nil hfollows.valid]

theorem realPathFor?_of_scratchPathFor? (habs : ws.root.isAbsolute = true)
    (hn : ws.root.normalize = ws.root) (hscratch : ws.scratch = some scratch)
    (hs : scratch.isAbsolute = true) (h : ws.scratchPathFor? p = some m) :
    ws.realPathFor? m = some p.normalize := by
  obtain ⟨ns, hfollows, hm⟩ := (scratchPathFor?_iff_follows habs hscratch).mp h
  refine (realPathFor?_iff_follows hscratch hs).mpr ⟨ns, ?_, hfollows.normalize_eq habs hn⟩
  rw [hm]
  exact Path.follows_inside scratch hfollows.ne_nil hfollows.valid

theorem scratchPathFor?_of_realPathFor? (habs : ws.root.isAbsolute = true)
    (hscratch : ws.scratch = some scratch) (hs : scratch.isAbsolute = true)
    (h : ws.realPathFor? m = some p) :
    ∃ m', ws.scratchPathFor? p = some m' ∧ m'.normalize = m.normalize := by
  obtain ⟨ns, hfollows, hp⟩ := (realPathFor?_iff_follows hscratch hs).mp h
  have hback : p.Follows ws.root ns := by
    rw [hp]
    exact Path.follows_inside ws.root hfollows.ne_nil hfollows.valid
  have hsame := Path.follows_inside scratch hfollows.ne_nil hfollows.valid
  refine ⟨_, (scratchPathFor?_iff_follows habs hscratch).mpr ⟨ns, hback, rfl⟩, ?_⟩
  exact Path.normalize_eq_of_components (hsame.components.trans hfollows.components.symm)

theorem realPathFor?_congr (h : m.normalize = m'.normalize) :
    ws.realPathFor? m = ws.realPathFor? m' := by
  unfold realPathFor? Path.relativeTo?
  rw [h]

/-- Take a workspace whose root is a normal path from the root of the disk, and whose scratch folder
is given by any path from there. The copy of a file belongs to that file, and what belongs to a copy
has it for its copy, whatever way the paths are written. So no two files share a copy. -/
theorem files_and_copies_correspond (habs : ws.root.isAbsolute = true)
    (hn : ws.root.normalize = ws.root) (hscratch : ws.scratch = some scratch)
    (hs : scratch.isAbsolute = true) :
    (∀ p m, ws.scratchPathFor? p = some m → ws.realPathFor? m = some p.normalize)
      ∧ (∀ p m, ws.realPathFor? m = some p →
        ∃ m', ws.scratchPathFor? p = some m' ∧ m'.normalize = m.normalize)
      ∧ ∀ p q m m', ws.scratchPathFor? p = some m → ws.scratchPathFor? q = some m' →
        m.normalize = m'.normalize → p.normalize = q.normalize := by
  refine ⟨fun p m => realPathFor?_of_scratchPathFor? habs hn hscratch hs,
    fun p m => scratchPathFor?_of_realPathFor? habs hscratch hs, ?_⟩
  intro p q m m' hp hq hsame
  have hreal := realPathFor?_of_scratchPathFor? habs hn hscratch hs hp
  rw [realPathFor?_congr hsame, realPathFor?_of_scratchPathFor? habs hn hscratch hs hq,
    Option.some.injEq] at hreal
  exact hreal.symm

/-- The scratch folder may be given by a way around. -/
theorem files_and_copies_correspond_detour :
    let ws : Workspace := ⟨"file:///w", .ofString "/w", some (.ofString "/t/./..//s/ink-ls-1/")⟩
    ws.scratchPathFor? (.ofString "/w/x/../a.ink") = some (.ofString "/t/./..//s/ink-ls-1/a.ink")
      ∧ ws.realPathFor? (.ofString "/t/./..//s/ink-ls-1/a.ink") = some (.ofString "/w/a.ink")
      ∧ ∀ q m, ws.scratchPathFor? q = some m → m.normalize = .ofString "/s/ink-ls-1/a.ink" →
        q.normalize = .ofString "/w/a.ink" := by
  intro ws
  obtain ⟨hreal, _, hinj⟩ := @files_and_copies_correspond ws (.ofString "/t/./..//s/ink-ls-1/")
    (by decide) (by decide) rfl (by decide)
  have hcopy : ws.scratchPathFor? (.ofString "/w/x/../a.ink")
      = some (.ofString "/t/./..//s/ink-ls-1/a.ink") := by decide
  have hnormal : (Path.ofString "/w/x/../a.ink").normalize = .ofString "/w/a.ink" := by decide
  refine ⟨hcopy, by rw [hreal _ _ hcopy, hnormal], ?_⟩
  intro q m hq hm
  rw [← hnormal]
  exact hinj _ _ _ _ hq hcopy (hm.trans (by decide))

end Workspace

end InkServer
