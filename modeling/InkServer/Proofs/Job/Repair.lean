import InkServer.Proofs.Job.Unsaved

/-!
This module contains what comes of the need for the copy of a workspace when nobody else works on the
copies: one that is there is kept, one that is not is made by one pass, and a pass that fails is
reported and remembered.
-/

namespace InkServer

def CopyError.isFault : CopyError → Bool
  | createScratch _ _ => true
  | readSource _ _ => true
  | copy _ _ _ => true
  | notRegistered _ => false
  | superseded _ => false

namespace CopyRules

variable {rules : CopyRules} {scratch source target root : Path} {d : Disk} {cause : CopyError}

theorem copyItem_isFault (h : (rules.copyItem scratch source target d).2 = .error cause) :
    cause.isFault = true := by
  unfold copyItem at h
  split at h
  . cases h
  . split at h
    . cases h
    . split at h
      . split at h
        . cases h
        . cases h
          rfl
      . split at h
        . cases h
        . cases h
          rfl

theorem copyItems_isFault {names : List Name} {pending : List Pending}
    (h : (rules.copyItems scratch source target names pending d).2 = .error cause) :
    cause.isFault = true := by
  induction names generalizing pending d with
  | nil => cases h
  | cons n names ih =>
    unfold copyItems at h
    split at h
    . apply ih h
    . next hitem =>
      cases h
      apply copyItem_isFault
      rw [hitem]

theorem copyTree_isFault {fuel : Nat} {pending : List Pending}
    (h : (rules.copyTree scratch fuel pending d).2 = .error cause) : cause.isFault = true := by
  induction fuel generalizing pending d with
  | zero =>
    cases pending with
    | nil => cases h
    | cons item pending =>
      cases h
      rfl
  | succ fuel ih =>
    cases pending with
    | nil => cases h
    | cons item pending =>
      unfold copyTree at h
      split at h
      . cases h
        rfl
      . split at h
        . apply ih h
        . next hitems =>
          cases h
          apply copyItems_isFault
          rw [hitems]

theorem createCopy_isFault {name : Name} (h : (rules.createCopy name root d).2 = .error cause) :
    cause.isFault = true := by
  unfold createCopy at h
  dsimp only at h
  split at h
  . cases h
    rfl
  . split at h
    . cases h
    . next htree =>
      cases h
      apply copyTree_isFault
      rw [htree]

end CopyRules

namespace World

/-- Both states have the same copies, and the next pass does the same in them. -/
structure SameCopies (v w : World) : Prop where
  disk : v.disk = w.disk
  draws : v.draws = w.draws
  settles : v.settles = w.settles
  rules : v.rules = w.rules
  registry : v.registry = w.registry

/-- One pass over the workspace with the entry `x` was carried out and settled. -/
structure Passed (w : World) (uri : String) (x : Entry) (v : World) (r : Except CopyError Workspace) :
    Prop where
  draws : v.draws = w.draws + 1
  settles : v.settles = w.settles + 1
  rules : v.rules = w.rules
  others : ∀ u ≠ uri, v.registry.get? u = w.registry.get? u
  settled : ∃ result e, w.rules.createCopy (scratchName w.draws) x.root w.disk = (v.disk, result)
    ∧ e = ⟨x.root, .ofResult result, x.generation + 1⟩ ∧ v.registry.get? uri = some e
    ∧ r = result.map fun _ => e.snapshot uri

/-- It does not matter to a pass that the copy was given up before. -/
theorem Passed.of_markStale {w w' v : World} {uri : String} {x : Entry} {scratch : Path}
    {state : CopyState} {r : Except CopyError Workspace}
    (h : { w' with registry := w'.registry.markStale uri scratch }.Passed uri { x with state } v r)
    (hsame : w'.SameCopies w) : w.Passed uri x v r := by
  constructor
  . rw [h.draws, hsame.draws]
  . rw [h.settles, hsame.settles]
  . rw [h.rules, hsame.rules]
  . intro u hu
    rw [h.others u hu, Registry.get?_markStale, if_neg hu, hsame.registry]
  . have hsettled := h.settled
    rw [hsame.rules, hsame.draws, hsame.disk] at hsettled
    apply hsettled

/-- A pass leaves a scratch folder of its own that is there, or an error that stands in the entry. -/
theorem Passed.outcome {w v : World} {uri : String} {x : Entry} {r : Except CopyError Workspace}
    (h : w.Passed uri x v r) :
    (∃ fresh, w.rules.createCopy (scratchName w.draws) x.root w.disk = (v.disk, .ok fresh)
        ∧ (∀ n < w.draws, fresh ≠ w.rules.scratchOf n) ∧ v.disk.isFolder fresh = true
        ∧ v.registry.get? uri = some ⟨x.root, .ready fresh, x.generation + 1⟩
        ∧ r = .ok ⟨uri, x.root, some fresh⟩)
      ∨ ∃ cause, w.rules.createCopy (scratchName w.draws) x.root w.disk = (v.disk, .error cause)
        ∧ v.registry.get? uri = some ⟨x.root, .failed cause.message, x.generation + 1⟩
        ∧ r = .error cause := by
  obtain ⟨result, e, hcopy, he, hget, hr⟩ := h.settled
  rw [he] at hget hr
  cases result with
  | error cause => exact .inr ⟨cause, hcopy, hget, hr⟩
  | ok fresh =>
    have hok : (w.rules.createCopy (scratchName w.draws) x.root w.disk).2 = .ok fresh := by
      rw [hcopy]
    have hfolder := CopyRules.createCopy_isFolder hok
    rw [hcopy] at hfolder
    refine .inl ⟨fresh, hcopy, ?_, hfolder, hget, hr⟩
    intro n hn hfresh
    rw [CopyRules.createCopy_eq_ok hok] at hfresh
    have hdraws := CopyRules.scratchOf_inj hfresh
    omega

theorem Passed.ne_notRegistered {w v : World} {uri : String} {x : Entry}
    {r : Except CopyError Workspace} (h : w.Passed uri x v r) (u : String) :
    r ≠ .error (.notRegistered u) := by
  intro hunknown
  cases h.outcome with
  | inl hok =>
    obtain ⟨_, _, _, _, _, hr⟩ := hok
    rw [hr] at hunknown
    cases hunknown
  | inr herror =>
    obtain ⟨cause, hcopy, _, hr⟩ := herror
    have hfault := CopyRules.createCopy_isFault (congrArg Prod.snd hcopy)
    rw [hr, Except.error.injEq] at hunknown
    rw [hunknown] at hfault
    cases hfault

/-- What became of the need for a copy: the workspace is not known, its copy is there, or one pass was
made. -/
inductive Ensured (w : World) (uri : String) : World → Except CopyError Workspace → Prop where
  | unknown {v : World} (hx : w.registry.get? uri = none) (hv : v.SameCopies w) :
    Ensured w uri v (.error (.notRegistered uri))
  | found {v : World} {x : Entry} {scratch : Path} (hx : w.registry.get? uri = some x)
    (hr : x.state = .ready scratch) (hfolder : w.disk.isFolder scratch = true)
    (hv : v.SameCopies w) : Ensured w uri v (.ok (x.snapshot uri))
  | passed {v : World} {x : Entry} {r : Except CopyError Workspace}
    (hx : w.registry.get? uri = some x)
    (hgone : ∀ scratch, x.state = .ready scratch → w.disk.isFolder scratch = false)
    (hpass : w.Passed uri x v r) : Ensured w uri v r

namespace Ensured

variable {w v : World} {uri : String} {x : Entry} {r : Except CopyError Workspace}
  (h : w.Ensured uri v r)

include h

theorem draws_le : v.draws ≤ w.draws + 1 := by
  cases h with
  | unknown hx hv =>
    have hdraws := hv.draws
    omega
  | found hx hr hfolder hv =>
    have hdraws := hv.draws
    omega
  | passed hx hgone hpass =>
    have hdraws := hpass.draws
    omega

theorem others (u : String) (hu : u ≠ uri) : v.registry.get? u = w.registry.get? u := by
  cases h with
  | unknown hx hv => rw [hv.registry]
  | found hx hr hfolder hv => rw [hv.registry]
  | passed hx hgone hpass => apply hpass.others u hu

theorem eq_notRegistered_iff : r = .error (.notRegistered uri) ↔ w.registry.get? uri = none := by
  cases h with
  | unknown hx hv => simp [hx]
  | found hx hr hfolder hv => simp [hx]
  | passed hx hgone hpass => simp [hx, hpass.ne_notRegistered]

theorem of_absent (hx : w.registry.get? uri = none) : v.SameCopies w := by
  cases h with
  | unknown _ hv => apply hv
  | found hx' => cases hx.symm.trans hx'
  | passed hx' => cases hx.symm.trans hx'

theorem of_isFolder {scratch : Path} (hx : w.registry.get? uri = some x)
    (hr : x.state = .ready scratch) (hfolder : w.disk.isFolder scratch = true) :
    r = .ok (x.snapshot uri) ∧ v.SameCopies w := by
  cases h with
  | unknown hx' => cases hx.symm.trans hx'
  | found hx' _ _ hv =>
    cases hx.symm.trans hx'
    exact ⟨rfl, hv⟩
  | passed hx' hgone =>
    cases hx.symm.trans hx'
    rw [hgone scratch hr] at hfolder
    cases hfolder

theorem of_gone (hx : w.registry.get? uri = some x)
    (hgone : ∀ scratch, x.state = .ready scratch → w.disk.isFolder scratch = false) :
    w.Passed uri x v r := by
  cases h with
  | unknown hx' => cases hx.symm.trans hx'
  | found hx' hr hfolder =>
    cases hx.symm.trans hx'
    rw [hgone _ hr] at hfolder
    cases hfolder
  | passed hx' _ hpass =>
    cases hx.symm.trans hx'
    apply hpass

end Ensured

end World

/-- Others left the copies alone meanwhile. -/
def Halt.Apart (h : Halt) : Prop :=
  h.after.SameCopies h.before

namespace Job

variable {u : String} {w w' : World} {x : Entry} {ps : List Halt}

/-- Nobody else begins a pass, so the one that a caller began stays the last. -/
theorem passed_of_copying
    (h : w'.SameCopies { w with registry := w.registry.set u x.beginPass }) :
    ∃ r, (w'.work ⟨u, false, .copying x.root (x.generation + 1)⟩).2 = ⟨u, false, .done r⟩
      ∧ w.Passed u x (w'.work ⟨u, false, .copying x.root (x.generation + 1)⟩).1 r := by
  have hbegun : w'.registry.get? u = some x.beginPass := by
    rw [h.registry, Registry.get?_set, if_pos rfl]
  have hwork : w'.work ⟨u, false, .copying x.root (x.generation + 1)⟩ = _ :=
    Caller.copyPass_of_last hbegun rfl
  rw [hwork]
  refine ⟨_, rfl, ?_⟩
  constructor
  . rw [← h.draws]
  . rw [← h.settles]
  . apply h.rules
  . intro u' hu
    rw [Registry.get?_set, if_neg hu, h.registry, Registry.get?_set, if_neg hu]
  . refine ⟨_, _, ?_, rfl, ?_, rfl⟩
    . rw [← h.rules, ← h.draws, ← h.disk]
      rfl
    . rw [Registry.get?_set, if_pos rfl]
      rfl

theorem attend_passed (fuel : Nat) (hx : w.registry.get? u = some x)
    (hready : ∀ scratch, x.state ≠ .ready scratch) (hidle : x.state ≠ .copying) (ps : List Halt) :
    (attend (fuel + 2) [Caller.start u] w).Along Halt.Apart (fun _ _ q => q = @Query.rest .upkeep)
      (fun _ v cs => ∃ r, cs = [⟨u, false, .done r⟩] ∧ w.Passed u x v r) ps := by
  rw [attend_one, Caller.move_start_of_idle hx hready hidle]
  refine ⟨rfl, ?_⟩
  intro _ w' happart
  obtain ⟨r, hdone, hpassed⟩ := passed_of_copying happart
  dsimp only
  rw [hdone, attend_one]
  exact ⟨r, rfl, hpassed⟩

theorem attend_of_ready {scratch : Path} (fuel : Nat) (hx : w.registry.get? u = some x)
    (hr : x.state = .ready scratch) (ps : List Halt) :
    (attend (fuel + 3) [Caller.start u] w).Along Halt.Apart (fun _ _ q => q = @Query.rest .upkeep)
      (fun _ v cs => ∃ r, cs = [⟨u, false, .done r⟩] ∧ w.Ensured u v r) ps := by
  rw [attend_one, Caller.move_start_of_ready hx hr]
  refine ⟨rfl, ?_⟩
  intro _ w' (hsame : w'.SameCopies w)
  dsimp only
  rw [Caller.work_of_checking hr]
  split
  . next hfolder =>
    rw [hsame.disk] at hfolder
    rw [attend_one]
    exact ⟨_, rfl, .found hx hr hfolder hsame⟩
  . next hgone =>
    -- The copy is given up, and then the caller finds neither a copy nor a pass.
    have hgiven : (w'.registry.markStale u scratch).get? u = some { x with state := .absent } := by
      rw [hsame.registry, Registry.get?_markStale, if_pos rfl, hx, Option.map_some, Entry.giveUp,
        if_pos hr]
    refine (attend_passed fuel hgiven (by simp) (by simp) _).mono (fun _ _ _ h => h) ?_
    rintro _ v cs ⟨r, hcs, hpass⟩
    refine ⟨r, hcs, .passed hx ?_ (hpass.of_markStale hsame)⟩
    intro gone hs
    rw [hr, CopyState.ready.injEq] at hs
    rw [hsame.disk] at hgone
    rw [← hs]
    simpa using hgone

theorem attend_ensured (fuel : Nat) (hidle : w.registry.state? u ≠ some .copying) (ps : List Halt) :
    (attend (fuel + 3) [Caller.start u] w).Along Halt.Apart (fun _ _ q => q = @Query.rest .upkeep)
      (fun _ v cs => ∃ r, cs = [⟨u, false, .done r⟩] ∧ w.Ensured u v r) ps := by
  cases hx : w.registry.get? u with
  | none =>
    rw [attend_one, Caller.move_start_of_absent hx]
    exact ⟨_, rfl, .unknown hx ⟨rfl, rfl, rfl, rfl, rfl⟩⟩
  | some x =>
    by_cases hready : ∃ scratch, x.state = .ready scratch
    . obtain ⟨scratch, hr⟩ := hready
      apply attend_of_ready fuel hx hr
    . have hnone : ∀ scratch, x.state ≠ .ready scratch := not_exists.mp hready
      have hcopying : x.state ≠ .copying := by
        intro hs
        apply hidle
        rw [Registry.state?, hx, Option.map_some, hs]
      refine (attend_passed (fuel + 1) hx hnone hcopying ps).mono (fun _ _ _ h => h) ?_
      rintro _ v cs ⟨r, hcs, hpass⟩
      refine ⟨r, hcs, .passed hx ?_ hpass⟩
      intro scratch hr
      exact absurd hr (hnone scratch)

theorem ensureReady_ensured (hidle : w.registry.state? u ≠ some .copying) (ps : List Halt) :
    (ensureReady u w).Along Halt.Apart (fun _ _ q => q = @Query.rest .upkeep)
      (fun _ v r => w.Ensured u v r) ps := by
  rw [ensureReady_eq]
  apply Step.along_bind
  apply Step.along_bind
  refine (attend_ensured 13 hidle ps).mono (fun _ _ _ h => h) ?_
  rintro _ v cs ⟨r, hcs, hensured⟩
  rw [hcs]
  apply hensured

/-- Who needs the copy of a workspace while nobody else works on the copies comes to an end by one
pass at most. A workspace that is not known is reported, and a copy that is there is kept. Otherwise
one pass is made: it leaves a new scratch folder that is there, or its error is reported and stands
in the entry. No other workspace is touched. -/
theorem ensureReady_repairs_or_reports {σ : Type} {handle : Step.Handler σ}
    (hapart : ∀ w s, (handle (@Query.rest .upkeep) w s).2.1.SameCopies w)
    (hidle : w.registry.state? u ≠ some .copying) (s : σ) :
    ∃ r v s', (ensureReady u).run handle w s = (r, v, s')
      ∧ v.draws ≤ w.draws + 1
      ∧ (∀ u' ≠ u, v.registry.get? u' = w.registry.get? u')
      ∧ (r = .error (.notRegistered u) ↔ w.registry.get? u = none)
      ∧ (w.registry.get? u = none → v.SameCopies w)
      ∧ (∀ x scratch, w.registry.get? u = some x → x.state = .ready scratch →
        w.disk.isFolder scratch = true → r = .ok (x.snapshot u) ∧ v.SameCopies w)
      ∧ ∀ x, w.registry.get? u = some x →
        (∀ scratch, x.state = .ready scratch → w.disk.isFolder scratch = false) →
        v.draws = w.draws + 1
          ∧ ((∃ fresh, w.rules.createCopy (scratchName w.draws) x.root w.disk = (v.disk, .ok fresh)
              ∧ (∀ n < w.draws, fresh ≠ w.rules.scratchOf n) ∧ v.disk.isFolder fresh = true
              ∧ v.registry.get? u = some ⟨x.root, .ready fresh, x.generation + 1⟩
              ∧ r = .ok ⟨u, x.root, some fresh⟩)
            ∨ ∃ cause, w.rules.createCopy (scratchName w.draws) x.root w.disk = (v.disk, .error cause)
              ∧ v.registry.get? u = some ⟨x.root, .failed cause.message, x.generation + 1⟩
              ∧ r = .error cause) := by
  have hhalts : ∀ (ps : List Halt) w q s, q = @Query.rest .upkeep →
      Halt.Apart ⟨w, q, (handle q w s).2.1⟩ := by
    intro ps w q s hq
    rw [hq]
    apply hapart
  obtain ⟨_, h⟩ := (ensureReady_ensured hidle []).settle hhalts s
  refine ⟨_, _, _, rfl, h.draws_le, h.others, h.eq_notRegistered_iff, h.of_absent, ?_, ?_⟩
  . intro x scratch hx hr hfolder
    apply h.of_isFolder hx hr hfolder
  . intro x hx hgone
    have hpass := h.of_gone hx hgone
    exact ⟨hpass.draws, hpass.outcome⟩

/-- Nobody else does anything, and no question is answered. -/
def undisturbed : Step.Handler Unit := fun q w s =>
  match q with
  | .folders => (none, w, s)
  | .settings _ => (none, w, s)
  | .register _ => ((), w, s)
  | .checkTool _ => (false, w, s)
  | .start _ _ => (.error (.configuration ""), w, s)
  | .submit _ => (false, w, s)
  | .stop => (false, w, s)
  | .rest => ((), w, s)
  | .settled _ => ((), w, s)

theorem ensureReady_repairs_lost_copy :
    (lostWorld [] []).registry.state? "/v" = some (.ready (storyRules.scratchOf 0))
      ∧ (lostWorld [] []).disk.isFolder (storyRules.scratchOf 0) = false
      ∧ ∃ v, (ensureReady "/v").run undisturbed (lostWorld [] []) () = (.ok renewedWorkspace, v, ())
        ∧ v.draws = 2 ∧ v.disk = renewedDisk ∧ v.disk.isFolder (storyRules.scratchOf 1) = true
        ∧ storyRules.scratchOf 1 ≠ storyRules.scratchOf 0
        ∧ v.registry.get? "/v" = some ⟨.ofString "/v", .ready (storyRules.scratchOf 1), 2⟩ := by
  have hidle : (lostWorld [] []).registry.state? "/v" ≠ some .copying := by decide
  have hgone : draftDisk.isFolder (storyRules.scratchOf 0) = false := by decide +kernel
  obtain ⟨r, v, _, hrun, _, _, _, _, _, hpass⟩ :=
    @ensureReady_repairs_or_reports "/v" (lostWorld [] []) Unit undisturbed
      (fun _ _ => ⟨rfl, rfl, rfl, rfl, rfl⟩) hidle ()
  obtain ⟨hdraws, houtcome⟩ := hpass ⟨.ofString "/v", .ready (storyRules.scratchOf 0), 1⟩ rfl (by
    intro scratch hr
    cases hr
    apply hgone)
  have hmade : (lostWorld [] []).rules.createCopy (scratchName (lostWorld [] []).draws)
      (.ofString "/v") (lostWorld [] []).disk = (renewedDisk, .ok (storyRules.scratchOf 1)) :=
    createCopy_renewedDisk
  dsimp only at houtcome
  rw [hmade] at houtcome
  cases houtcome with
  | inl hok =>
    obtain ⟨fresh, hcopy, hfresh, hfolder, hget, hr⟩ := hok
    simp only [Prod.mk.injEq, Except.ok.injEq] at hcopy
    rw [← hcopy.2] at hfresh hfolder hget hr
    refine ⟨rfl, hgone, v, ?_, hdraws, hcopy.1.symm, hfolder, hfresh 0 (by decide), hget⟩
    rw [hrun, hr]
    rfl
  | inr herror =>
    obtain ⟨cause, hcopy, _⟩ := herror
    cases (Prod.mk.inj hcopy).2

end Job

end InkServer
