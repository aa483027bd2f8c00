import InkServer.Proofs.Copy.Effect
import InkServer.Proofs.Flight.Attendance
import InkServer.Proofs.Job.Course
import InkServer.Proofs.Ownership
import Mathlib.Algebra.Ring.Int.Defs

/-!
This module contains what a job that needs the copy of a workspace finds, when nobody else works on
the copies meanwhile: a scratch folder that is there and stands in the entry, or an error.
-/

namespace InkServer

/-- A query that a job stops for while it looks after copies. -/
inductive Query.IsUpkeep : Query → Prop where
  | rest : IsUpkeep (@Query.rest .upkeep)
  | settled (seen : Nat) : IsUpkeep (.settled seen)

namespace Halt

/-- Nobody else worked on the registry meanwhile. A job that waits for a pass goes on only when one
was settled. -/
structure Undisturbed (h : Halt) : Prop where
  registry : h.after.registry = h.before.registry
  rules : h.after.rules = h.before.rules
  settles : h.after.settles = h.before.settles
  woken : ∀ seen, h.query = .settled seen → seen < h.after.settles

/-- What came of the attempt to write an edit that the job made when it went on. -/
def attempt? (h : Halt) : Option (Except EditError Unit) :=
  match h.query with
  | @Query.rest (.edit ws document text) => some (ws.applyEdit document text h.after.disk).2
  | _ => none

def start? (h : Halt) : Option RunRequest :=
  match h.query with
  | .start _ request => some request
  | _ => none

end Halt

/-- The effect is a message to the user. -/
def Effect.isMessage : Effect → Bool
  | message _ _ => true
  | _ => false

def World.shown (w : World) : Int :=
  w.trace.countP Effect.isMessage

/-- What a job did of its own: the attempts to write edits, the runs it asked for, and the messages,
counted together with those that were there when it began. -/
structure Ledger where
  attempts : List (Except EditError Unit)
  starts : List RunRequest
  messages : Int

/-- What a job did of its own that stands in the state `w` after the given halts. -/
def ledger (hs : List Halt) (w : World) : Ledger :=
  ⟨hs.filterMap Halt.attempt?, hs.filterMap Halt.start?,
    w.shown - (hs.map fun h => h.after.shown - h.before.shown).sum⟩

section

variable {hs : List Halt} {w w' : World} {q : Query}

theorem ledger_congr (hs : List Halt) (h : w'.trace = w.trace) : ledger hs w' = ledger hs w := by
  rw [ledger, World.shown, h]
  rfl

theorem ledger_concat (hs : List Halt) (w w' : World) (q : Query) :
    ledger (hs ++ [⟨w, q, w'⟩]) w'
      =
    ⟨(ledger hs w).attempts ++ (Halt.attempt? ⟨w, q, w'⟩).toList,
      (ledger hs w).starts ++ (Halt.start? ⟨w, q, w'⟩).toList, (ledger hs w).messages⟩ := by
  have hone : ∀ {β : Type} (f : Halt → Option β) (h : Halt),
      [h].filterMap f = (f h).toList := by
    intro β f h
    rw [List.filterMap_cons]
    cases f h with
    | none => rfl
    | some b => rfl
  simp only [ledger, List.filterMap_append, hone, List.map_append, List.map_cons, List.map_nil,
    List.sum_append, List.sum_cons, List.sum_nil, Ledger.mk.injEq, true_and]
  omega

theorem ledger_upkeep (hs : List Halt) (w w' : World) (hq : q.IsUpkeep) :
    ledger (hs ++ [⟨w, q, w'⟩]) w' = ledger hs w := by
  rw [ledger_concat]
  cases hq with
  | rest => simp [Halt.attempt?, Halt.start?]
  | settled seen => simp [Halt.attempt?, Halt.start?]

end

/-- The copy of a workspace is ready, and its scratch folder is there. -/
def World.Ready (w : World) (uri : String) (ws : Workspace) : Prop :=
  ∃ e scratch, w.registry.get? uri = some e ∧ e.state = .ready scratch ∧ ws = e.snapshot uri
    ∧ w.disk.isFolder scratch = true

/-- From one state to the other the job did nothing but look after copies. -/
structure Tended (hs : List Halt) (w : World) (hs' : List Halt) (w' : World) : Prop where
  sound : w'.registry.Sound w'.rules
  outline : w'.registry.outline = w.registry.outline
  rules : w'.rules = w.rules
  ledger : ledger hs' w' = ledger hs w

theorem Tended.refl {w : World} (h : w.registry.Sound w.rules) (hs : List Halt) :
    Tended hs w hs w :=
  ⟨h, rfl, rfl, rfl⟩

theorem Tended.trans {hs hs' hs'' : List Halt} {w w' w'' : World} (h : Tended hs w hs' w')
    (h' : Tended hs' w' hs'' w'') : Tended hs w hs'' w'' :=
  ⟨h'.sound, h'.outline.trans h.outline, h'.rules.trans h.rules, h'.ledger.trans h.ledger⟩

theorem Tended.halt {w w' : World} {q : Query} (hs : List Halt) (h : w.registry.Sound w.rules)
    (hq : q.IsUpkeep) (hu : Halt.Undisturbed ⟨w, q, w'⟩) : Tended hs w (hs ++ [⟨w, q, w'⟩]) w' := by
  have hregistry : w'.registry = w.registry := hu.registry
  have hrules : w'.rules = w.rules := hu.rules
  refine ⟨?_, by rw [hregistry], hrules, ledger_upkeep hs w w' hq⟩
  rw [hregistry, hrules]
  exact h

/-- How far a caller has come agrees with the entry of its workspace. -/
def Caller.Fits (c : Caller) (uri : String) (w : World) : Prop :=
  c.uri = uri ∧
    match c.phase with
    | .checking ws =>
      ∃ e scratch, w.registry.get? uri = some e ∧ e.state = .ready scratch ∧ ws = e.snapshot uri
    | .copying root generation =>
      ∃ e, w.registry.get? uri = some e ∧ e.generation = generation ∧ e.root = root
    | .done (.ok ws) => w.Ready uri ws
    | _ => True

namespace Caller

variable {c : Caller} {uri : String} {w w' : World} (hs : List Halt)

theorem move_start_of_absent {r : Registry} (hx : r.get? uri = none) (settles : Nat) :
    (start uri).move r settles = (⟨uri, false, .done (.error (.notRegistered uri))⟩, r) := by
  simp [move, advances, advance, start, look, Registry.nextStep, hx]

theorem move_start_of_ready {r : Registry} {x : Entry} {scratch : Path} (hx : r.get? uri = some x)
    (hr : x.state = .ready scratch) (settles : Nat) :
    (start uri).move r settles = (⟨uri, false, .checking (x.snapshot uri)⟩, r) := by
  simp [move, advances, advance, start, look, Registry.nextStep, hx, hr]

theorem move_start_of_idle {r : Registry} {x : Entry} (hx : r.get? uri = some x)
    (hready : ∀ scratch, x.state ≠ .ready scratch) (hcopying : x.state ≠ .copying) (settles : Nat) :
    (start uri).move r settles
      =
    (⟨uri, false, .copying x.root (x.generation + 1)⟩, r.set uri x.beginPass) := by
  simp only [move, advances, advance, start, look, Registry.nextStep_of_idle hx hready hcopying]

theorem work_of_checking {x : Entry} {scratch : Path} (hr : x.state = .ready scratch) (w : World) :
    w.work ⟨uri, false, .checking (x.snapshot uri)⟩
      =
    if w.disk.isFolder scratch then (w, ⟨uri, false, .done (.ok (x.snapshot uri))⟩)
    else ({ w with registry := w.registry.markStale uri scratch }, .start uri) := by
  have hscratch := (@Entry.snapshot_scratch_iff x uri scratch).mpr hr
  by_cases hfolder : w.disk.isFolder scratch = true
  . simp [World.work, check, hscratch, hfolder]
  . simp [World.work, check, hscratch, hfolder, giveUp, start]

theorem copyPass_of_last {x : Entry} (hx : w.registry.get? uri = some x) (huri : c.uri = uri) :
    w.copyPass c x.root x.generation
      =
    let pass := w.rules.createCopy (scratchName w.draws) x.root w.disk
    let e : Entry := { x with state := .ofResult pass.2 }
    ({ w with
        disk := pass.1
        registry := w.registry.set uri e
        draws := w.draws + 1
        settles := w.settles + 1 },
      { c with phase := .done (pass.2.map fun _ => e.snapshot uri) }) := by
  unfold World.copyPass settle tell
  dsimp only
  rw [huri, Registry.commit_of_last hx]

theorem Fits.advance (h : c.Fits uri w) (hsound : w.registry.Sound w.rules) (settles : Nat) :
    (c.advance w.registry settles).1.Fits uri
        { w with registry := (c.advance w.registry settles).2 }
      ∧ Tended hs w hs { w with registry := (c.advance w.registry settles).2 } := by
  have hself : Tended hs w hs w := .refl hsound hs
  have huri := h.1
  unfold Caller.advance
  split
  . next hp =>
    -- Only a look at the entry can change it: it begins a pass.
    have hd := Registry.nextStep_decides w.registry c.uri c.waited
    unfold look
    generalize w.registry.nextStep c.uri c.waited = next at hd
    cases hd with
    | absent => exact ⟨⟨huri, trivial⟩, hself⟩
    | check hx hs =>
      rw [huri] at hx
      exact ⟨⟨huri, _, _, hx, hs, by rw [huri]⟩, hself⟩
    | wait => exact ⟨⟨huri, trivial⟩, hself⟩
    | @copy e hx hs hw =>
      refine ⟨⟨huri, e.beginPass, ?_, rfl, rfl⟩, hsound.beginPass hx, ?_, rfl, rfl⟩
      . rw [huri, Registry.get?_set, if_pos rfl]
      . exact Registry.outline_set hsound.ordered hx rfl
  . next scratch hp =>
    refine ⟨⟨huri, trivial⟩, hsound.markStale c.uri scratch, ?_, rfl, rfl⟩
    exact Registry.outline_markStale hsound.ordered c.uri scratch
  . exact ⟨⟨huri, trivial⟩, hself⟩
  . split
    . exact ⟨⟨huri, trivial⟩, hself⟩
    . exact ⟨⟨huri, trivial⟩, hself⟩
  . split
    . exact ⟨⟨huri, trivial⟩, hself⟩
    . exact ⟨⟨huri, trivial⟩, hself⟩
  . split
    . exact ⟨⟨huri, trivial⟩, hself⟩
    . exact ⟨h, hself⟩
  . exact ⟨h, hself⟩

theorem Fits.advances (settles n : Nat) (h : c.Fits uri w) (hsound : w.registry.Sound w.rules) :
    (c.advances settles n w.registry).1.Fits uri
        { w with registry := (c.advances settles n w.registry).2 }
      ∧ Tended hs w hs { w with registry := (c.advances settles n w.registry).2 } := by
  induction n generalizing c w with
  | zero => exact ⟨h, .refl hsound hs⟩
  | succ n ih =>
    obtain ⟨hfit, ht⟩ := h.advance hs hsound settles
    obtain ⟨hfit', ht'⟩ := ih hfit ht.sound
    exact ⟨hfit', ht.trans ht'⟩

theorem Fits.of_working (h : c.Fits uri w) (hw : c.isWorking = true)
    (hregistry : w'.registry = w.registry) : c.Fits uri w' := by
  obtain ⟨huri, hphase⟩ := h
  refine ⟨huri, ?_⟩
  unfold isWorking at hw
  split at hw
  . next ws hp =>
    rw [hp] at hphase ⊢
    simpa only [hregistry] using hphase
  . next root generation hp =>
    rw [hp] at hphase ⊢
    simpa only [hregistry] using hphase
  . cases hw

theorem Fits.copyPass {root : Path} {generation : Nat} (h : c.Fits uri w)
    (hsound : w.registry.Sound w.rules) (hp : c.phase = .copying root generation) :
    (w.copyPass c root generation).2.Fits uri (w.copyPass c root generation).1
      ∧ Tended hs w hs (w.copyPass c root generation).1 := by
  obtain ⟨huri, hphase⟩ := h
  rw [hp] at hphase
  obtain ⟨e, hx, hg, hroot⟩ := hphase
  subst hg hroot
  rw [copyPass_of_last hx huri]
  generalize hpass : w.rules.createCopy (scratchName w.draws) e.root w.disk = pass
  rcases pass with ⟨disk, result⟩
  have hsettle := @Registry.Sound.settlePass _ _ _ _ e.generation result hsound hx
  have houtline : (w.registry.set uri { e with state := .ofResult result }).outline
      = w.registry.outline := Registry.outline_set hsound.ordered hx rfl
  rw [Entry.settlePass_of_eq rfl] at hsettle
  cases result with
  | error cause => exact ⟨⟨huri, trivial⟩, hsettle (by simp), houtline, rfl, rfl⟩
  | ok scratch =>
    have hok : (w.rules.createCopy (scratchName w.draws) e.root w.disk).2 = .ok scratch := by
      rw [hpass]
    have hfolder := CopyRules.createCopy_isFolder hok
    rw [hpass] at hfolder
    refine ⟨⟨huri, _, scratch, ?_, rfl, rfl, hfolder⟩, hsettle ?_, houtline, rfl, rfl⟩
    . rw [Registry.get?_set, if_pos rfl]
    . intro s hs
      rw [← Except.ok.inj hs]
      exact ⟨w.draws, w.disk, hok⟩

theorem Fits.work (h : c.Fits uri w) (hsound : w.registry.Sound w.rules) :
    (w.work c).2.Fits uri (w.work c).1 ∧ Tended hs w hs (w.work c).1 := by
  have huri := h.1
  have hself : Tended hs w hs w := .refl hsound hs
  unfold World.work
  split
  . next ws hp =>
    have hphase := h.2
    rw [hp] at hphase
    obtain ⟨e, scratch, hx, hready, hws⟩ := hphase
    have hscratch : ws.scratch = some scratch := by
      rw [hws]
      exact Entry.snapshot_scratch_iff.mpr hready
    unfold Caller.check
    rw [hscratch]
    dsimp only [Option.any_some]
    by_cases hfolder : w.disk.isFolder scratch = true
    . rw [if_pos hfolder]
      exact ⟨⟨huri, e, scratch, hx, hready, hws, hfolder⟩, hself⟩
    . rw [if_neg hfolder]
      refine ⟨⟨huri, trivial⟩, hsound.markStale c.uri scratch, ?_, rfl, rfl⟩
      exact Registry.outline_markStale hsound.ordered c.uri scratch
  . next root generation hp => exact h.copyPass hs hsound hp
  . exact ⟨h, hself⟩

end Caller

namespace Job

variable {At : List Halt → World → Query → Prop} {c : Caller} {uri : String} {w w' : World}
  {hs : List Halt} {x : Entry} {scratch : Path}

theorem attend_one (fuel : Nat) (c : Caller) (w : World) :
    attend (fuel + 1) [c] w
      =
    let moved := c.move w.registry w.settles
    let w := { w with registry := moved.2 }
    if moved.1.isWorking then
      .ask w (@Query.rest .upkeep) fun _ w => attend fuel [(w.work moved.1).2] (w.work moved.1).1
    else if moved.1.isParked then
      .ask w (.settled w.settles) fun _ w => attend fuel [moved.1] w
    else
      .done w [moved.1] := by
  rw [Flight.attend_succ]
  simp only [Caller.moveAll, List.any_cons, List.any_nil, Bool.or_false]
  split
  . next hworking => simp [World.workFirst, hworking]
  . rfl

/-- What others keep, and what a caller for the workspace keeps with its steps and its work on
files. -/
structure Upholds (Q : Halt → Prop) (J : World → Prop) (u : String) : Prop where
  undisturbed : ∀ {h : Halt}, Q h → h.Undisturbed
  halt : ∀ {w w' : World} {q : Query}, J w → Q ⟨w, q, w'⟩ → J w'
  advance : ∀ {c : Caller} {w : World}, c.Fits u w → w.registry.Sound w.rules → J w →
    ∀ settles, J { w with registry := (c.advance w.registry settles).2 }
  work : ∀ {c : Caller} {v w : World}, Q ⟨v, @Query.rest .upkeep, w⟩ → c.Fits u w →
    w.registry.Sound w.rules → J w → J (w.work c).1

theorem upholds_true (u : String) : Upholds Halt.Undisturbed (fun _ => True) u :=
  ⟨id, fun _ _ => trivial, fun _ _ _ _ => trivial, fun _ _ _ _ => trivial⟩

theorem Upholds.advances {Q : Halt → Prop} {J : World → Prop} (hJ : Upholds Q J uri)
    (settles n : Nat) (h : c.Fits uri w) (hsound : w.registry.Sound w.rules) (hw : J w) :
    J { w with registry := (c.advances settles n w.registry).2 } := by
  induction n generalizing c w with
  | zero => exact hw
  | succ n ih =>
    obtain ⟨hfit, ht⟩ := h.advance [] hsound settles
    exact ih hfit ht.sound (hJ.advance h hsound hw settles)

/-- A caller that did its work has none any more. -/
theorem isWorking_work (c : Caller) (w : World) : (w.work c).2.isWorking = false := by
  unfold World.work
  split
  . next ws hp =>
    unfold Caller.check
    cases ws.scratch with
    | none => rfl
    | some scratch =>
      cases hfolder : (some scratch).any w.disk.isFolder with
      | true => rfl
      | false => rfl
  . rfl
  . next hchecking hcopying =>
    unfold Caller.isWorking
    split
    . next ws hp => exact absurd hp (hchecking ws)
    . next root generation hp => exact absurd hp (hcopying root generation)
    . rfl

theorem work_of_not_isWorking (h : c.isWorking = false) : w.work c = (w, c) := by
  unfold World.work
  split
  . next hp => simp [Caller.isWorking, hp] at h
  . next hp => simp [Caller.isWorking, hp] at h
  . rfl

theorem attend_upholds {Q : Halt → Prop} {J : World → Prop} (hJ : Upholds Q J uri)
    (hat : ∀ hs w q, q.IsUpkeep → At hs w q) (fuel : Nat) (h : c.Fits uri w)
    (hidle : c.isWorking = false) (hsound : w.registry.Sound w.rules) (hw : J w) :
    (attend fuel [c] w).Along Q At
      (fun hs' w' cs => ∃ c', cs = [c'] ∧ c'.Fits uri w' ∧ Tended hs w hs' w' ∧ J w') hs := by
  induction fuel generalizing c w hs with
  | zero =>
    have hnone : attend 0 [c] w = .done w [c] := by
      simp only [attend, update, World.workAll, work_of_not_isWorking hidle]
    rw [hnone]
    exact ⟨c, rfl, h, .refl hsound hs, hw⟩
  | succ fuel ih =>
    obtain ⟨hfit, ht⟩ := h.advances hs w.settles 4 hsound
    have hmoved := hJ.advances w.settles 4 h hsound hw
    rw [attend_one, Caller.move]
    generalize c.advances w.settles 4 w.registry = moved at hfit ht hmoved
    dsimp only
    split
    . next hworking =>
      refine ⟨hat _ _ _ .rest, ?_⟩
      intro answer w' hq
      have hu := hJ.undisturbed hq
      have ht' := Tended.halt hs ht.sound .rest hu
      have hfits : moved.1.Fits uri w' := hfit.of_working hworking hu.registry
      obtain ⟨hfit', ht''⟩ := hfits.work
        (hs ++ [⟨{ w with registry := moved.2 }, @Query.rest .upkeep, w'⟩]) ht'.sound
      have hworked := hJ.work hq hfits ht'.sound (hJ.halt hmoved hq)
      refine (ih hfit' (isWorking_work _ _) ht''.sound hworked).mono (fun _ _ _ h => h) ?_
      rintro hs' w'' cs ⟨c', hcs, hfits, hend, hw''⟩
      exact ⟨c', hcs, hfits, (ht.trans ht').trans (ht''.trans hend), hw''⟩
    . split
      . refine ⟨hat _ _ _ (.settled _), ?_⟩
        -- Nobody settles a pass meanwhile, so the job does not go on.
        intro answer w' hq
        have hu := hJ.undisturbed hq
        have hwoken := hu.woken _ rfl
        have hsettles := hu.settles
        dsimp only at hwoken hsettles
        omega
      . exact ⟨moved.1, rfl, hfit, ht, hmoved⟩

theorem ensureReady_eq (uri : String) (w : World) :
    ensureReady uri w
      =
    ((attend (attendFuel 1) [Caller.start uri] w).bind fun cs w =>
      .done w (cs.map Caller.result)).bind fun rs w =>
        .done w (rs.headD (.error (.superseded uri))) := rfl

/-- A job that needs the copy of a workspace comes to an error, or the copy is ready. -/
theorem ensureReady_upholds {Q : Halt → Prop} {J : World → Prop} (hJ : Upholds Q J uri)
    (hat : ∀ hs w q, q.IsUpkeep → At hs w q) (hsound : w.registry.Sound w.rules) (hw : J w)
    (hs : List Halt) :
    (ensureReady uri w).Along Q At
      (fun hs' w' r => Tended hs w hs' w' ∧ J w' ∧ ∀ ws, r = .ok ws → w'.Ready uri ws) hs := by
  rw [ensureReady_eq]
  apply Step.along_bind
  apply Step.along_bind
  have hstart : (Caller.start uri).Fits uri w := ⟨rfl, trivial⟩
  refine (attend_upholds hJ hat _ hstart rfl hsound hw).mono (fun _ _ _ h => h) ?_
  rintro hs' w' cs ⟨c, hcs, hfit, ht, hw'⟩
  rw [hcs]
  refine ⟨ht, hw', ?_⟩
  intro ws hr
  have hphase : c.phase = .done (.ok ws) := by
    simp only [List.map_cons, List.map_nil, List.headD_cons] at hr
    unfold Caller.result at hr
    split at hr
    . next r hp => rw [hp, hr]
    . cases hr
  have hready := hfit.2
  rw [hphase] at hready
  exact hready

theorem ensureReady_of_ready (hx : w.registry.get? uri = some x) (hr : x.state = .ready scratch) :
    ∃ k, ensureReady uri w = .ask w (@Query.rest .upkeep) k
      ∧ ∀ answer w', w'.disk.isFolder scratch = true →
        k answer w' = .done w' (.ok (x.snapshot uri)) := by
  have hstart : attend (attendFuel 1) [Caller.start uri] w
      = .ask w (@Query.rest .upkeep) fun _ w' =>
        attend 15 [(w'.work ⟨uri, false, .checking (x.snapshot uri)⟩).2]
          (w'.work ⟨uri, false, .checking (x.snapshot uri)⟩).1 := by
    rw [attendFuel, attend_one, Caller.move_start_of_ready hx hr]
    rfl
  rw [ensureReady_eq, hstart]
  refine ⟨_, rfl, ?_⟩
  intro answer w' hfolder
  have hwork : w'.work ⟨uri, false, .checking (x.snapshot uri)⟩
      = (w', ⟨uri, false, .done (.ok (x.snapshot uri))⟩) := by
    rw [Caller.work_of_checking hr, if_pos hfolder]
  have hdone : attend 15 [⟨uri, false, .done (.ok (x.snapshot uri))⟩] w'
      = .done w' [⟨uri, false, .done (.ok (x.snapshot uri))⟩] := by
    rw [attend_one]
    rfl
  simp only [hwork, hdone]
  rfl

end Job

end InkServer
