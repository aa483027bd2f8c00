import InkServer.Proofs.Association
import InkServer.Workspace.Registry

/-!
This module contains what the operations on the registry do to the entry of each workspace. Every
operation touches the entry of one workspace and leaves the others as they are.
-/

namespace InkServer

/-- What the result of a pass makes of the copy of a workspace. -/
def CopyState.ofResult : Registry.PassResult → CopyState
  | .ok scratch => .ready scratch
  | .error cause => .failed cause.message

theorem CopyState.ofResult_ne_copying (result : Registry.PassResult) :
    ofResult result ≠ copying := by
  cases result with
  | ok scratch => simp [ofResult]
  | error cause => simp [ofResult]

namespace Entry

def beginPass (e : Entry) : Entry :=
  { e with state := .copying, generation := e.generation + 1 }

def settlePass (e : Entry) (generation : Nat) (result : Registry.PassResult) : Entry :=
  if e.generation = generation then { e with state := .ofResult result } else e

/-- The entry when a scratch folder is given up. -/
def giveUp (e : Entry) (scratch : Path) : Entry :=
  if e.state = .ready scratch then { e with state := .absent } else e

@[simp]
theorem beginPass_generation (e : Entry) : e.beginPass.generation = e.generation + 1 := rfl

@[simp]
theorem beginPass_state (e : Entry) : e.beginPass.state = .copying := rfl

@[simp]
theorem fresh_state (root : Path) : (fresh root).state = .absent := rfl

@[simp]
theorem settlePass_generation (e : Entry) (generation : Nat) (result : Registry.PassResult) :
    (e.settlePass generation result).generation = e.generation := by
  unfold settlePass
  split <;> rfl

theorem settlePass_of_eq {e : Entry} {generation : Nat} (h : e.generation = generation)
    (result : Registry.PassResult) :
    e.settlePass generation result = { e with state := .ofResult result } := by
  simp [settlePass, h]

theorem settlePass_of_ne {e : Entry} {generation : Nat} (h : e.generation ≠ generation)
    (result : Registry.PassResult) :
    e.settlePass generation result = e := by
  simp [settlePass, h]

@[simp]
theorem giveUp_generation (e : Entry) (scratch : Path) :
    (e.giveUp scratch).generation = e.generation := by
  unfold giveUp
  split <;> rfl

theorem giveUp_state_eq_copying (e : Entry) (scratch : Path) :
    (e.giveUp scratch).state = .copying ↔ e.state = .copying := by
  unfold giveUp
  split
  . next h => simp [h]
  . rfl

theorem giveUp_of_ne {e : Entry} {scratch : Path} (h : e.state ≠ .ready scratch) :
    e.giveUp scratch = e := by
  simp [giveUp, h]

theorem giveUp_state_eq_ready {e : Entry} {given scratch : Path}
    (h : (e.giveUp given).state = .ready scratch) : e.state = .ready scratch := by
  unfold giveUp at h
  split at h
  . simp at h
  . exact h

theorem snapshot_scratch_iff {e : Entry} {uri : String} {scratch : Path} :
    (e.snapshot uri).scratch = some scratch ↔ e.state = .ready scratch := by
  unfold snapshot scratch?
  dsimp only
  split
  . next s hs => rw [hs, Option.some.injEq, CopyState.ready.injEq]
  . next hnot => simpa using hnot scratch

theorem settlePass_state_eq_ready {e : Entry} {generation : Nat} {result : Registry.PassResult}
    {scratch : Path} (h : (e.settlePass generation result).state = .ready scratch) :
    e.state = .ready scratch ∨ result = .ok scratch := by
  unfold settlePass at h
  split at h
  . cases result with
    | ok filled =>
      simp only [CopyState.ofResult, CopyState.ready.injEq] at h
      exact .inr (by rw [h])
    | error cause => simp [CopyState.ofResult] at h
  . exact .inl h

end Entry

namespace Registry

theorem lookup_insertEntry (uri u : String) (e : Entry) (entries : List (String × Entry)) :
    (insertEntry uri e entries).lookup u = if u = uri then some e else entries.lookup u := by
  induction entries with
  | nil =>
    unfold insertEntry
    rw [lookup_cons_eq_ite]
  | cons entry rest ih =>
    rcases entry with ⟨key, f⟩
    unfold insertEntry
    split
    . next h =>
      rw [lookup_cons_eq_ite, lookup_cons_eq_ite, ← h]
      split <;> rfl
    . next h =>
      split
      . rw [lookup_cons_eq_ite]
      . rw [lookup_cons_eq_ite, lookup_cons_eq_ite, ih]
        split
        . next hu =>
          rw [if_neg]
          rw [hu]
          exact Ne.symm h
        . rfl

theorem lookup_filter_ne (uri u : String) (entries : List (String × Entry)) :
    (entries.filter fun (key, _) => key ≠ uri).lookup u
      =
    if u = uri then none else entries.lookup u :=
  lookup_eraseKey uri u entries

theorem get?_set (r : Registry) (uri u : String) (e : Entry) :
    (r.set uri e).get? u = if u = uri then some e else r.get? u := by
  apply lookup_insertEntry

theorem get?_forget (r : Registry) (uri u : String) :
    (r.forget uri).get? u = if u = uri then none else r.get? u := by
  apply lookup_filter_ne

theorem toPath_of_register {r : Registry} {uri : String} {p : Workspace × Registry}
    (h : r.register uri = .ok p) : ∃ root, Uri.toPath uri = .ok root := by
  unfold register at h
  split at h
  . cases h
  . next root hroot => exact ⟨root, hroot⟩

theorem toPath_of_register_error {r : Registry} {uri : String} {cause : Uri.Invalid}
    (h : r.register uri = .error cause) : Uri.toPath uri = .error cause := by
  unfold register at h
  split at h
  . next hroot =>
    rw [Except.error.injEq] at h
    rw [hroot, h]
  . dsimp only at h
    split at h <;> cases h

theorem get?_register {r r' : Registry} {uri : String} {root : Path} {w : Workspace}
    (hroot : Uri.toPath uri = .ok root) (h : r.register uri = .ok (w, r')) (u : String) :
    r'.get? u = if u = uri then some ((r.get? u).getD (.fresh root)) else r.get? u := by
  unfold register at h
  rw [hroot] at h
  dsimp only at h
  split at h
  . next e he =>
    simp only [Except.ok.injEq, Prod.mk.injEq] at h
    rw [← h.2]
    split
    . next hu => simp [hu, he]
    . rfl
  . next he =>
    simp only [Except.ok.injEq, Prod.mk.injEq] at h
    rw [← h.2, get?_set]
    split
    . next hu => simp [hu, he]
    . rfl

theorem get?_markStale (r : Registry) (uri u : String) (scratch : Path) :
    (r.markStale uri scratch).get? u
      =
    if u = uri then (r.get? u).map (·.giveUp scratch) else r.get? u := by
  unfold markStale
  split
  . next e he =>
    split
    . next hs =>
      rw [get?_set]
      split
      . next hu => simp [hu, he, Entry.giveUp, hs]
      . rfl
    . next hs =>
      split
      . next hu => simp [hu, he, Entry.giveUp, hs]
      . rfl
  . next he =>
    split
    . next hu => simp [hu, he]
    . rfl

theorem get?_commit (r : Registry) (uri u : String) (generation : Nat) (result : PassResult) :
    (r.commit uri generation result).2.get? u
      =
    if u = uri then (r.get? u).map (·.settlePass generation result) else r.get? u := by
  unfold commit
  split
  . next he =>
    split
    . next hu => simp [hu, he]
    . rfl
  . next e he =>
    split
    . next hg =>
      -- Only a pass that is the last one writes its result into the entry.
      split
      . simp only [get?_set]
        split
        . next hu => simp [hu, he, Entry.settlePass, hg, CopyState.ofResult]
        . rfl
      . simp only [get?_set]
        split
        . next hu => simp [hu, he, Entry.settlePass, hg, CopyState.ofResult]
        . rfl
    . next hg =>
      split <;>
      . split
        . next hu => simp [hu, he, Entry.settlePass, hg]
        . rfl

theorem commit_of_last {r : Registry} {uri : String} {e : Entry} (h : r.get? uri = some e)
    (result : PassResult) :
    r.commit uri e.generation result
      =
    (result.map fun _ => { e with state := .ofResult result }.snapshot uri,
      r.set uri { e with state := .ofResult result }) := by
  unfold commit
  rw [h]
  dsimp only
  rw [if_pos rfl]
  cases result with
  | ok scratch => rfl
  | error cause => rfl

inductive Decides (r : Registry) (uri : String) (waited : Bool) :
    Except CopyError (Next × Registry) → Prop where
  | absent (h : r.get? uri = none) : Decides r uri waited (.error (.notRegistered uri))
  | check {e : Entry} {scratch : Path} (h : r.get? uri = some e) (hs : e.state = .ready scratch) :
    Decides r uri waited (.ok (.check (e.snapshot uri), r))
  | wait {e : Entry} (h : r.get? uri = some e) (hs : e.state = .copying) (hw : waited = false) :
    Decides r uri waited (.ok (.wait, r))
  | copy {e : Entry} (h : r.get? uri = some e) (hs : ∀ scratch, e.state ≠ .ready scratch)
    (hw : e.state = .copying → waited = true) :
    Decides r uri waited (.ok (.copy e.root (e.generation + 1), r.set uri e.beginPass))

theorem nextStep_decides (r : Registry) (uri : String) (waited : Bool) :
    Decides r uri waited (r.nextStep uri waited) := by
  unfold nextStep
  split
  . next h => exact .absent h
  . next e h =>
    split
    . next hs => exact .check h hs
    . next hs => exact .wait h hs rfl
    . next hready hwait =>
      apply Decides.copy h
      . intro scratch hs
        exact hready scratch hs
      . intro hs
        simpa using hwait hs

/-- Who finds neither a copy nor a pass begins a pass. -/
theorem nextStep_of_idle {r : Registry} {uri : String} {e : Entry} (h : r.get? uri = some e)
    (hready : ∀ scratch, e.state ≠ .ready scratch) (hcopying : e.state ≠ .copying) (waited : Bool) :
    r.nextStep uri waited = .ok (.copy e.root (e.generation + 1), r.set uri e.beginPass) := by
  unfold nextStep
  rw [h]
  dsimp only
  cases hs : e.state with
  | absent => rfl
  | failed reason => rfl
  | ready scratch => exact absurd hs (hready scratch)
  | copying => exact absurd hs hcopying

end Registry

end InkServer
