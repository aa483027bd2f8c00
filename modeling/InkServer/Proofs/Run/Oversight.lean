import InkServer.Process.Supervision

/-!
This module contains the supervision of runs as a step relation. Runs are started, stopped and given
choices, and for each of them someone waits for the end of its process, tells the slot and reports
the end; all of this in any order. The supervision as it is carried out is a case of it.
-/

namespace InkServer

open Text

namespace RunEvent

def isExit : RunEvent → Bool
  | exited _ _ => true
  | _ => false

end RunEvent

namespace RunOutput

theorem isExit_take (o : RunOutput) (e : ScanEvent) :
    ∀ x ∈ (o.take e).1, x.isExit = false := by
  unfold take
  split
  . simp
  . split
    . simp
    . simp [RunEvent.isExit]
  . simp [RunEvent.isExit]

theorem isExit_takeAll (o : RunOutput) (es : List ScanEvent) :
    ∀ x ∈ (o.takeAll es).1, x.isExit = false := by
  induction es generalizing o with
  | nil => simp [takeAll]
  | cons e es ih =>
    intro x hx
    simp only [takeAll, List.mem_append] at hx
    cases hx with
    | inl hx => exact isExit_take o e x hx
    | inr hx => exact ih _ x hx

theorem isExit_pushAll (o : RunOutput) (chunks : List Bytes) :
    ∀ x ∈ (o.pushAll chunks).1, x.isExit = false := by
  induction chunks generalizing o with
  | nil => simp [pushAll]
  | cons chunk chunks ih =>
    intro x hx
    simp only [pushAll, List.mem_append] at hx
    cases hx with
    | inl hx => exact isExit_takeAll _ _ x hx
    | inr hx => exact ih _ x hx

theorem isExit_finish (o : RunOutput) : ∀ x ∈ o.finish, x.isExit = false := by
  intro x hx
  simp only [finish, List.mem_append, List.mem_singleton] at hx
  rcases hx with (hx | hx) | hx
  . exact isExit_takeAll _ _ x hx
  . unfold addedEnd at hx
    split at hx
    . split at hx
      . simp at hx
      . rw [List.mem_singleton.mp hx]
        rfl
    . simp at hx
  . rw [hx]
    rfl

end RunOutput

namespace Vigil

/-- Nobody knows of the end of the process yet. -/
def isOpen : Vigil → Bool
  | watching => true
  | awaiting _ => true
  | _ => false

def isReleased : Vigil → Bool
  | released _ _ => true
  | reported _ _ => true
  | _ => false

/-- The process was killed. -/
def killed : Vigil → Bool
  | watching => false
  | awaiting killed => killed
  | ended _ killed => killed
  | released _ killed => killed
  | reported _ killed => killed

variable {v : Vigil} {line : KillLine} {code : Option Int}

theorem isOpen_hear : (v.hear line).isOpen = v.isOpen := by
  unfold hear
  split
  . split <;> rfl
  . rfl

theorem isReleased_hear : (v.hear line).isReleased = v.isReleased := by
  unfold hear
  split
  . split <;> rfl
  . rfl

theorem killed_hear (h : (v.hear line).killed = true) : v.killed = true ∨ line = .used := by
  unfold hear at h
  split at h
  . split at h
    . exact .inl h
    . exact .inr rfl
    . cases h
  . exact .inl h

theorem killed_finish : (v.finish code).killed = v.killed := by
  cases v <;> rfl

theorem isReleased_finish : (v.finish code).isReleased = v.isReleased := by
  cases v <;> rfl

theorem killed_release : v.release.killed = v.killed := by
  cases v <;> rfl

theorem isOpen_release : v.release.isOpen = v.isOpen := by
  cases v <;> rfl

theorem killed_report : v.report.killed = v.killed := by
  cases v <;> rfl

theorem isReleased_report : v.report.isReleased = v.isReleased := by
  cases v <;> rfl

theorem isOpen_report : v.report.isOpen = v.isOpen := by
  cases v <;> rfl

theorem finish_of_isOpen (h : v.isOpen = true) : v.finish code = .ended code v.killed := by
  cases v with
  | watching => rfl
  | awaiting killed => rfl
  | ended code killed => cases h
  | released code killed => cases h
  | reported code killed => cases h

end Vigil

namespace Run

/-- The run `r'` has only worked on since `r`: it may have taken in lines and output, but nothing has
come to its end or was asked to. -/
structure Alike (r r' : Run) : Prop where
  generation : r'.generation = r.generation
  vigil : r'.vigil = r.vigil
  line : r'.line = r.line
  process : r'.process.isSome = r.process.isSome
  events : ∀ e ∈ r'.events, e.isExit = true → e ∈ r.events

variable {r r' : Run}

theorem alike_feed (r : Run) (p : Process) : r.Alike (r.feed p).1 := by
  unfold feed
  split
  . exact ⟨rfl, rfl, rfl, rfl, fun _ h _ => h⟩
  . split
    . exact ⟨rfl, rfl, rfl, rfl, fun _ h _ => h⟩
    . exact ⟨rfl, rfl, rfl, rfl, fun _ h _ => h⟩

theorem isExit_of_errorOutput? {chunk : Bytes} {e : RunEvent} (h : errorOutput? chunk = some e) :
    e.isExit = false := by
  unfold errorOutput? at h
  dsimp only at h
  split at h
  . cases h
  . cases h
    rfl

theorem alike_takeOutput (r : Run) (output errors : Bytes) :
    r.Alike (r.takeOutput output errors) := by
  refine ⟨rfl, rfl, rfl, rfl, ?_⟩
  intro e he hexit
  simp only [takeOutput, List.mem_append, List.mem_filterMap] at he
  rcases he with (he | he) | ⟨chunk, -, he⟩
  . exact he
  . rw [RunOutput.isExit_pushAll _ _ e he] at hexit
    cases hexit
  . rw [isExit_of_errorOutput? he] at hexit
    cases hexit

theorem line_of_drop (h : r.drop.line = .used) : r.line = .used := by
  unfold drop at h
  cases hline : r.line with
  | used => rfl
  | free =>
    simp only [hline] at h
    cases h
  | cut =>
    simp only [hline] at h
    cases h

theorem report_of_released {code : Option Int} {killed : Bool}
    (h : r.vigil = .released code killed) :
    r.report = { r with vigil := r.vigil.report, events := r.events ++ [.exited code killed] } := by
  unfold report
  rw [h]

theorem generation_report (r : Run) : r.report.generation = r.generation := by
  unfold report
  split <;> rfl

theorem Alike.trans {r'' : Run} (h : r.Alike r') (h' : r'.Alike r'') : r.Alike r'' where
  generation := h'.generation.trans h.generation
  vigil := h'.vigil.trans h.vigil
  line := h'.line.trans h.line
  process := h'.process.trans h.process
  events e he hexit := h.events e (h'.events e he hexit) hexit

end Run

namespace Slot

variable {s : Slot} {g : Nat}

theorem holds_iff : s.holds g = true ↔ s.current? = some g := by
  unfold holds current?
  split
  . next run h => simp [h]
  . next h => simp [h]

theorem current?_of_addressee? (h : s.addressee? = some g) : s.current? = some g := by
  unfold addressee? at h
  unfold current?
  split at h
  . next run hrun =>
    split at h
    . rw [hrun]
      exact h
    . cases h
  . cases h

theorem last_release : (s.release g).last = s.last := by
  unfold release
  split <;> rfl

theorem release_of_current? (h : s.current? = some g) : s.release g = { s with active := none } := by
  unfold release
  rw [if_pos (holds_iff.mpr h)]

theorem release_of_ne (h : s.current? ≠ some g) : s.release g = s := by
  unfold release
  rw [if_neg (fun hg => h (holds_iff.mp hg))]

theorem current?_release {k : Nat} :
    (s.release g).current? = some k ↔ s.current? = some k ∧ k ≠ g := by
  by_cases h : s.current? = some g
  . rw [release_of_current? h, h]
    constructor
    . intro hk
      cases hk
    . rintro ⟨hk, hne⟩
      cases hk
      exact absurd rfl hne
  . rw [release_of_ne h]
    constructor
    . intro hk
      refine ⟨hk, ?_⟩
      rintro rfl
      exact h hk
    . exact And.left

end Slot

namespace Processes

/-- Something that happens to the runs. -/
inductive Deed where
  | refused (e : StartError)
  | started (generation : Nat) (mode : Mode)
  /-- The run in the slot is to be killed, if there is one. -/
  | stopped (generation : Option Nat)
  /-- A choice was queued for a run, or turned down. -/
  | chosen (generation : Option Nat) (index : Nat)
  | heard (generation : Nat)
  | ended (generation : Nat) (status : ExitStatus)
  | released (generation : Nat)
  | reported (generation : Nat) (code : Option Int) (killed : Bool)
  | received (generation : Nat) (event : Option RunEvent)
  | other

namespace Deed

def started? : Deed → Option Nat
  | started g _ => some g
  | _ => none

/-- What becomes of the slot. -/
def slot (s : Slot) : Deed → Slot
  | started g mode => ⟨g, some ⟨g, mode = .play⟩⟩
  | stopped _ => { s with active := none }
  | released g => s.release g
  | _ => s

end Deed

/-- What can happen to the runs, in one step. -/
inductive Moves (s : Processes) : Deed → Processes → Prop where
  | refuse {mode : Mode} {request : RunRequest} {d : Disk} {e : StartError} {t : Processes}
    (h : s.launch mode request d = (.error e, t)) :
    Moves s (.refused e) t
  | start {mode : Mode} {request : RunRequest} {d : Disk} {g : Nat} {t : Processes}
    (h : s.launch mode request d = (.ok g, t)) :
    Moves s (.started g mode) t
  | stop : Moves s (.stopped s.slot.current?) s.stop.2
  | submit (index : Nat) :
    Moves s (.chosen (if (s.submit index).1 then s.slot.addressee? else none) index)
      (s.submit index).2
  | hear (g : Nat) : Moves s (.heard g) (s.updateRun g Run.hear)
  | finish {g : Nat} {r : Run} (h : s.run? g = some r) (hp : r.process.isSome = true)
    (status : ExitStatus) :
    Moves s (.ended g status) (s.updateRun g (Run.finish status))
  | release {g : Nat} {r : Run} {code : Option Int} {killed : Bool} (h : s.run? g = some r)
    (hv : r.vigil = .ended code killed) :
    Moves s (.released g) (s.release g)
  | report {g : Nat} {r : Run} {code : Option Int} {killed : Bool} (h : s.run? g = some r)
    (hv : r.vigil = .released code killed) :
    Moves s (.reported g code killed) (s.updateRun g Run.report)
  | receive {g : Nat} {e : Option RunEvent} {t : Processes} (h : s.take? g = some (e, t)) :
    Moves s (.received g e) t
  | work {g : Nat} {r r' : Run} (h : s.run? g = some r) (ha : r.Alike r') :
    Moves s .other (s.updateRun g fun _ => r')
  | pass (tools : ToolMemory) (clock : Nat) : Moves s .other { s with tools, clock }

/-- What happened from one state to another, the latest first. -/
inductive Course (s : Processes) : List Deed → Processes → Prop where
  | nil : Course s [] s
  | step {es : List Deed} {t u : Processes} {e : Deed} (h : Course s es t) (hm : t.Moves e u) :
    Course s (e :: es) u

variable {s t u : Processes} {g k : Nat} {e : Deed} {r r' : Run} {f : Run → Run}

theorem Course.one (h : s.Moves e t) : Course s [e] t :=
  .step .nil h

theorem Course.append {es later : List Deed} (h : Course s es t) (h' : Course t later u) :
    Course s (later ++ es) u := by
  induction h' with
  | nil => exact h
  | step _ hm ih => exact .step ih hm

theorem generation_of_run? (h : s.run? g = some r) : r.generation = g := by
  simpa using List.find?_some h

theorem run?_updateRun (hf : ∀ r, r.generation = g → (f r).generation = g) :
    (s.updateRun g f).run? k = if k = g then (s.run? g).map f else s.run? k := by
  unfold run? updateRun
  dsimp only
  induction s.runs with
  | nil => simp
  | cons r rs ih =>
    by_cases hr : r.generation = g
    . by_cases hk : k = g
      . simp [hr, hf, hk]
      . have hne : ¬ g = k := fun h => hk h.symm
        simpa [hr, hf, hk, hne] using ih
    . by_cases hk : r.generation = k
      . have hne : ¬ k = g := fun h => hr (hk.trans h)
        simp [hk, hne]
      . simpa [hr, hk] using ih

theorem run?_updateRun_self (hf : ∀ r, r.generation = g → (f r).generation = g)
    (h : s.run? g = some r) : (s.updateRun g f).run? g = some (f r) := by
  rw [run?_updateRun hf, if_pos rfl, h]
  rfl

theorem of_run?_updateRun (h : (s.updateRun g f).run? k = some r')
    (hf : ∀ r, r.generation = g → (f r).generation = g) :
    (k = g ∧ ∃ r, s.run? k = some r ∧ r' = f r) ∨ (k ≠ g ∧ s.run? k = some r') := by
  rw [run?_updateRun hf] at h
  split at h
  . next hk =>
    rw [Option.map_eq_some_iff] at h
    obtain ⟨r, hr, heq⟩ := h
    exact .inl ⟨hk, r, by rw [hk, hr], heq.symm⟩
  . next hk => exact .inr ⟨hk, h⟩

theorem of_run?_displace (h : s.displace.run? k = some r') :
    (s.slot.current? = some k ∧ ∃ r, s.run? k = some r ∧ r' = r.drop)
      ∨ (s.slot.current? ≠ some k ∧ s.run? k = some r') := by
  unfold displace at h
  split at h
  . next g hg =>
    rw [hg]
    rcases of_run?_updateRun h (fun _ hr => hr) with ⟨rfl, hr⟩ | ⟨hne, hr⟩
    . exact .inl ⟨rfl, hr⟩
    . exact .inr ⟨by simpa using Ne.symm hne, hr⟩
  . next hg => exact .inr ⟨by simp [hg], h⟩

theorem launch_eq_error {mode : Mode} {request : RunRequest} {d : Disk} {e : StartError}
    (h : s.launch mode request d = (.error e, t)) : t = s := by
  unfold launch at h
  split at h
  . cases h
    rfl
  . dsimp only at h
    split at h
    . cases h
      rfl
    . cases h

def begun (g : Nat) (mode : Mode) (request : RunRequest) (process : Process) : Run :=
  ⟨g, mode, some process, .start mode request, [], false, .watching, .free, []⟩

theorem launch_eq_ok {mode : Mode} {request : RunRequest} {d : Disk}
    (h : s.launch mode request d = (.ok g, t)) :
    g = s.slot.last + 1
      ∧ ∃ process,
          t = { s.displace with
                slot := ⟨g, some ⟨g, mode = .play⟩⟩
                runs := s.displace.runs ++ [begun g mode request process] } := by
  unfold launch at h
  split at h
  . cases h
  . dsimp only at h
    split at h
    . cases h
    . next process _ =>
      cases h
      exact ⟨rfl, process, rfl⟩

theorem of_take? {e : Option RunEvent} (h : s.take? g = some (e, t)) :
    ∃ r, s.run? g = some r
      ∧ ((∃ x rest, r.events = x :: rest ∧ e = some x
            ∧ t = s.updateRun g fun r => { r with events := rest })
          ∨ e = none ∧ t = { s with runs := s.runs.filter fun r => r.generation ≠ g }) := by
  unfold take? at h
  split at h
  . cases h
  . next r hr =>
    refine ⟨r, hr, ?_⟩
    split at h
    . next x rest hevents =>
      cases h
      exact .inl ⟨x, rest, hevents, rfl, rfl⟩
    . split at h
      . cases h
        exact .inr ⟨rfl, rfl⟩
      . cases h

theorem of_run?_filter
    (h : { s with runs := s.runs.filter fun r => r.generation ≠ g }.run? k = some r) :
    k ≠ g ∧ s.run? k = some r := by
  unfold run? at h
  dsimp only at h
  have hk : r.generation = k := by simpa using List.find?_some h
  have hmem := List.mem_of_find?_eq_some h
  have hne : k ≠ g := by
    rw [← hk]
    simpa using (List.mem_filter.mp hmem).2
  refine ⟨hne, ?_⟩
  unfold run?
  rw [← h, List.find?_filter]
  congr 1
  funext x
  by_cases hx : x.generation = k
  . simp [hx, hne]
  . simp [hx]

theorem of_submit (s : Processes) (index : Nat) :
    (s.submit index = (false, s))
      ∨ ∃ g line, s.slot.addressee? = some g
          ∧ s.submit index
            = (true, s.updateRun g fun r => { r with queued := r.queued ++ [line] }) := by
  unfold submit
  split
  . exact .inl rfl
  . next g hg =>
    split
    . exact .inl rfl
    . split
      . exact .inl rfl
      . exact .inr ⟨g, _, hg, rfl⟩

theorem stop_eq (s : Processes) :
    s.stop.2
      =
    match s.slot.current? with
    | some g =>
      { s with slot := { s.slot with active := none } }.updateRun g fun r => { r with line := .used }
    | none => { s with slot := { s.slot with active := none } } := by
  unfold stop Slot.stop Slot.current?
  cases s.slot.active with
  | none => rfl
  | some run => rfl

theorem Moves.slot_eq (h : s.Moves e t) : t.slot = e.slot s.slot := by
  -- Only a start, a stop and a release do anything to the slot.
  cases h with
  | refuse h =>
    rw [launch_eq_error h]
    rfl
  | start h =>
    obtain ⟨_, process, ht⟩ := launch_eq_ok h
    rw [ht]
    rfl
  | stop =>
    rw [stop_eq]
    split <;> rfl
  | submit index =>
    rcases of_submit s index with h | ⟨g, line, -, h⟩
    . rw [h]
      rfl
    . rw [h]
      rfl
  | hear g => rfl
  | finish => rfl
  | release => rfl
  | report => rfl
  | receive h =>
    obtain ⟨r, _, hr⟩ := of_take? h
    rcases hr with ⟨x, rest, -, -, ht⟩ | ⟨-, ht⟩
    . rw [ht]
      rfl
    . rw [ht]
      rfl
  | work => rfl
  | pass => rfl

/-- What can happen to one run that is there already. -/
inductive Turns (s : Slot) (g : Nat) (r : Run) : Deed → Run → Prop where
  | displaced {k : Nat} {mode : Mode} (h : s.current? = some g) : Turns s g r (.started k mode) r.drop
  | stopped (h : s.current? = some g) : Turns s g r (.stopped (some g)) { r with line := .used }
  | heard : Turns s g r (.heard g) r.hear
  | ended (status : ExitStatus) : Turns s g r (.ended g status) (r.finish status)
  | released : Turns s g r (.released g) r.release
  | reported {code : Option Int} {killed : Bool} (h : r.vigil = .released code killed) :
    Turns s g r (.reported g code killed) r.report
  | alike {e : Deed} {r' : Run} (h : r.Alike r') : Turns s g r e r'

theorem Turns.same {e : Deed} {s : Slot} : Turns s g r e r :=
  .alike ⟨rfl, rfl, rfl, rfl, fun _ h _ => h⟩

theorem Turns.of_updateRun {slot : Slot} (hr : (s.updateRun k f).run? g = some r')
    (hf : ∀ r, r.generation = k → (f r).generation = k)
    (hturn : ∀ r, s.run? k = some r → Turns slot k r e (f r)) :
    ∃ r, s.run? g = some r ∧ Turns slot g r e r' := by
  rcases of_run?_updateRun hr hf with ⟨hk, r, hold, heq⟩ | ⟨-, hold⟩
  . subst hk
    rw [heq]
    exact ⟨r, hold, hturn r hold⟩
  . exact ⟨r', hold, .same⟩

theorem Moves.turns (h : s.Moves e t) (hr : t.run? g = some r') :
    (∃ mode request process, e = .started g mode ∧ r' = begun g mode request process)
      ∨ ∃ r, s.run? g = some r ∧ Turns s.slot g r e r' := by
  cases h with
  | refuse h =>
    rw [launch_eq_error h] at hr
    exact .inr ⟨r', hr, .same⟩
  | @start mode request d k t h =>
    obtain ⟨_, process, ht⟩ := launch_eq_ok h
    rw [ht] at hr
    -- The new run stands at the end, so a run that is found before it is an old one.
    have happend : (s.displace.run? g).or ([begun k mode request process].find?
        fun r => r.generation == g) = some r' := by
      rw [← hr]
      exact List.find?_append.symm
    rw [Option.or_eq_some_iff] at happend
    rcases happend with hold | ⟨-, hnew⟩
    . rcases of_run?_displace hold with ⟨hcurrent, r, hr, heq⟩ | ⟨-, hr⟩
      . rw [heq]
        exact .inr ⟨r, hr, .displaced hcurrent⟩
      . exact .inr ⟨r', hr, .same⟩
    . have hmem := List.mem_singleton.mp (List.mem_of_find?_eq_some hnew)
      have hk : r'.generation = g := by simpa using List.find?_some hnew
      rw [hmem] at hk
      dsimp only [begun] at hk
      subst hk
      exact .inl ⟨mode, request, process, rfl, hmem⟩
  | stop =>
    rw [stop_eq] at hr
    split at hr
    . next k hk =>
      rw [hk]
      exact .inr (Turns.of_updateRun hr (fun _ h => h) fun _ _ => .stopped hk)
    . exact .inr ⟨r', hr, .same⟩
  | submit index =>
    rcases of_submit s index with h | ⟨k, line, -, h⟩
    . rw [h] at hr
      exact .inr ⟨r', hr, .same⟩
    . rw [h] at hr
      refine .inr (Turns.of_updateRun hr (fun _ h => h) fun _ _ => ?_)
      exact .alike ⟨rfl, rfl, rfl, rfl, fun _ h _ => h⟩
  | hear k => exact .inr (Turns.of_updateRun hr (fun _ h => h) fun _ _ => .heard)
  | finish _ _ status => exact .inr (Turns.of_updateRun hr (fun _ h => h) fun _ _ => .ended status)
  | release => exact .inr (Turns.of_updateRun hr (fun _ h => h) fun _ _ => .released)
  | report hk hv =>
    refine .inr (Turns.of_updateRun hr (fun r h => r.generation_report.trans h) fun r hr => ?_)
    have heq := Option.some.inj (hk.symm.trans hr)
    rw [heq] at hv
    exact .reported hv
  | receive h =>
    obtain ⟨r, hk, hcases⟩ := of_take? h
    rcases hcases with ⟨x, rest, hevents, -, rfl⟩ | ⟨-, rfl⟩
    . -- The event that is taken is the only one that goes.
      refine .inr (Turns.of_updateRun hr (fun _ h => h) fun r₁ hr => ?_)
      have heq := Option.some.inj (hk.symm.trans hr)
      refine .alike ⟨rfl, rfl, rfl, rfl, fun e he _ => ?_⟩
      rw [← heq, hevents]
      exact List.mem_cons_of_mem _ he
    . exact .inr ⟨r', (of_run?_filter hr).2, .same⟩
  | work hk ha =>
    have hf := ha.generation.trans (generation_of_run? hk)
    refine .inr (Turns.of_updateRun hr (fun _ _ => hf) fun r hr => ?_)
    have heq := Option.some.inj (hk.symm.trans hr)
    rw [← heq]
    exact .alike ha
  | pass => exact .inr ⟨r', hr, .same⟩

end Processes

end InkServer
