import InkServer.Proofs.Run.Oversight

/-!
This module contains what holds of the slot however runs overlap: it is empty or has the run that was
started last, it never has a run whose end it was told of, and only a run that it had when it was
stopped is ever killed.
-/

namespace InkServer

open Text

namespace Processes

/-- The generations of the runs that were started, the latest first. -/
def startedIn (es : List Deed) : List Nat :=
  es.filterMap Deed.started?

/-- What is known about a run in the list, as far as it comes from what happened before. -/
structure Backed (es : List Deed) (g : Nat) (r : Run) : Prop where
  used : r.line = .used → .stopped (some g) ∈ es
  killed : r.vigil.killed = true → .stopped (some g) ∈ es
  released : r.vigil.isReleased = true → .released g ∈ es
  reported : ∀ code killed, .exited code killed ∈ r.events → .reported g code killed ∈ es
  alive : r.process.isSome = true → r.vigil.isOpen = true

section

variable {search : List Path} {s t u : Processes} {g k : Nat} {e : Deed} {es later : List Deed}
  {r r' : Run}

theorem Moves.last_eq (h : s.Moves e t) : t.slot.last = e.started?.getD s.slot.last := by
  rw [h.slot_eq]
  cases e with
  | released g => exact Slot.last_release
  | _ => rfl

theorem Moves.eq_of_started (h : s.Moves e t) (hg : e.started? = some g) : g = s.slot.last + 1 := by
  cases h with
  | start h =>
    cases hg
    exact (launch_eq_ok h).1
  | _ => cases hg

theorem Moves.last_le (h : s.Moves e t) : s.slot.last ≤ t.slot.last := by
  rw [h.last_eq]
  cases hk : e.started? with
  | none => exact Nat.le_refl _
  | some k =>
    have hnew := h.eq_of_started hk
    rw [Option.getD_some, hnew]
    omega

theorem Moves.of_current? (h : s.Moves e t) (hg : t.slot.current? = some g) :
    e.started? = some g
      ∨ (s.slot.current? = some g ∧ e.started? = none ∧ e ≠ .released g) := by
  rw [h.slot_eq] at hg
  cases e with
  | started k mode => exact .inl hg
  | stopped k => cases hg
  | released k =>
    obtain ⟨hcurrent, hne⟩ := Slot.current?_release.mp hg
    refine .inr ⟨hcurrent, rfl, ?_⟩
    rintro ⟨⟩
    exact hne rfl
  | refused e => exact .inr ⟨hg, rfl, by simp⟩
  | chosen k index => exact .inr ⟨hg, rfl, by simp⟩
  | heard k => exact .inr ⟨hg, rfl, by simp⟩
  | ended k status => exact .inr ⟨hg, rfl, by simp⟩
  | reported k code killed => exact .inr ⟨hg, rfl, by simp⟩
  | received k event => exact .inr ⟨hg, rfl, by simp⟩
  | other => exact .inr ⟨hg, rfl, by simp⟩

theorem Moves.current?_of_chosen {index : Nat} (h : s.Moves (.chosen (some g) index) t) :
    s.slot.current? = some g := by
  generalize he : Deed.chosen (some g) index = e at h
  cases h with
  | submit index =>
    injection he with he
    split at he
    . exact Slot.current?_of_addressee? he.symm
    . cases he
  | _ => cases he

theorem Moves.current?_of_stopped (h : s.Moves (.stopped (some g)) t) :
    s.slot.current? = some g := by
  generalize he : Deed.stopped (some g) = e at h
  cases h with
  | stop =>
    injection he with he
    exact he.symm
  | _ => cases he

/-! ### The generations -/

theorem Course.le_last (h : Course (.start search) es s) : ∀ g ∈ startedIn es, g ≤ s.slot.last := by
  induction h with
  | nil => simp [startedIn]
  | @step es t u e h hm ih =>
    intro g hg
    simp only [startedIn, List.filterMap_cons] at hg
    cases hk : e.started? with
    | none =>
      simp only [hk] at hg
      exact Nat.le_trans (ih g hg) hm.last_le
    | some k =>
      simp only [hk, List.mem_cons] at hg
      rcases hg with rfl | hg
      . rw [hm.last_eq, hk]
        exact Nat.le_refl g
      . exact Nat.le_trans (ih g hg) hm.last_le

theorem Course.startedIn_pairwise (h : Course (.start search) es s) :
    (startedIn es).Pairwise (· > ·) := by
  induction h with
  | nil => simp [startedIn]
  | @step es t u e h hm ih =>
    simp only [startedIn, List.filterMap_cons]
    cases hk : e.started? with
    | none => exact ih
    | some k =>
      refine List.pairwise_cons.mpr ⟨?_, ih⟩
      intro g hg
      have hlast := hm.eq_of_started hk
      have := h.le_last g hg
      omega

theorem Course.head?_of_current? (h : Course (.start search) es s)
    (hg : s.slot.current? = some g) : (startedIn es).head? = some g := by
  induction h with
  | nil => cases hg
  | @step es t u e h hm ih =>
    simp only [startedIn, List.filterMap_cons]
    rcases hm.of_current? hg with hk | ⟨hcurrent, hk, -⟩
    . rw [hk]
      rfl
    . rw [hk]
      exact ih hcurrent

theorem Course.run_le_last (h : Course (.start search) es s) (hr : s.run? g = some r) :
    g ≤ s.slot.last := by
  induction h generalizing r with
  | nil => cases hr
  | @step es t u e h hm ih =>
    rcases hm.turns hr with ⟨mode, request, process, rfl, -⟩ | ⟨r₀, hr, -⟩
    . rw [hm.last_eq]
      exact Nat.le_refl g
    . exact Nat.le_trans (ih hr) hm.last_le

/-! ### What is known about the runs -/

theorem Backed.cons (h : Backed es g r) (e : Deed) : Backed (e :: es) g r where
  used hr := List.mem_cons_of_mem _ (h.used hr)
  killed hr := List.mem_cons_of_mem _ (h.killed hr)
  released hr := List.mem_cons_of_mem _ (h.released hr)
  reported code killed hr := List.mem_cons_of_mem _ (h.reported code killed hr)
  alive := h.alive

theorem backed_begun {mode : Mode} {request : RunRequest} {process : Process} :
    Backed es g (begun g mode request process) where
  used h := by cases h
  killed h := by cases h
  released h := by cases h
  reported _ _ h := by cases h
  alive _ := rfl

theorem Backed.turns {slot : Slot} (h : Backed es g r) (ht : Turns slot g r e r') :
    Backed (e :: es) g r' := by
  have hold := h.cons e
  cases ht with
  -- A line that was dropped is not a line that was used.
  | displaced => exact { hold with used := fun hused => hold.used (Run.line_of_drop hused) }
  | stopped => exact { hold with used := fun _ => List.mem_cons_self }
  | heard =>
    refine ⟨hold.used, fun hkilled => ?_, fun hreleased => ?_, hold.reported, fun hp => ?_⟩
    . cases Vigil.killed_hear hkilled with
      | inl hkilled => exact hold.killed hkilled
      | inr hused => exact hold.used hused
    . exact hold.released (Vigil.isReleased_hear.symm.trans hreleased)
    . exact Vigil.isOpen_hear.trans (hold.alive hp)
  | ended status =>
    refine ⟨hold.used, fun hkilled => ?_, fun hreleased => ?_, fun code killed hmem => ?_, ?_⟩
    . exact hold.killed (Vigil.killed_finish.symm.trans hkilled)
    . exact hold.released (Vigil.isReleased_finish.symm.trans hreleased)
    . rcases List.mem_append.mp hmem with hmem | hmem
      . exact hold.reported code killed hmem
      . -- The rest of the output reports no end.
        have hexit := RunOutput.isExit_finish _ _ hmem
        cases hexit
    . intro hp
      cases hp
  | released =>
    refine ⟨fun hused => ?_, fun hkilled => ?_, fun _ => List.mem_cons_self, hold.reported, ?_⟩
    . exact hold.used (Run.line_of_drop hused)
    . exact hold.killed (Vigil.killed_release.symm.trans hkilled)
    . exact fun hp => Vigil.isOpen_release.trans (hold.alive hp)
  | reported hv =>
    rw [Run.report_of_released hv]
    refine ⟨hold.used, fun hkilled => ?_, fun hreleased => ?_, fun code killed hmem => ?_, ?_⟩
    . exact hold.killed (Vigil.killed_report.symm.trans hkilled)
    . exact hold.released (Vigil.isReleased_report.symm.trans hreleased)
    . rcases List.mem_append.mp hmem with hmem | hmem
      . exact hold.reported code killed hmem
      . cases List.mem_singleton.mp hmem
        exact List.mem_cons_self
    . exact fun hp => Vigil.isOpen_report.trans (hold.alive hp)
  | alike ha =>
    refine ⟨fun hused => ?_, fun hkilled => ?_, fun hreleased => ?_, fun code killed hmem => ?_, ?_⟩
    . exact hold.used (ha.line.symm.trans hused)
    . rw [ha.vigil] at hkilled
      exact hold.killed hkilled
    . rw [ha.vigil] at hreleased
      exact hold.released hreleased
    . exact hold.reported code killed (ha.events _ hmem rfl)
    . intro hp
      rw [ha.vigil]
      exact hold.alive (ha.process.symm.trans hp)

theorem Course.backed (h : Course (.start search) es s) (hr : s.run? g = some r) :
    Backed es g r := by
  induction h generalizing r with
  | nil => cases hr
  | step h hm ih =>
    rcases hm.turns hr with ⟨mode, request, process, -, rfl⟩ | ⟨r₀, hr, ht⟩
    . exact backed_begun
    . exact (ih hr).turns ht

/-! ### The order of the deeds about one run -/

theorem Course.released_le_last (h : Course (.start search) es s) (hg : .released g ∈ es) :
    g ≤ s.slot.last := by
  induction h with
  | nil => cases hg
  | @step es t u e h hm ih =>
    have hle : g ≤ t.slot.last := by
      rcases List.mem_cons.mp hg with rfl | hg
      . cases hm with
        | release hr => exact h.run_le_last hr
      . exact ih hg
    exact Nat.le_trans hle hm.last_le

theorem Course.not_released (h : Course (.start search) es s) (hg : s.slot.current? = some g) :
    .released g ∉ es := by
  induction h with
  | nil => exact List.not_mem_nil
  | @step es t u e h hm ih =>
    intro hmem
    rcases hm.of_current? hg with hk | ⟨hcurrent, hk, hne⟩
    . -- The run was just started, so its generation is a new one.
      have hnew := hm.eq_of_started hk
      rcases List.mem_cons.mp hmem with rfl | hmem
      . cases hk
      . have := h.released_le_last hmem
        omega
    . rcases List.mem_cons.mp hmem with rfl | hmem
      . exact hne rfl
      . exact ih hcurrent hmem

theorem Course.of_reported {code : Option Int} {killed : Bool} (h : Course (.start search) es s)
    (hg : .reported g code killed ∈ es) :
    .released g ∈ es ∧ (killed = true → .stopped (some g) ∈ es) := by
  induction h with
  | nil => cases hg
  | step h hm ih =>
    rcases List.mem_cons.mp hg with rfl | hg
    . cases hm with
      | report hr hv =>
        have hbacked := h.backed hr
        refine ⟨List.mem_cons_of_mem _ (hbacked.released ?_), fun hkilled => ?_⟩
        . rw [hv]
          rfl
        . refine List.mem_cons_of_mem _ (hbacked.killed ?_)
          rw [hv]
          exact hkilled
    . obtain ⟨hreleased, hstopped⟩ := ih hg
      exact ⟨List.mem_cons_of_mem _ hreleased, fun hk => List.mem_cons_of_mem _ (hstopped hk)⟩

theorem Course.of_received {code : Option Int} {killed : Bool} (h : Course (.start search) es s)
    (hg : .received g (some (.exited code killed)) ∈ es) : .reported g code killed ∈ es := by
  induction h with
  | nil => cases hg
  | step h hm ih =>
    rcases List.mem_cons.mp hg with rfl | hg
    . cases hm with
      | receive ht =>
        obtain ⟨r, hr, hcases⟩ := of_take? ht
        rcases hcases with ⟨x, rest, hevents, hx, -⟩ | ⟨hx, -⟩
        . cases hx
          refine List.mem_cons_of_mem _ ((h.backed hr).reported code killed ?_)
          rw [hevents]
          exact List.mem_cons_self
        . cases hx
    . exact List.mem_cons_of_mem _ (ih hg)

/-- The slot was stopped while it held the run. -/
def StoppedInSlot (search : List Path) (es : List Deed) (g : Nat) : Prop :=
  ∃ later before s,
    es = later ++ .stopped (some g) :: before
      ∧ Course (.start search) before s
      ∧ s.slot.current? = some g

theorem Course.stoppedInSlot (h : Course (.start search) es s) (hg : .stopped (some g) ∈ es) :
    StoppedInSlot search es g := by
  induction h with
  | nil => cases hg
  | @step es t u e h hm ih =>
    rcases List.mem_cons.mp hg with rfl | hg
    . exact ⟨[], es, t, rfl, h, hm.current?_of_stopped⟩
    . obtain ⟨later, before, m, heq, hrest⟩ := ih hg
      exact ⟨e :: later, before, m, by rw [heq, List.cons_append], hrest⟩

/-- A run that left the slot does not come back. -/
theorem Course.stays_out (h : Course (.start search) es s) (hg : g ∈ startedIn es)
    (hout : s.slot.current? ≠ some g) (hlater : Course s later t) :
    t.slot.current? ≠ some g
      ∧ .stopped (some g) ∉ later
      ∧ ∀ index, .chosen (some g) index ∉ later := by
  induction hlater with
  | nil => exact ⟨hout, List.not_mem_nil, fun _ => List.not_mem_nil⟩
  | @step later t u e hlater hm ih =>
    obtain ⟨hstays, hstopped, hchosen⟩ := ih
    refine ⟨fun hcurrent => ?_, fun hmem => ?_, fun index hmem => ?_⟩
    . rcases hm.of_current? hcurrent with hk | ⟨hold, -, -⟩
      . -- It was started before, and a generation is given only once.
        have hnew := hm.eq_of_started hk
        have hmem : g ∈ startedIn (later ++ es) := by
          rw [startedIn, List.filterMap_append]
          exact List.mem_append_right _ hg
        have hle := (h.append hlater).le_last g hmem
        omega
      . exact hstays hold
    . rcases List.mem_cons.mp hmem with rfl | hmem
      . exact hstays hm.current?_of_stopped
      . exact hstopped hmem
    . rcases List.mem_cons.mp hmem with rfl | hmem
      . exact hstays hm.current?_of_chosen
      . exact hchosen index hmem

/-! ### The supervision as it is carried out -/

theorem conclude_course (hr : s.run? g = some r) (hp : r.process.isSome = true)
    (hopen : r.vigil.isOpen = true) (status : ExitStatus) :
    ∃ later, Course s later (s.conclude g status) := by
  have hfinish : ∃ code, (r.finish status).vigil = .ended code r.vigil.killed :=
    ⟨_, Vigil.finish_of_isOpen hopen⟩
  obtain ⟨code, hended⟩ := hfinish
  have hr₁ := run?_updateRun_self (f := Run.finish status) (fun _ h => h) hr
  have hr₂ : ((s.updateRun g (Run.finish status)).release g).run? g
      = some (r.finish status).release :=
    run?_updateRun_self (f := Run.release) (fun _ h => h) hr₁
  have hreleased : (r.finish status).release.vigil = .released code r.vigil.killed := by
    simp only [Run.release, hended, Vigil.release]
  exact ⟨_, .step (.step (.one (.finish hr hp status)) (.release hr₁ hended))
    (.report hr₂ hreleased)⟩

theorem work_conclude_course (hr : s.run? g = some r) (ha : r.Alike r')
    (hp : r.process.isSome = true) (hopen : r.vigil.isOpen = true) (status : ExitStatus) :
    ∃ later, Course s later ((s.updateRun g fun _ => r').conclude g status) := by
  have hr' : (s.updateRun g fun _ => r').run? g = some r' :=
    run?_updateRun_self (fun _ _ => ha.generation.trans (generation_of_run? hr)) hr
  have hopen' : r'.vigil.isOpen = true := by
    rw [ha.vigil]
    exact hopen
  obtain ⟨_, hcourse⟩ := conclude_course hr' (ha.process.trans hp) hopen' status
  exact ⟨_, (Course.one (.work hr ha)).append hcourse⟩

theorem advanceProcess_course {p : Process} (d : Disk) (hr : s.run? g = some r)
    (hp : r.process = some p) (hopen : r.vigil.isOpen = true) :
    ∃ later, Course s later (s.advanceProcess d r p).1 := by
  unfold advanceProcess
  have hfed := r.alike_feed p
  generalize r.feed p = fed at hfed
  rcases fed with ⟨r₁, p₁⟩
  dsimp only at hfed ⊢
  have hg : r₁.generation = g := hfed.generation.trans (generation_of_run? hr)
  subst hg
  -- Whatever the process does, the run stays the same but for what it takes in.
  have hworks : ∀ {r' : Run} (p' : Process), r.Alike r' →
      r.Alike { r' with process := some p' } := by
    intro r' p' ha
    exact ⟨ha.generation, ha.vigil, ha.line, by rw [hp]; rfl, ha.events⟩
  split
  . exact ⟨_, .one (.work hr (hworks p₁ hfed))⟩
  . have htaken := fun output errors => hfed.trans (r₁.alike_takeOutput output errors)
    split
    . next status _ =>
      have hsome : r.process.isSome = true := by rw [hp]; rfl
      exact work_conclude_course hr (htaken _ _) hsome hopen status
    . exact ⟨_, .one (.work hr (hworks _ (htaken _ _)))⟩
    . exact ⟨_, .one (.work hr (hworks _ (htaken _ _)))⟩

theorem Course.advanceRun (h : Course (.start search) es s) (d : Disk) (g : Nat) :
    ∃ later, Course s later (s.advanceRun d g).1 := by
  have hhear : Course s [.heard g] (s.updateRun g Run.hear) := .one (.hear g)
  have hbefore := h.append hhear
  unfold Processes.advanceRun
  dsimp only
  split
  . exact ⟨_, hhear⟩
  . next r hr =>
    split
    . exact ⟨_, hhear⟩
    . next p hp =>
      have hsome : r.process.isSome = true := by rw [hp]; rfl
      -- While there is a process, nobody was told of its end.
      have hopen := (hbefore.backed hr).alive hsome
      split
      . obtain ⟨later, hcourse⟩ := conclude_course hr hsome hopen .signal
        exact ⟨_, hhear.append hcourse⟩
      . obtain ⟨later, hcourse⟩ := advanceProcess_course d hr hp hopen
        exact ⟨_, hhear.append hcourse⟩

theorem Course.advanceAll (gs : List Nat) (h : Course (.start search) es s) (d : Disk) :
    ∃ later, Course s later (advanceAll gs s d).1 := by
  induction gs generalizing es s d with
  | nil => exact ⟨[], .nil⟩
  | cons g gs ih =>
    obtain ⟨first, hfirst⟩ := h.advanceRun d g
    obtain ⟨rest, hrest⟩ := ih (h.append hfirst) (s.advanceRun d g).2
    exact ⟨_, hfirst.append hrest⟩

theorem Course.next (h : Course (.start search) es s) (d : Disk) :
    ∃ later, Course s later (s.next d).2.2 := by
  obtain ⟨later, hcourse⟩ := h.advanceAll (s.runs.map Run.generation) d
  unfold Processes.next
  dsimp only
  split
  . next g e t hfound =>
    obtain ⟨r, _, hr⟩ := List.exists_of_findSome?_eq_some hfound
    rw [Option.map_eq_some_iff] at hr
    obtain ⟨⟨e', t'⟩, htake, heq⟩ := hr
    cases heq
    exact ⟨_, .step hcourse (.receive htake)⟩
  . exact ⟨later, hcourse⟩

/-- It was asked that the process of a run be killed, or it was killed. -/
def Doomed (es : List Deed) (s : Processes) (g : Nat) : Prop :=
  (∃ code, .reported g code true ∈ es)
    ∨ ∃ r, s.run? g = some r ∧ (r.line = .used ∨ r.vigil.killed = true)

theorem Course.stopped_of_doomed (h : Course (.start search) es s) (hg : Doomed es s g) :
    .stopped (some g) ∈ es := by
  rcases hg with ⟨code, hreported⟩ | ⟨r, hr, hused | hkilled⟩
  . exact (h.of_reported hreported).2 rfl
  . exact (h.backed hr).used hused
  . exact (h.backed hr).killed hkilled

/-- Wherever the runs have come to, the slot holds the run that was started last, or none. It lets a
run go when it is told of its end, at the latest before the end is reported, and nothing else but a
start or a stop changes it. A run that is not in the slot gets no choices, and no run is killed that
was not stopped while it was there. -/
theorem Course.slot_holds_newest_live_run (h : Course (.start search) es s) :
    (startedIn es).Pairwise (· > ·)
      ∧ (s.slot.current? = none ∨ s.slot.current? = (startedIn es).head?)
      ∧ (∀ g, s.slot.current? = some g → .released g ∉ es)
      ∧ ((∀ g ∈ startedIn es, .released g ∈ es) → s.slot.current? = none)
      ∧ (∀ g t, s.Moves (.released g) t →
          (s.slot.current? = some g → t.slot.current? = none)
            ∧ (s.slot.current? ≠ some g → t.slot = s.slot))
      ∧ (∀ g code killed, .received g (some (.exited code killed)) ∈ es →
          s.slot.current? ≠ some g)
      ∧ (∀ mode request d,
          (∀ e t, s.launch mode request d = (.error e, t) → t.slot = s.slot)
            ∧ ∀ g t, s.launch mode request d = (.ok g, t) → t.slot.current? = some g)
      ∧ (∀ g, Doomed es s g → StoppedInSlot search es g)
      ∧ (∀ g ∈ startedIn es, s.slot.current? ≠ some g →
          ∀ later t, Course s later t →
            (∀ index, .chosen (some g) index ∉ later)
              ∧ (.stopped (some g) ∉ es → ¬ Doomed (later ++ es) t g))
      ∧ ∀ d, ∃ later, Course s later (s.next d).2.2 := by
  refine ⟨h.startedIn_pairwise, ?_, fun g => h.not_released, ?_, ?_, ?_, ?_, ?_, ?_, h.next⟩
  . cases hcurrent : s.slot.current? with
    | none => exact .inl rfl
    | some g => exact .inr (h.head?_of_current? hcurrent).symm
  . intro hall
    cases hcurrent : s.slot.current? with
    | none => rfl
    | some g =>
      have hstarted := List.mem_of_head? (h.head?_of_current? hcurrent)
      exact absurd (hall g hstarted) (h.not_released hcurrent)
  . intro g t hm
    rw [hm.slot_eq]
    refine ⟨fun hg => ?_, fun hg => Slot.release_of_ne hg⟩
    simp only [Deed.slot, Slot.release_of_current? hg]
    rfl
  . intro g code killed hreceived hcurrent
    exact h.not_released hcurrent (h.of_reported (h.of_received hreceived)).1
  . intro mode request d
    refine ⟨fun e t he => by rw [launch_eq_error he], fun g t hg => ?_⟩
    rw [(Moves.start hg).slot_eq]
    rfl
  . intro g hg
    exact h.stoppedInSlot (h.stopped_of_doomed hg)
  . intro g hg hout later t hlater
    obtain ⟨_, hstopped, hchosen⟩ := h.stays_out hg hout hlater
    refine ⟨hchosen, fun hnever hdoomed => ?_⟩
    -- A run is stopped in the slot only, so a stop would have to be there before.
    rcases List.mem_append.mp ((h.append hlater).stopped_of_doomed hdoomed) with hmem | hmem
    . exact hstopped hmem
    . exact hnever hmem

end

def toolDisk : Disk :=
  ⟨[([bytesOf "i"], .file (Image.ofProgram "true") true)], []⟩

def toolRequest : RunRequest :=
  ⟨⟨"a.ink", "/i", none⟩, .ofString "/a.ink", .ofString "/a.ink"⟩

def oneRun : Processes :=
  ((start []).launch .play toolRequest toolDisk).2

def twoRuns : Processes :=
  (oneRun.launch .play toolRequest toolDisk).2

/-- The second of two runs is stopped and its end is reported, while the first one goes on. -/
theorem course_stopped :
    Course (.start [])
      [.reported 2 none true, .released 2, .ended 2 .signal, .heard 2, .stopped (some 2),
        .started 2 .play, .started 1 .play]
      ((twoRuns.stop.2.updateRun 2 Run.hear).conclude 2 .signal) := by
  have hfirst : ((start []).launch .play toolRequest toolDisk).1 = .ok 1 := by
    with_unfolding_all rfl
  have hsecond : (oneRun.launch .play toolRequest toolDisk).1 = .ok 2 := by
    with_unfolding_all rfl
  have hcurrent : twoRuns.slot.current? = some 2 := by decide +kernel
  have hprocess : ((twoRuns.stop.2.updateRun 2 Run.hear).run? 2).map (·.process.isSome)
      = some true := by decide +kernel
  have hvigil : ((twoRuns.stop.2.updateRun 2 Run.hear).run? 2).map Run.vigil
      = some (.awaiting true) := by decide +kernel
  rw [Option.map_eq_some_iff] at hprocess hvigil
  obtain ⟨r, hr, hp⟩ := hprocess
  obtain ⟨r', hr', hv⟩ := hvigil
  cases hr.symm.trans hr'
  have hstop : twoRuns.Moves (.stopped twoRuns.slot.current?) twoRuns.stop.2 := .stop
  rw [hcurrent] at hstop
  have hstopped : Course (.start []) [.stopped (some 2), .started 2 .play, .started 1 .play]
      twoRuns.stop.2 :=
    .step (.step (.one (.start (Prod.ext hfirst rfl))) (.start (Prod.ext hsecond rfl))) hstop
  have hended : (r.finish .signal).vigil = .ended none true := by
    simp only [Run.finish, hv, Vigil.finish]
  have hr₁ := run?_updateRun_self (f := Run.finish .signal) (fun _ h => h) hr
  have hr₂ := run?_updateRun_self (f := Run.release) (fun _ h => h) hr₁
  have hreleased : (r.finish .signal).release.vigil = .released none true := by
    simp only [Run.release, hended, Vigil.release]
  exact .step (.step (.step (.step hstopped (.hear 2)) (.finish hr hp .signal))
    (.release hr₁ hended)) (.report hr₂ hreleased)

theorem slot_holds_newest_live_run_stopped :
    ∃ es s, Course (.start []) es s
      ∧ startedIn es = [2, 1]
      ∧ Doomed es s 2
      ∧ StoppedInSlot [] es 2
      ∧ ∀ later t, Course s later t →
          (∀ index, .chosen (some 1) index ∉ later) ∧ ¬ Doomed (later ++ es) t 1 := by
  have h := course_stopped
  obtain ⟨_, _, _, _, _, _, _, hdoomed, hout, _⟩ := h.slot_holds_newest_live_run
  refine ⟨_, _, h, rfl, .inl ⟨none, List.mem_cons_self⟩, ?_, ?_⟩
  . exact hdoomed 2 (.inl ⟨none, List.mem_cons_self⟩)
  intro later t hlater
  have hempty : ((twoRuns.stop.2.updateRun 2 Run.hear).conclude 2 .signal).slot.current? = none := by
    decide +kernel
  obtain ⟨hchosen, hspared⟩ := hout 1 (by decide) (by rw [hempty]; simp) later t hlater
  exact ⟨hchosen, hspared (by simp)⟩

end Processes

end InkServer
