import InkServer.CommandLine
import InkServer.Proofs.Session.Stage

/-!
This module contains the conduct of a session: it handles messages one at a time, and in between it
reads, goes on with its jobs and delivers the results of runs. Its terms come from the messages that
it handled, and so does its end.
-/

namespace InkServer

namespace Session

variable {σ : Type} {m : Machine σ} {s s' s'' : Session σ}

/-- What was agreed on, the end of the session and the jobs that are under way stay the same. -/
structure Keeps (s s' : Session σ) : Prop where
  terms : s'.terms = s.terms
  final : s'.final = s.final
  handler : s'.handler = s.handler
  beside : s'.beside = s.beside

theorem Keeps.refl (s : Session σ) : Keeps s s :=
  ⟨rfl, rfl, rfl, rfl⟩

theorem Keeps.trans (h : Keeps s s') (h' : Keeps s' s'') : Keeps s s'' :=
  ⟨h'.terms.trans h.terms, h'.final.trans h.final, h'.handler.trans h.handler,
    h'.beside.trans h.beside⟩

def Posed.session {q : Query} : Posed σ q → Session σ
  | answered _ s => s
  | waiting _ s => s

/-- A job goes on: nothing but the state of the server, the machine and the requests to the editor
changes. -/
def Works (s s' : Session σ) : Prop :=
  ∃ world machine pending, s' = { s with world, machine, pending }

theorem Works.refl (s : Session σ) : Works s s :=
  ⟨_, _, _, rfl⟩

theorem Works.trans (h : Works s s') (h' : Works s' s'') : Works s s'' := by
  obtain ⟨_, _, _, rfl⟩ := h
  obtain ⟨_, _, _, rfl⟩ := h'
  exact ⟨_, _, _, rfl⟩

theorem Works.keeps (h : Works s s') : Keeps s s' := by
  obtain ⟨_, _, _, rfl⟩ := h
  exact ⟨rfl, rfl, rfl, rfl⟩

theorem Works.queue (h : Works s s') : s'.queue = s.queue := by
  obtain ⟨_, _, _, rfl⟩ := h
  rfl

theorem Works.postings (h : Works s s') : s'.postings = s.postings := by
  obtain ⟨_, _, _, rfl⟩ := h
  rfl

/-- Results of runs are told: nothing but the state of the server, the machine and the messages that
are being made changes. -/
def Tells (s s' : Session σ) : Prop :=
  ∃ world machine postings, s' = { s with world, machine, postings }

theorem Tells.refl (s : Session σ) : Tells s s :=
  ⟨_, _, _, rfl⟩

theorem Tells.trans (h : Tells s s') (h' : Tells s' s'') : Tells s s'' := by
  obtain ⟨_, _, _, rfl⟩ := h
  obtain ⟨_, _, _, rfl⟩ := h'
  exact ⟨_, _, _, rfl⟩

theorem Tells.keeps (h : Tells s s') : Keeps s s' := by
  obtain ⟨_, _, _, rfl⟩ := h
  exact ⟨rfl, rfl, rfl, rfl⟩

theorem Tells.queue (h : Tells s s') : s'.queue = s.queue := by
  obtain ⟨_, _, _, rfl⟩ := h
  rfl

theorem works_poseRequest (s : Session σ) (q : Query) (refused : q.Answer) (method : String)
    (params : Json) : Works s (s.poseRequest q refused method params).session := by
  unfold poseRequest
  dsimp only
  split
  . exact ⟨_, _, _, rfl⟩
  . exact ⟨_, _, _, rfl⟩

theorem works_pose (m : Machine σ) (s : Session σ) (q : Query) : Works s (pose m s q).session := by
  cases q with
  | folders =>
    rw [pose]
    split
    . apply works_poseRequest
    . exact .refl s
  | settings scope =>
    rw [pose]
    split
    . apply works_poseRequest
    . exact .refl s
  | register params => apply works_poseRequest
  | checkTool settings => exact ⟨_, _, _, rfl⟩
  | start mode request => exact ⟨_, _, _, rfl⟩
  | submit index => exact ⟨_, _, _, rfl⟩
  | stop => exact ⟨_, _, _, rfl⟩
  | rest => exact .refl s
  | settled seen => exact .refl s

theorem works_advance (m : Machine σ) (t : Step (Option Json)) (s : Session σ) :
    Works s (advance m t s).1 := by
  induction t generalizing s with
  | done w frame => exact ⟨_, _, _, rfl⟩
  | ask w q k ih =>
    have hworld : Works s { s with world := w } := ⟨_, _, _, rfl⟩
    have hposed := hworld.trans (works_pose m { s with world := w } q)
    rw [advance]
    split
    . next a s' heq =>
      rw [heq] at hposed
      exact hposed.trans (ih a s'.world s')
    . next request s' heq =>
      rw [heq] at hposed
      exact hposed

theorem works_answer? {q : Query} {request : Nat} {a : q.Answer}
    (h : s.answer? request q = some (a, s')) : Works s s' := by
  cases q with
  | folders | settings | register =>
    simp only [answer?, result?, Option.map_map, Option.map_eq_some_iff] at h
    obtain ⟨completion, _, heq⟩ := h
    rw [← (Prod.mk.inj heq).2]
    exact ⟨_, _, _, rfl⟩
  | rest =>
    rw [← (Prod.mk.inj (Option.some.inj h)).2]
    exact .refl s
  | settled seen =>
    rw [answer?] at h
    split at h
    . rw [← (Prod.mk.inj (Option.some.inj h)).2]
      exact .refl s
    . cases h
  | checkTool | start | submit | stop => cases h

theorem works_resume (m : Machine σ) (b : Blocked) (s : Session σ) : Works s (resume m b s).1 := by
  rw [resume]
  split
  . next a s' heq => exact (works_answer? heq).trans (works_advance m _ s')
  . exact .refl s

theorem tells_post (ps : List Posting) (s : Session σ) : Tells s (post ps s) := by
  induction ps generalizing s with
  | nil => exact .refl s
  | cons p ps ih =>
    rw [post]
    exact Tells.trans ⟨_, _, _, rfl⟩ (ih _)

theorem tells_deliver (m : Machine σ) (fuel : Nat) (s : Session σ) : Tells s (deliver m fuel s) := by
  induction fuel generalizing s with
  | zero => exact .refl s
  | succ fuel ih =>
    rw [deliver]
    dsimp only
    split
    . exact ⟨_, _, _, rfl⟩
    . exact Tells.trans ⟨_, _, _, rfl⟩ (ih _)
    . exact Tells.trans ⟨_, _, _, rfl⟩ ((tells_post _ _).trans (ih _))

theorem keeps_take (s : Session σ) (frame : Json) : Keeps s (s.take frame) := by
  unfold take
  split
  . exact ⟨rfl, rfl, rfl, rfl⟩
  . exact ⟨rfl, rfl, rfl, rfl⟩
  . split
    . exact ⟨rfl, rfl, rfl, rfl⟩
    . exact .refl s

theorem keeps_read (fuel : Nat) (s : Session σ) : Keeps s (read fuel s) := by
  induction fuel generalizing s with
  | zero => exact .refl s
  | succ fuel ih =>
    rw [read]
    split
    . next body rest heq =>
      have h := keeps_take { s with input := rest } body
      refine Keeps.trans ?_ (ih _)
      exact ⟨h.terms, h.final, h.handler, h.beside⟩
    . exact .refl s
    . exact ⟨rfl, rfl, rfl, rfl⟩
    . exact ⟨rfl, rfl, rfl, rfl⟩

theorem keeps_receive (s : Session σ) (bytes : Text.Bytes) : Keeps s (s.receive bytes) := by
  unfold receive
  split
  . exact .refl s
  . exact ⟨rfl, rfl, rfl, rfl⟩

/-- The session goes on without a new message. -/
inductive Moves (m : Machine σ) (s : Session σ) : Session σ → Prop where
  | receive (bytes : Text.Bytes) : Moves m s (s.receive bytes)
  | close : Moves m s s.close
  | read (fuel : Nat) : Moves m s (s.read fuel)
  | enqueue (queue : List Incoming) : Moves m s { s with queue }
  /-- The message that is being handled is gone on with. -/
  | resume {b : Blocked} (h : s.handler = some b) :
    Moves m s { (resume m b s).1 with handler := (resume m b s).2 }
  | workBeside : Moves m s (workBeside m s.beside { s with beside := [] })
  | post : Moves m s (post (s.postings.map Posting.elapse) { s with postings := [] })
  | deliver (fuel : Nat) : Moves m s (deliver m fuel s)
  | tick : Moves m s { s with clock := s.clock + 1, machine := m.tick s.machine }

/-- What was agreed on and the end of the session stay the same, and no job is begun. -/
structure Continues (s s' : Session σ) : Prop where
  terms : s'.terms = s.terms
  final : s'.final = s.final
  handler : s.handler = none → s'.handler = none
  beside : s'.beside.length ≤ s.beside.length

theorem Keeps.continues (h : Keeps s s') : Continues s s' where
  terms := h.terms
  final := h.final
  handler hidle := by rw [h.handler, hidle]
  beside := Nat.le_of_eq (by rw [h.beside])

theorem workBeside_keeps (m : Machine σ) (bs : List Blocked) (s : Session σ) :
    (workBeside m bs s).terms = s.terms
      ∧ (workBeside m bs s).final = s.final
      ∧ (workBeside m bs s).handler = s.handler
      ∧ (workBeside m bs s).beside.length ≤ s.beside.length + bs.length := by
  induction bs generalizing s with
  | nil => simp [workBeside]
  | cons b bs ih =>
    have h := (works_resume m b s).keeps
    obtain ⟨hterms, hfinal, hhandler, hbeside⟩ :=
      ih { (resume m b s).1 with beside := (resume m b s).1.beside ++ (resume m b s).2.toList }
    refine ⟨hterms.trans h.terms, hfinal.trans h.final, hhandler.trans h.handler, ?_⟩
    have hone : (resume m b s).2.toList.length ≤ 1 := by
      cases (resume m b s).2 with
      | none => simp
      | some b => simp
    apply Nat.le_trans hbeside
    simp only [List.length_append, List.length_cons, h.beside]
    omega

theorem Moves.continues (h : s.Moves m s') : Continues s s' := by
  cases h with
  | receive bytes => exact (keeps_receive s bytes).continues
  | close => exact Keeps.continues ⟨rfl, rfl, rfl, rfl⟩
  | read fuel => exact (keeps_read fuel s).continues
  | enqueue queue => exact Keeps.continues ⟨rfl, rfl, rfl, rfl⟩
  | @resume b hhandler =>
    have h := (works_resume m b s).keeps
    refine ⟨h.terms, h.final, ?_, ?_⟩
    . intro hidle
      rw [hidle] at hhandler
      cases hhandler
    . exact Nat.le_of_eq (congrArg List.length h.beside)
  | workBeside =>
    obtain ⟨hterms, hfinal, hhandler, hbeside⟩ := workBeside_keeps m s.beside { s with beside := [] }
    refine ⟨hterms, hfinal, fun hidle => hhandler.trans hidle, ?_⟩
    simpa using hbeside
  | post =>
    have h := (tells_post (s.postings.map Posting.elapse) { s with postings := [] }).keeps
    exact Keeps.continues ⟨h.terms, h.final, h.handler, h.beside⟩
  | deliver fuel => exact (tells_deliver m fuel s).keeps.continues
  | tick => exact Keeps.continues ⟨rfl, rfl, rfl, rfl⟩

/-- From the state `s₀` on the session handled the given messages, in this order. -/
inductive Conduct (m : Machine σ) (s₀ : Session σ) : List Incoming → Session σ → Prop where
  | start : Conduct m s₀ [] s₀
  | move {messages : List Incoming} {s s' : Session σ} (h : Conduct m s₀ messages s)
    (hmove : s.Moves m s') : Conduct m s₀ messages s'
  /-- A message is handled when the one before it has been. -/
  | handle {messages : List Incoming} {s : Session σ} (h : Conduct m s₀ messages s)
    (hfinal : s.final = none) (hidle : s.handler = none) (message : Incoming) :
    Conduct m s₀ (messages ++ [message]) (s.handle m message)
  /-- Nothing more can be read. -/
  | finish {messages : List Incoming} {s : Session σ} (h : Conduct m s₀ messages s)
    (hfinal : s.final = none) (hidle : s.handler = none) (hdeaf : s.deaf = true) :
    Conduct m s₀ messages (s.finish m .inputClosed)

namespace Conduct

variable {s₀ : Session σ} {messages : List Incoming}

theorem stays (h : Conduct m s₀ messages s) : ∃ handled, Conduct m s₀ (messages ++ handled) s :=
  ⟨[], by rwa [List.append_nil]⟩

theorem handleAll (h : Conduct m s₀ messages s) (hfinal : s.final = none) (hidle : s.handler = none)
    (queue : List Incoming) :
    ∃ handled, Conduct m s₀ (messages ++ handled) (handleAll m queue s) := by
  induction queue generalizing messages s with
  | nil =>
    refine ⟨[], ?_⟩
    have hempty := h.move (.enqueue [])
    rw [List.append_nil, Session.handleAll]
    split
    . next hdeaf => exact hempty.finish hfinal hidle hdeaf
    . exact hempty
  | cons message queue ih =>
    have hhandled := (h.move (.enqueue queue)).handle hfinal hidle message
    rw [Session.handleAll]
    split
    . exact ⟨[message], hhandled⟩
    . next hgoing =>
      rw [Bool.or_eq_true, not_or] at hgoing
      obtain ⟨handled, h⟩ := ih hhandled (by simpa using hgoing.1) (by simpa using hgoing.2)
      exact ⟨message :: handled, by simpa using h⟩

theorem work (h : Conduct m s₀ messages s) :
    ∃ handled, Conduct m s₀ (messages ++ handled) (s.work m) := by
  rw [Session.work]
  split
  . exact h.stays
  . next hgoing =>
    have hfinal : s.final = none := by simpa using hgoing
    split
    . next hidle => exact h.handleAll hfinal hidle s.queue
    . next b hhandler =>
      have hresumed := h.move (.resume hhandler)
      have hkept := (works_resume m b s).keeps
      split
      . next s' b' heq =>
        rw [heq] at hresumed
        exact hresumed.stays
      . next s' heq =>
        rw [heq] at hresumed hkept
        exact hresumed.handleAll (hkept.final.trans hfinal) rfl s'.queue

theorem turn (h : Conduct m s₀ messages s) :
    ∃ handled, Conduct m s₀ (messages ++ handled) (s.turn m) := by
  obtain ⟨handled, hwork⟩ := (h.move .post).work
  exact ⟨handled, (hwork.move .workBeside).move (.deliver deliveryLimit)⟩

theorem turns (h : Conduct m s₀ messages s) (fuel : Nat) :
    ∃ handled, Conduct m s₀ (messages ++ handled) (Session.turns m fuel s) := by
  induction fuel generalizing messages s with
  | zero => exact h.stays
  | succ fuel ih =>
    rw [Session.turns]
    split
    . exact h.stays
    . obtain ⟨first, hturn⟩ := h.turn
      obtain ⟨handled, hturns⟩ := ih hturn
      exact ⟨first ++ handled, by simpa using hturns⟩

theorem settle (h : Conduct m s₀ messages s) :
    ∃ handled, Conduct m s₀ (messages ++ handled) (s.settle m) := by
  rw [Session.settle]
  split
  . exact h.turns turnLimit
  . exact (h.move (.read _)).turns turnLimit

theorem tick (h : Conduct m s₀ messages s) :
    ∃ handled, Conduct m s₀ (messages ++ handled) (s.tick m) :=
  ((h.move .tick).move (.deliver deliveryLimit)).turns turnLimit

theorem awaitEnd {s₀ s : Session Processes} (h : Conduct Processes.machine s₀ messages s) (fuel : Nat) :
    ∃ handled, Conduct Processes.machine s₀ (messages ++ handled) (CommandLine.awaitEnd fuel s) := by
  induction fuel generalizing messages s with
  | zero => exact h.stays
  | succ fuel ih =>
    rw [CommandLine.awaitEnd]
    split
    . exact h.stays
    . obtain ⟨first, htick⟩ := h.tick
      obtain ⟨handled, hend⟩ := ih htick
      exact ⟨first ++ handled, by simpa using hend⟩

/-- What the program does with its input is such a conduct. -/
theorem commandLine (env : Environment) (d : Disk) (bytes : Text.Bytes) :
    ∃ handled, Conduct Processes.machine (CommandLine.start env d) handled
      (CommandLine.close (CommandLine.receive (CommandLine.start env d) bytes)) := by
  have hstart : Conduct Processes.machine (CommandLine.start env d) [] (CommandLine.start env d) :=
    .start
  obtain ⟨first, hreceived⟩ := (hstart.move (.receive bytes)).settle
  obtain ⟨second, hclosed⟩ := (hreceived.move .close).settle
  obtain ⟨third, hend⟩ := hclosed.awaitEnd CommandLine.endLimit
  exact ⟨_, hend⟩

end Conduct

end Session

end InkServer
