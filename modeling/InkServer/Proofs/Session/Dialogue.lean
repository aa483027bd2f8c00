import InkServer.Proofs.Session.LifeCycle
import InkServer.Proofs.Session.Reaction

/-!
This module contains the dialogue of a session with an editor: frames are read one after the other,
messages are handled in the order in which they were read, and jobs go on in between.
-/

namespace InkServer

/-- The state after a query was posed, with the request to the editor, if it is one: its id, its
method and its parameters. -/
def World.asking (w : World) (disk : Disk) (request : Option (Nat × String × Json)) : World :=
  { w with
    disk
    trace := w.trace
      ++ request.toList.map fun (id, method, params) => .send (requestJson id method (some params)) }

namespace Session

variable {σ : Type} {m : Machine σ} {s s' s₀ : Session σ} {frames : List Json}

theorem handle_queue (m : Machine σ) (s : Session σ) (message : Incoming) :
    (s.handle m message).queue = if message.isExit then [] else s.queue := by
  cases hexit : message.isExit with
  | true =>
    rw [handle, Terms.react_of_isExit hexit]
    rfl
  | false =>
    have hreaction := Terms.react_ne_finish (t := s.terms) hexit
    unfold handle
    generalize s.terms.react message = reacted at hreaction
    rcases reacted with ⟨terms, reaction⟩
    cases reaction with
    | answer id job => exact (works_advance m _ { s with terms }).queue
    | work job beside => exact (works_advance m _ { s with terms }).queue
    | finish final => exact absurd rfl (hreaction final)

theorem take_deaf (s : Session σ) (frame : Json) : (s.take frame).deaf = s.deaf := by
  unfold take
  split
  . rfl
  . rfl
  . split
    . rfl
    . rfl

/-- To pose a query changes the state of the server by nothing but the disk and a request. -/
theorem pose_world (m : Machine σ) (s : Session σ) (q : Query) :
    ∃ disk request, (pose m s q).session.world = s.world.asking disk request := by
  have hnone : ∀ disk, ∃ disk' request, { s.world with disk } = s.world.asking disk' request :=
    fun disk => ⟨disk, none, by simp [World.asking]⟩
  have hrequest : ∀ (q : Query) (refused : q.Answer) (method : String) (params : Json),
      ∃ disk request,
        (s.poseRequest q refused method params).session.world = s.world.asking disk request := by
    intro q refused method params
    unfold poseRequest
    dsimp only
    split
    . exact hnone s.world.disk
    . exact ⟨s.world.disk, some (_, method, params), rfl⟩
  cases q with
  | folders =>
    rw [pose]
    split
    . apply hrequest
    . exact hnone s.world.disk
  | settings scope =>
    rw [pose]
    split
    . apply hrequest
    . exact hnone s.world.disk
  | register params => apply hrequest
  | _ => exact hnone _

theorem world_answer? {q : Query} {request : Nat} {a : q.Answer}
    (h : s.answer? request q = some (a, s')) : s'.world = s.world := by
  cases q with
  | folders | settings | register =>
    simp only [answer?, result?, Option.map_map, Option.map_eq_some_iff] at h
    obtain ⟨completion, _, heq⟩ := h
    rw [← (Prod.mk.inj heq).2]
  | rest => rw [← (Prod.mk.inj (Option.some.inj h)).2]
  | settled seen =>
    rw [answer?] at h
    split at h
    . rw [← (Prod.mk.inj (Option.some.inj h)).2]
    . cases h
  | checkTool | start | submit | stop => cases h

/-- From the state `s₀` on the session read the given frames, in this order. -/
inductive Dialogue (m : Machine σ) (s₀ : Session σ) : List Json → Session σ → Prop where
  | start : Dialogue m s₀ [] s₀
  | receive {frames : List Json} {s : Session σ} (h : Dialogue m s₀ frames s) (bytes : Text.Bytes) :
    Dialogue m s₀ frames (s.receive bytes)
  | close {frames : List Json} {s : Session σ} (h : Dialogue m s₀ frames s) :
    Dialogue m s₀ frames s.close
  /-- The next frame is read. -/
  | take {frames : List Json} {s : Session σ} {body : Json} {rest : Text.Bytes}
    (h : Dialogue m s₀ frames s) (hfinal : s.final = none) (hdeaf : s.deaf = false)
    (hread : readFrame s.closed s.input = .frame body rest) :
    Dialogue m s₀ (frames ++ [body]) ({ s with input := rest }.take body)
  /-- The input is at its end, or the next frame cannot be read. -/
  | deafen {frames : List Json} {s : Session σ} (h : Dialogue m s₀ frames s)
    (hread : readFrame s.closed s.input = .ended ∨ ∃ e, readFrame s.closed s.input = .error e) :
    Dialogue m s₀ frames { s with input := [], deaf := true }
  /-- The first message that was not yet handled is. -/
  | handle {frames : List Json} {s : Session σ} {message : Incoming} {rest : List Incoming}
    (h : Dialogue m s₀ frames s) (hfinal : s.final = none) (hidle : s.handler = none)
    (hqueue : s.queue = message :: rest) :
    Dialogue m s₀ frames ({ s with queue := rest }.handle m message)
  /-- All messages were handled and there will be no more. -/
  | finish {frames : List Json} {s : Session σ} (h : Dialogue m s₀ frames s) (hfinal : s.final = none)
    (hidle : s.handler = none) (hqueue : s.queue = []) (hdeaf : s.deaf = true) :
    Dialogue m s₀ frames (s.finish m .inputClosed)
  /-- The message that is being handled is gone on with. -/
  | resume {frames : List Json} {s : Session σ} {b : Blocked} (h : Dialogue m s₀ frames s)
    (hfinal : s.final = none) (hhandler : s.handler = some b) :
    Dialogue m s₀ frames { (resume m b s).1 with handler := (resume m b s).2 }
  | workBeside {frames : List Json} {s : Session σ} (h : Dialogue m s₀ frames s) :
    Dialogue m s₀ frames (workBeside m s.beside { s with beside := [] })
  | post {frames : List Json} {s : Session σ} (h : Dialogue m s₀ frames s) :
    Dialogue m s₀ frames (post (s.postings.map Posting.elapse) { s with postings := [] })
  | deliver {frames : List Json} {s : Session σ} (h : Dialogue m s₀ frames s) (fuel : Nat) :
    Dialogue m s₀ frames (deliver m fuel s)
  | tick {frames : List Json} {s : Session σ} (h : Dialogue m s₀ frames s) :
    Dialogue m s₀ frames { s with clock := s.clock + 1, machine := m.tick s.machine }

namespace Dialogue

theorem handleAll (h : Dialogue m s₀ frames s) (hfinal : s.final = none) (hidle : s.handler = none)
    {queue : List Incoming} (hqueue : s.queue = queue) :
    Dialogue m s₀ frames (handleAll m queue s) := by
  induction queue generalizing s with
  | nil =>
    have hsame : { s with queue := [] } = s := by rw [← hqueue]
    rw [Session.handleAll, hsame]
    split
    . next hdeaf => exact h.finish hfinal hidle hqueue hdeaf
    . exact h
  | cons message queue ih =>
    have hhandled := h.handle hfinal hidle hqueue
    have hend := handle_final m { s with queue } message
    have hrest := handle_queue m { s with queue } message
    rw [Session.handleAll]
    split
    . exact hhandled
    . next hgoing =>
      rw [Bool.or_eq_true, not_or] at hgoing
      have hexit : message.isExit = false := by
        rw [Bool.eq_false_iff]
        intro hexit
        rw [hend, if_pos hexit] at hgoing
        exact hgoing.1 rfl
      rw [hexit] at hrest
      exact ih hhandled (by simpa using hgoing.1) (by simpa using hgoing.2) hrest

theorem work (h : Dialogue m s₀ frames s) : Dialogue m s₀ frames (s.work m) := by
  rw [Session.work]
  split
  . exact h
  . next hgoing =>
    have hfinal : s.final = none := by simpa using hgoing
    split
    . next hidle => exact h.handleAll hfinal hidle rfl
    . next b hhandler =>
      have hresumed := h.resume hfinal hhandler
      have hworks := works_resume m b s
      split
      . next s' b' heq =>
        rw [heq] at hresumed
        exact hresumed
      . next s' heq =>
        rw [heq] at hresumed hworks
        exact hresumed.handleAll (hworks.keeps.final.trans hfinal) rfl rfl

theorem turn (h : Dialogue m s₀ frames s) : Dialogue m s₀ frames (s.turn m) :=
  (h.post.work.workBeside).deliver deliveryLimit

theorem turns (h : Dialogue m s₀ frames s) (fuel : Nat) :
    Dialogue m s₀ frames (Session.turns m fuel s) := by
  induction fuel generalizing s with
  | zero => exact h
  | succ fuel ih =>
    rw [Session.turns]
    split
    . exact h
    . exact ih h.turn

theorem read (h : Dialogue m s₀ frames s) (hfinal : s.final = none) (hdeaf : s.deaf = false)
    (fuel : Nat) : ∃ more, Dialogue m s₀ (frames ++ more) (s.read fuel) := by
  have hnone : ∃ more, Dialogue m s₀ (frames ++ more) s := ⟨[], by rwa [List.append_nil]⟩
  induction fuel generalizing frames s with
  | zero => exact hnone
  | succ fuel ih =>
    rw [Session.read]
    split
    . next body rest hread =>
      have htaken := h.take hfinal hdeaf hread
      have hkept := keeps_take { s with input := rest } body
      obtain ⟨more, hmore⟩ := ih htaken (hkept.final.trans hfinal)
        ((take_deaf { s with input := rest } body).trans hdeaf) ⟨[], by rwa [List.append_nil]⟩
      exact ⟨body :: more, by rwa [List.append_assoc] at hmore⟩
    . exact hnone
    . next hread => exact ⟨[], by rw [List.append_nil]; exact h.deafen (.inl hread)⟩
    . next e hread => exact ⟨[], by rw [List.append_nil]; exact h.deafen (.inr ⟨e, hread⟩)⟩

theorem settle (h : Dialogue m s₀ frames s) :
    ∃ more, Dialogue m s₀ (frames ++ more) (s.settle m) := by
  rw [Session.settle]
  split
  . exact ⟨[], by rw [List.append_nil]; exact h.turns turnLimit⟩
  . next hreads =>
    rw [not_or] at hreads
    obtain ⟨more, hmore⟩ := h.read (by simpa using hreads.2) (by simpa using hreads.1)
      (s.input.length + 1)
    exact ⟨more, hmore.turns turnLimit⟩

theorem passTick (h : Dialogue m s₀ frames s) : Dialogue m s₀ frames (s.tick m) :=
  (h.tick.deliver deliveryLimit).turns turnLimit

theorem pass (h : Dialogue m s₀ frames s) (n : Nat) : Dialogue m s₀ frames (s.pass m n) := by
  induction n generalizing s with
  | zero => exact h
  | succ n ih => exact ih h.passTick

/-- What the program does with its input is such a dialogue. -/
theorem commandLine (env : Environment) (d : Disk) (bytes : Text.Bytes) :
    ∃ frames, Dialogue Processes.machine (CommandLine.start env d) frames
      (CommandLine.close (CommandLine.receive (CommandLine.start env d) bytes)) := by
  have hawait : ∀ (fuel : Nat) {frames : List Json} {s : Session Processes},
      Dialogue Processes.machine (CommandLine.start env d) frames s →
      Dialogue Processes.machine (CommandLine.start env d) frames (CommandLine.awaitEnd fuel s) := by
    intro fuel
    induction fuel with
    | zero => exact id
    | succ fuel ih =>
      intro frames s h
      rw [CommandLine.awaitEnd]
      split
      . exact h
      . exact ih h.passTick
  have hstart : Dialogue Processes.machine (CommandLine.start env d) [] (CommandLine.start env d) :=
    .start
  obtain ⟨first, hreceived⟩ := (hstart.receive bytes).settle
  obtain ⟨second, hclosed⟩ := hreceived.close.settle
  exact ⟨_, hawait CommandLine.endLimit hclosed⟩

end Dialogue

end Session

end InkServer
