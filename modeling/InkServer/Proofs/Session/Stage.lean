import InkServer.Proofs.Job.Course
import InkServer.Session.Terms

/-!
This module contains how far a session has come after given messages: its first opening that can be
read and the first request for a shutdown after it decide.
-/

namespace InkServer

namespace Incoming

/-- The parameters of an opening that can be read. -/
def opening? : Incoming → Option InitializeParams
  | request _ method params =>
    if method = "initialize" then InitializeParams.ofJson? params else none
  | _ => none

/-- The message asks for a shutdown. -/
def isShutdown : Incoming → Bool
  | request _ method _ => method = "shutdown"
  | _ => false

def isExit : Incoming → Bool
  | notice method _ => method = "exit"
  | _ => false

end Incoming

namespace Terms

variable {t : Terms} {watchFiles : Bool}

/-- The terms after messages. -/
def after : List Incoming → Terms
  | [] => .start
  | message :: messages =>
    match message.opening? with
    | none => after messages
    | some p =>
      if messages.any Incoming.isShutdown then ⟨.shuttingDown, p.capabilities⟩
      else ⟨.running p.capabilities.watchFiles, p.capabilities⟩

theorem react_uninitialized (h : t.stage = .uninitialized) (message : Incoming) :
    (t.react message).1
      =
    match message.opening? with
    | some p => ⟨.running p.capabilities.watchFiles, p.capabilities⟩
    | none => t := by
  cases message with
  | reply id body => rfl
  | request id method params =>
    simp only [react, request, h, Incoming.opening?]
    split
    . rw [firstRequest]
      cases InitializeParams.ofJson? params with
      | none => rfl
      | some p => rfl
    . rfl
  | notice method params =>
    simp only [react, h, Incoming.opening?]
    split
    . rfl
    . rfl

theorem react_running (h : t.stage = .running watchFiles) (message : Incoming) :
    (t.react message).1 = if message.isShutdown then { t with stage := .shuttingDown } else t := by
  cases message with
  | reply id body => rfl
  | request id method params =>
    simp only [react, request, h, Incoming.isShutdown]
    split
    . next hmethod => simp [hmethod]
    . split
      . next hmethod => simp [hmethod]
      . next hmethod =>
        simp only [hmethod, decide_false, Bool.false_eq_true, if_false]
        split
        . rfl
        . rfl
  | notice method params =>
    simp only [react, h, Incoming.isShutdown]
    split
    . rfl
    . rfl

theorem react_shuttingDown (h : t.stage = .shuttingDown) (message : Incoming) :
    (t.react message).1 = t := by
  cases message with
  | reply id body => rfl
  | request id method params =>
    simp only [react, request, h]
    split
    . rfl
    . rfl
  | notice method params =>
    simp only [react, h]
    split
    . rfl
    . rfl

/-- A session that is not open after a message was not open before, and the message did not open it. -/
theorem of_react_uninitialized {message : Incoming} (h : (t.react message).1.stage = .uninitialized) :
    t.stage = .uninitialized ∧ message.opening? = none := by
  cases hstage : t.stage with
  | uninitialized =>
    rw [react_uninitialized hstage] at h
    cases hopening : message.opening? with
    | none => exact ⟨rfl, rfl⟩
    | some p => simp [hopening] at h
  | running watchFiles =>
    rw [react_running hstage] at h
    split at h
    . simp at h
    . simp [hstage] at h
  | shuttingDown =>
    rw [react_shuttingDown hstage, hstage] at h
    cases h

/-- One more message changes the terms as the session does. -/
theorem after_concat (messages : List Incoming) (message : Incoming) :
    after (messages ++ [message]) = ((after messages).react message).1 := by
  induction messages with
  | nil =>
    rw [after, react_uninitialized rfl, List.nil_append, after]
    cases message.opening? with
    | none => rfl
    | some p => rfl
  | cons first messages ih =>
    rw [List.cons_append, after, after]
    cases first.opening? with
    | none => exact ih
    | some p =>
      simp only [List.any_append, List.any_cons, List.any_nil, Bool.or_false]
      cases hany : messages.any Incoming.isShutdown with
      | true => simp [react_shuttingDown]
      | false =>
        simp only [Bool.false_or, Bool.false_eq_true, if_false]
        rw [react_running rfl]

/-- The session is shutting down if a shutdown was asked for after an opening. -/
theorem after_shuttingDown_iff (messages : List Incoming) :
    (after messages).stage = .shuttingDown
      ↔
    ∃ before opening between shutdown later,
      messages = before ++ opening :: (between ++ shutdown :: later)
        ∧ opening.opening?.isSome ∧ shutdown.isShutdown := by
  induction messages with
  | nil => simp [after, start]
  | cons first messages ih =>
    rw [after]
    cases hfirst : first.opening? with
    | none =>
      rw [ih]
      constructor
      . rintro ⟨before, opening, between, shutdown, later, rfl, hopening⟩
        exact ⟨first :: before, opening, between, shutdown, later, rfl, hopening⟩
      . rintro ⟨before, opening, between, shutdown, later, heq, hopening⟩
        cases before with
        | nil =>
          obtain ⟨rfl, -⟩ := List.cons.inj heq
          simp [hfirst] at hopening
        | cons _ before =>
          exact ⟨before, opening, between, shutdown, later, (List.cons.inj heq).2, hopening⟩
    | some p =>
      have hstage : (if messages.any Incoming.isShutdown then Terms.mk .shuttingDown p.capabilities
          else ⟨.running p.capabilities.watchFiles, p.capabilities⟩).stage = .shuttingDown
          ↔ ∃ shutdown ∈ messages, shutdown.isShutdown := by
        rw [← List.any_eq_true]
        split
        . next hany => simp [hany]
        . next hany => simp [hany]
      rw [hstage]
      constructor
      . rintro ⟨shutdown, hmem, hshutdown⟩
        obtain ⟨between, later, heq⟩ := List.append_of_mem hmem
        exact ⟨[], first, between, shutdown, later, by rw [heq]; rfl, by simp [hfirst], hshutdown⟩
      . rintro ⟨before, opening, between, shutdown, later, heq, -, hshutdown⟩
        refine ⟨shutdown, ?_, hshutdown⟩
        cases before with
        | nil => simp [(List.cons.inj heq).2]
        | cons _ before => simp [(List.cons.inj heq).2]

theorem react_of_isExit {message : Incoming} (h : message.isExit) :
    t.react message = (t, .finish (.exit (t.stage = .shuttingDown))) := by
  cases message with
  | reply id body => cases h
  | request id method params => cases h
  | notice method params =>
    have hmethod : method = "exit" := by simpa [Incoming.isExit] using h
    simp only [react, if_pos hmethod]

theorem notice_ne_finish (watchFiles : Bool) (method : String) (params : Json) (final : SessionEnd) :
    notice watchFiles method params ≠ .finish final := by
  unfold notice
  repeat
    split
    . simp
  simp

theorem react_ne_finish {message : Incoming} (h : message.isExit = false) (final : SessionEnd) :
    (t.react message).2 ≠ .finish final := by
  cases message with
  | reply id body => simp [react]
  | request id method params => simp [react]
  | notice method params =>
    have hmethod : method ≠ "exit" := by simpa [Incoming.isExit] using h
    simp only [react, if_neg hmethod]
    split
    . apply notice_ne_finish
    . simp

/-- An opening that cannot be read is refused at every stage. -/
theorem request_unreadable {params : Json} (h : InitializeParams.ofJson? params = none) :
    ∃ r text, t.request "initialize" params = (t, pure (.refuse r text)) := by
  unfold request
  split
  . rw [if_pos rfl, firstRequest, h]
    exact ⟨_, _, rfl⟩
  . rw [if_pos rfl]
    exact ⟨_, _, rfl⟩
  . rw [if_pos rfl]
    exact ⟨_, _, rfl⟩

/-- Outside a running session every request but the opening is refused. -/
theorem request_refused (h : ∀ watchFiles, t.stage ≠ .running watchFiles) {method : String}
    (hmethod : t.stage = .uninitialized → method ≠ "initialize") (params : Json) :
    ∃ r text, t.request method params = (t, pure (.refuse r text)) := by
  unfold request
  split
  . next hstage =>
    rw [if_neg (hmethod hstage)]
    exact ⟨_, _, rfl⟩
  . split
    . exact ⟨_, _, rfl⟩
    . exact ⟨_, _, rfl⟩
  . next watchFiles hstage => exact absurd hstage (h watchFiles)

/-- Outside a running session every notice but the one to exit is dropped. -/
theorem react_dropped (h : ∀ watchFiles, t.stage ≠ .running watchFiles) {method : String}
    (hmethod : method ≠ "exit") (params : Json) :
    t.react (.notice method params) = (t, .work (pure ()) []) := by
  rw [react, if_neg hmethod]
  split
  . next watchFiles hstage => exact absurd hstage (h watchFiles)
  . rfl

end Terms

end InkServer
