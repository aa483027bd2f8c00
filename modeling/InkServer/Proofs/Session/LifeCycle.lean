import InkServer.Proofs.Session.Conduct

/-!
This module contains the life cycle of a session: it opens once, shuts down once, does nothing for the
editor before and after, and ends well exactly if it is told to exit after the shutdown.
-/

namespace InkServer.Session

variable {σ : Type} {m : Machine σ} {s : Session σ} {messages : List Incoming}

theorem handle_terms (m : Machine σ) (s : Session σ) (message : Incoming) :
    (s.handle m message).terms = (s.terms.react message).1 := by
  unfold handle
  generalize s.terms.react message = reacted
  rcases reacted with ⟨terms, reaction⟩
  cases reaction with
  | answer id job => exact (works_advance m _ { s with terms }).keeps.terms
  | work job beside => exact (works_advance m _ { s with terms }).keeps.terms
  | finish final => rfl

theorem handle_final (m : Machine σ) (s : Session σ) (message : Incoming) :
    (s.handle m message).final
      =
    if message.isExit then some (.exit (s.terms.stage = .shuttingDown)) else s.final := by
  cases hexit : message.isExit with
  | true =>
    rw [handle, Terms.react_of_isExit hexit]
    rfl
  | false =>
    have hreaction := Terms.react_ne_finish (t := s.terms) hexit
    unfold handle
    generalize s.terms.react message = reacted at hreaction
    rcases reacted with ⟨terms, reaction⟩
    cases reaction with
    | answer id job => exact (works_advance m _ { s with terms }).keeps.final
    | work job beside => exact (works_advance m _ { s with terms }).keeps.final
    | finish final => exact absurd rfl (hreaction final)

theorem handle_of_refused {id params : Json} {method : String} {reply : Reply}
    (hidle : s.handler = none) (h : s.terms.request method params = (s.terms, pure reply)) :
    s.handle m (.request id method params) = s.emit (.send (reply.toJson id)) := by
  simp only [handle, Terms.react, h]
  cases s
  cases hidle
  rfl

theorem handle_of_dropped {message : Incoming} (hidle : s.handler = none)
    (h : s.terms.react message = (s.terms, .work (pure ()) [])) : s.handle m message = s := by
  have hquiet : s.world.emitAll [] = s.world := by simp [World.emitAll]
  simp only [handle, h]
  change { s with world := s.world.emitAll [], handler := none, beside := s.beside ++ [] } = s
  rw [hquiet, List.append_nil]
  cases s
  cases hidle
  rfl

/-- What a session does about messages that it does not work for. -/
structure Reserved (m : Machine σ) (s : Session σ) : Prop where
  /-- An opening that cannot be read is refused at every stage. -/
  unreadable : ∀ id params, InitializeParams.ofJson? params = none →
    ∃ r text, s.handle m (.request id "initialize" params)
      = s.emit (.send (Reply.toJson id (.refuse r text)))
  /-- The opening settles the terms, the folders and the settings. -/
  opened : s.terms.stage = .uninitialized →
    ∀ id params p, InitializeParams.ofJson? params = some p →
      s.handle m (.request id "initialize" params)
        =
      { s with
        terms := ⟨.running p.capabilities.watchFiles, p.capabilities⟩
        world := { s.world with
          registry := s.world.registry.registerAll (p.folders.map Folder.uri)
          initial := p.settings }.emit
            (.send (Reply.toJson id (.result (initializeResult (Command.all.map Command.name))))) }
  /-- Outside a running session other requests are refused. -/
  refused : (∀ watchFiles, s.terms.stage ≠ .running watchFiles) →
    ∀ id method params, (s.terms.stage = .uninitialized → method ≠ "initialize") →
      ∃ r text, s.handle m (.request id method params)
        = s.emit (.send (Reply.toJson id (.refuse r text)))
  /-- Outside a running session notices are dropped, but for the one to exit. -/
  dropped : (∀ watchFiles, s.terms.stage ≠ .running watchFiles) →
    ∀ method params, method ≠ "exit" → s.handle m (.notice method params) = s

theorem reserved (m : Machine σ) (hidle : s.handler = none) : s.Reserved m where
  unreadable id params hparams := by
    obtain ⟨r, text, h⟩ := Terms.request_unreadable (t := s.terms) hparams
    exact ⟨r, text, handle_of_refused hidle h⟩
  opened hstage id params p hparams := by
    simp only [handle, Terms.react, Terms.request, hstage, if_pos, Terms.firstRequest, hparams]
    cases s
    cases hidle
    rfl
  refused hstage id method params hmethod := by
    obtain ⟨r, text, h⟩ := Terms.request_refused hstage hmethod params
    exact ⟨r, text, handle_of_refused hidle h⟩
  dropped hstage method params hmethod :=
    handle_of_dropped hidle (Terms.react_dropped hstage hmethod params)

theorem handle_begins_nothing (hidle : s.handler = none) (hstage : s.terms.stage = .uninitialized)
    {message : Incoming} (hopening : message.opening? = none) :
    (s.handle m message).handler = none ∧ (s.handle m message).beside = s.beside := by
  have hreserved := reserved m hidle
  have hnot : ∀ watchFiles, s.terms.stage ≠ .running watchFiles := by simp [hstage]
  cases message with
  | reply id body =>
    rw [handle_of_dropped hidle rfl]
    exact ⟨hidle, rfl⟩
  | request id method params =>
    have hrefused : ∃ r text, s.handle m (.request id method params)
        = s.emit (.send (Reply.toJson id (.refuse r text))) := by
      by_cases hmethod : method = "initialize"
      . rw [hmethod]
        apply hreserved.unreadable
        simpa [Incoming.opening?, hmethod] using hopening
      . exact hreserved.refused hnot id method params fun _ => hmethod
    obtain ⟨r, text, h⟩ := hrefused
    rw [h]
    exact ⟨hidle, rfl⟩
  | notice method params =>
    by_cases hmethod : method = "exit"
    . rw [hmethod]
      exact ⟨rfl, rfl⟩
    . rw [hreserved.dropped hnot method params hmethod]
      exact ⟨hidle, rfl⟩

namespace Conduct

theorem terms_eq {world : World} {machine : σ} (h : Conduct m (.start world machine) messages s) :
    s.terms = Terms.after messages := by
  induction h with
  | start => rfl
  | move _ hmove ih => rw [hmove.continues.terms, ih]
  | handle _ _ _ message ih => rw [handle_terms, Terms.after_concat, ih]
  | finish _ _ _ _ ih => exact ih

theorem idle_of_uninitialized {world : World} {machine : σ}
    (h : Conduct m (.start world machine) messages s) (hstage : s.terms.stage = .uninitialized) :
    s.handler = none ∧ s.beside = [] := by
  induction h with
  | start => exact ⟨rfl, rfl⟩
  | move _ hmove ih =>
    have hmoved := hmove.continues
    obtain ⟨hidle, hbeside⟩ := ih (by rw [← hmoved.terms, hstage])
    refine ⟨hmoved.handler hidle, ?_⟩
    have hlength := hmoved.beside
    simpa [hbeside] using hlength
  | @handle messages s h _ hidle message ih =>
    rw [handle_terms] at hstage
    obtain ⟨hbefore, hopening⟩ := Terms.of_react_uninitialized hstage
    obtain ⟨hhandler, hbeside⟩ := handle_begins_nothing (m := m) hidle hbefore hopening
    exact ⟨hhandler, hbeside.trans (ih hbefore).2⟩
  | finish _ _ _ _ ih =>
    obtain ⟨_, hbeside⟩ := ih hstage
    exact ⟨rfl, hbeside⟩

/-- How a session comes to its end: by the last message that it handled, or by the end of its input. -/
theorem final_cases {world : World} {machine : σ} (h : Conduct m (.start world machine) messages s) :
    (∀ message ∈ messages, message.isExit = false) ∧ (s.final = none ∨ s.final = some .inputClosed)
      ∨ ∃ before params, messages = before ++ [.notice "exit" params]
        ∧ s.final = some (.exit ((Terms.after before).stage = .shuttingDown)) := by
  induction h with
  | start => exact .inl ⟨by simp, .inl rfl⟩
  | move _ hmove ih =>
    rw [hmove.continues.final]
    exact ih
  | @handle messages s h hfinal _ message ih =>
    rw [handle_final]
    cases hexit : message.isExit with
    | true =>
      right
      cases message with
      | notice method params =>
        obtain rfl : method = "exit" := by simpa [Incoming.isExit] using hexit
        exact ⟨messages, params, rfl, by rw [if_pos rfl, h.terms_eq]⟩
      | reply id body => cases hexit
      | request id method params => cases hexit
    | false =>
      left
      have hbefore : ∀ message ∈ messages, message.isExit = false := by
        cases ih with
        | inl ih => exact ih.1
        | inr ih =>
          obtain ⟨_, _, _, hend⟩ := ih
          rw [hfinal] at hend
          cases hend
      refine ⟨?_, .inl (by simp [hfinal])⟩
      intro message' hmem
      cases List.mem_append.mp hmem with
      | inl hmem => exact hbefore message' hmem
      | inr hmem => rw [List.mem_singleton.mp hmem, hexit]
  | finish h hfinal _ _ ih =>
    left
    cases ih with
    | inl ih => exact ⟨ih.1, .inr rfl⟩
    | inr ih =>
      obtain ⟨_, _, _, hend⟩ := ih
      rw [hfinal] at hend
      cases hend

theorem code_eq_zero_iff {world : World} {machine : σ}
    (h : Conduct m (.start world machine) messages s) :
    s.final.map SessionEnd.code = some 0
      ↔
    ∃ before params, messages = before ++ [.notice "exit" params]
      ∧ (Terms.after before).stage = .shuttingDown := by
  cases h.final_cases with
  | inl hcases =>
    obtain ⟨hnone, hfinal⟩ := hcases
    constructor
    . intro hcode
      cases hfinal with
      | inl hfinal => simp [hfinal] at hcode
      | inr hfinal => simp [hfinal, SessionEnd.code] at hcode
    . rintro ⟨before, params, rfl, _⟩
      have hexit := hnone (.notice "exit" params) (by simp)
      simp [Incoming.isExit] at hexit
  | inr hcases =>
    obtain ⟨before, params, heq, hfinal⟩ := hcases
    rw [hfinal]
    constructor
    . intro hcode
      refine ⟨before, params, heq, ?_⟩
      cases hstage : decide ((Terms.after before).stage = .shuttingDown) with
      | true => exact of_decide_eq_true hstage
      | false => simp [hstage, SessionEnd.code] at hcode
    . rintro ⟨before', params', heq', hstage⟩
      obtain rfl : before = before' := by
        rw [heq] at heq'
        exact (List.append_inj' heq' rfl).1
      simp [hstage, SessionEnd.code]

/-- The life cycle of a session. What was agreed on comes from its first opening that can be read and
from the first request for a shutdown after it. The session exits with 0 exactly if it is told to exit
after that. In between, and only then, messages begin jobs; what goes on without a message begins none. -/
theorem life_cycle {world : World} {machine : σ} (h : Conduct m (.start world machine) messages s) :
    s.terms = Terms.after messages
      ∧ (s.final.map SessionEnd.code = some 0
        ↔ ∃ before opening between shutdown later params,
          messages = before ++ opening :: (between ++ shutdown :: (later ++ [.notice "exit" params]))
            ∧ opening.opening?.isSome ∧ shutdown.isShutdown)
      ∧ (s.handler = none → s.Reserved m)
      ∧ (s.terms.stage = .uninitialized → s.handler = none ∧ s.beside = [])
      ∧ ∀ s', s.Moves m s' → s.Continues s' := by
  refine ⟨h.terms_eq, ?_, reserved m, h.idle_of_uninitialized, fun _ => Moves.continues⟩
  rw [h.code_eq_zero_iff]
  constructor
  . rintro ⟨before, params, rfl, hstage⟩
    obtain ⟨first, opening, between, shutdown, later, heq, hopening⟩ :=
      (Terms.after_shuttingDown_iff before).mp hstage
    exact ⟨first, opening, between, shutdown, later, params, by simp [heq], hopening⟩
  . rintro ⟨first, opening, between, shutdown, later, params, rfl, hopening⟩
    refine ⟨first ++ opening :: (between ++ shutdown :: later), params, by simp, ?_⟩
    rw [Terms.after_shuttingDown_iff]
    exact ⟨first, opening, between, shutdown, later, rfl, hopening⟩

end Conduct

/-- An editor that opens the session at the second attempt, and ends it as it should. -/
def briefMessages : List Incoming :=
  [.request (.ofNat 1) "initialize" (.ofNat 5), .request (.ofNat 2) "initialize" (.object []),
    .request (.ofNat 3) "shutdown" .null, .notice "exit" .null]

def briefStart : Session Processes :=
  .start (.start ⟨[], []⟩ ⟨.ofString "/s", .standard⟩ ⟨"main.ink", "inklecate", none⟩) (.start [])

def briefEnd : Session Processes :=
  briefMessages.foldl (fun s message => s.handle Processes.machine message) briefStart

theorem conduct_briefEnd : Conduct Processes.machine briefStart briefMessages briefEnd :=
  (((Conduct.start.handle rfl rfl _).handle rfl rfl _).handle rfl rfl _).handle rfl rfl _

theorem life_cycle_briefEnd :
    Conduct Processes.machine briefStart briefMessages briefEnd
      ∧ briefEnd.final.map SessionEnd.code = some 0 := by
  refine ⟨conduct_briefEnd, (conduct_briefEnd.life_cycle).2.1.mpr ?_⟩
  exact ⟨[_], _, [], _, [], .null, rfl, by rfl, by rfl⟩

end InkServer.Session
