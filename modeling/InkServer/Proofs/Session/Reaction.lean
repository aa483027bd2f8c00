import InkServer.Proofs.Job.Making
import InkServer.Proofs.Session.Stage

/-!
This module contains what is done about the messages of a session: a request is answered, a notice
begins jobs or ends the session, and all jobs are made of those of the service.
-/

namespace InkServer

def Incoming.requestId? : Incoming → Option Json
  | request id _ _ => some id
  | _ => none

namespace Terms

theorem made_firstRequest (t : Terms) (params : Json) : (t.firstRequest params).2.Made [] := by
  unfold firstRequest
  split
  . exact .pure _
  . refine .bind (Job.made_addFolders _) fun _ => .bind (Job.made_modify fun w => ?_) fun _ => .pure _
    exact .keep w _ _ _

theorem made_command (params : Json) : (command params).Made [] := by
  unfold command
  split
  . exact .pure _
  . refine .bind (Job.made_executeCommand _ _) fun result => ?_
    split
    . exact .pure _
    . exact .pure _
    . exact .pure _

theorem made_request (t : Terms) (method : String) (params : Json) :
    (t.request method params).2.Made [] := by
  unfold request
  split
  . split
    . exact t.made_firstRequest params
    . exact .pure _
  . split
    . exact .pure _
    . exact .pure _
  . split
    . exact .pure _
    . split
      . exact .bind Job.made_stop fun _ => .pure _
      . split
        . exact made_command params
        . exact .pure _

end Terms

namespace Reaction

/-- The reaction is one that the message calls for. -/
inductive Meets : Incoming → Reaction → Prop where
  | answer {id params : Json} {method : String} {job : Job Reply} (h : job.Made []) :
    Meets (.request id method params) (.answer id job)
  | work {message : Incoming} {job : Job Unit} {beside : List (Job Unit)}
    (hrequest : message.requestId? = none) (hexit : message.isExit = false)
    (hjob : ∃ gone, job.Made gone) (hbeside : ∀ job ∈ beside, job.Made []) :
    Meets message (.work job beside)
  | finish {message : Incoming} {final : SessionEnd} (hexit : message.isExit = true) :
    Meets message (.finish final)

theorem meets_pure {message : Incoming} (hrequest : message.requestId? = none)
    (hexit : message.isExit = false) : Meets message (.work (pure ()) []) :=
  .work hrequest hexit ⟨[], .pure _⟩ (by simp)

end Reaction

namespace Terms

theorem made_opened (params : Json) : (opened params).Made [] := by
  unfold opened
  split
  . exact .bind (Job.made_documentOpened _ _) fun _ => .pure _
  . exact .pure _

theorem made_changed (params : Json) : (changed params).Made [] := by
  unfold changed
  split
  . exact .bind (Job.made_documentChanged _ _) fun _ => .pure _
  . exact .pure _

theorem made_closed (params : Json) : (closed params).Made [] := by
  unfold closed
  split
  . exact Job.made_documentClosed _
  . exact .pure _

theorem made_watched (params : Json) : (watched params).Made [] := by
  unfold watched
  split
  . exact Job.made_filesChanged _
  . exact .pure _

theorem made_foldersChanged (params : Json) : ∃ gone, (foldersChanged params).Made gone := by
  unfold foldersChanged
  split
  . exact ⟨_, Job.made_foldersChanged _ _⟩
  . exact ⟨[], .pure _⟩

theorem made_watchSources : watchSources.Made [] :=
  .bind .get fun _ => .query _ rfl

theorem notice_meets (watchFiles : Bool) {method : String} (params : Json) (h : method ≠ "exit") :
    Reaction.Meets (.notice method params) (notice watchFiles method params) := by
  have hexit : (Incoming.notice method params).isExit = false := by simpa [Incoming.isExit] using h
  unfold notice
  split
  . refine .work rfl hexit ⟨[], .pure _⟩ ?_
    intro job hjob
    split at hjob
    . rcases List.mem_cons.mp hjob with rfl | hjob
      . exact made_watchSources
      . rw [List.mem_singleton.mp hjob]
        exact Job.made_copyAllWorkspaces
    . rw [List.mem_singleton.mp hjob]
      exact Job.made_copyAllWorkspaces
  . split
    . exact .work rfl hexit ⟨_, made_opened _⟩ (by simp)
    . split
      . exact .work rfl hexit ⟨_, made_changed _⟩ (by simp)
      . split
        . exact .work rfl hexit ⟨_, made_closed _⟩ (by simp)
        . split
          . exact .work rfl hexit ⟨_, made_watched _⟩ (by simp)
          . split
            . exact .work rfl hexit (made_foldersChanged _) (by simp)
            . exact Reaction.meets_pure rfl hexit

theorem react_meets (t : Terms) (message : Incoming) :
    Reaction.Meets message (t.react message).2 := by
  cases message with
  | reply id body => exact Reaction.meets_pure rfl rfl
  | request id method params => exact .answer (t.made_request method params)
  | notice method params =>
    rw [react]
    split
    . next hmethod => exact .finish (by simpa [Incoming.isExit] using hmethod)
    . next hmethod =>
      split
      . exact notice_meets _ _ hmethod
      . exact Reaction.meets_pure rfl (by simpa [Incoming.isExit] using hmethod)

end Terms

end InkServer
