import InkServer.Proofs.Rpc.Exchange
import InkServer.Proofs.Session.Crew

/-!
This module contains the requests that a session makes to the editor. What becomes of them is an
exchange, in which every job that waits for a reply has a request of its own that was sent.
-/

namespace InkServer

def Query.isRequest : Query → Bool
  | folders | settings _ | register _ => true
  | _ => false

/-- The id of the request whose reply the job waits for. -/
def Blocked.inquiry? (b : Blocked) : Option Nat :=
  if b.query.isRequest then some b.request else none

namespace Exchange

variable {acts : List Act} {x : Exchange} {p p' : Pending} {ids ids' : List Nat} {id i clock : Nat}

theorem Run.register (h : Run acts x) (deadline : Nat) :
    ∃ acts', Run acts'
      { x with
        pending := (x.pending.register deadline).2
        inquiries := x.inquiries ++ [⟨x.pending.next, .listed⟩] } := by
  have hlast : (x.inquiries ++ [⟨x.pending.next, .drawn⟩])[x.inquiries.length]?
      = some ⟨x.pending.next, .drawn⟩ := List.getElem?_concat_length
  have hlisted := (h.step .draw).step (.enlist hlast deadline)
  rw [List.set_append_right _ _ (Nat.le_refl _), Nat.sub_self] at hlisted
  exact ⟨_, hlisted⟩

/-- A request that cannot get a reply any more is taken off the list. -/
theorem Run.drop {why : Inquiry.Fault} (h : Run acts x)
    (hr : x.inquiries[i]? = some ⟨id, .leaving why⟩) (hnone : x.pending.replies.lookup id = none) :
    ∃ acts', Run acts'
      { x with
        pending := x.pending.abandon id
        inquiries := x.inquiries.set i ⟨id, .failed why⟩ } := by
  have hdropped := h.step (.drop hr)
  rw [Pending.take_of_lookup_eq_none (p := x.pending.abandon id) hnone] at hdropped
  exact ⟨_, hdropped⟩

/-- An exchange leads to these requests at this time, and those with the given ids were sent and are
not finished. -/
def Carries (ids : List Nat) (p : Pending) (clock : Nat) : Prop :=
  ∃ acts x, Run acts x ∧ x.pending = p ∧ x.clock = clock ∧ ids.Nodup
    ∧ ∀ id ∈ ids, ∃ i : Nat, x.inquiries[i]? = some ⟨id, .sent⟩

theorem exists_sent_append {inquiries : List Inquiry} {r : Inquiry}
    (h : ∃ i : Nat, inquiries[i]? = some ⟨id, .sent⟩) :
    ∃ i : Nat, (inquiries ++ [r])[i]? = some ⟨id, .sent⟩ := by
  obtain ⟨i, hi⟩ := h
  exact ⟨i, (List.getElem?_append_left (List.getElem?_eq_some_iff.mp hi).1).trans hi⟩

namespace Carries

theorem perm (h : Carries ids p clock) (hperm : ids.Perm ids') : Carries ids' p clock := by
  obtain ⟨acts, x, hrun, hp, hclock, hnodup, hsent⟩ := h
  exact ⟨acts, x, hrun, hp, hclock, hperm.nodup_iff.mp hnodup,
    fun id hid => hsent id (hperm.mem_iff.mpr hid)⟩

theorem receive (h : Carries ids p clock) (id : Nat) (body : Json) :
    Carries ids (p.resolve id body) clock := by
  obtain ⟨acts, x, hrun, hp, hclock, hids⟩ := h
  subst hp
  exact ⟨_, _, hrun.step (.receive id body), rfl, hclock, hids⟩

theorem tick (h : Carries ids p clock) : Carries ids p (clock + 1) := by
  obtain ⟨acts, x, hrun, hp, hclock, hids⟩ := h
  subst hclock
  exact ⟨_, _, hrun.step .tick, hp, rfl, hids⟩

theorem send (h : Carries ids p clock) (deadline : Nat) :
    Carries (p.next :: ids) (p.register deadline).2 clock := by
  obtain ⟨acts, x, hrun, hp, hclock, hnodup, hsent⟩ := h
  subst hp hclock
  have hnew : x.pending.next ∉ ids := by
    intro hmem
    obtain ⟨i, hi⟩ := hsent _ hmem
    have hlt := hrun.sound.fresh _ (List.mem_map_of_mem (List.mem_of_getElem? hi))
    exact Nat.lt_irrefl _ hlt
  obtain ⟨acts', hlisted⟩ := hrun.register deadline
  have hrun' := hlisted.step (.send List.getElem?_concat_length)
  rw [List.set_append_right _ _ (Nat.le_refl _), Nat.sub_self] at hrun'
  refine ⟨_, _, hrun', rfl, rfl, List.nodup_cons.mpr ⟨hnew, hnodup⟩, ?_⟩
  intro id hid
  rcases List.mem_cons.mp hid with rfl | hid
  . exact ⟨x.inquiries.length, List.getElem?_concat_length⟩
  . exact exists_sent_append (hsent id hid)

/-- A request is made, but it cannot be sent any more. -/
theorem lose (h : Carries ids p clock) (deadline : Nat) :
    Carries ids ((p.register deadline).2.abandon p.next) clock := by
  obtain ⟨acts, x, hrun, hp, hclock, hnodup, hsent⟩ := h
  subst hp hclock
  have hnew : x.pending.next ∉ x.inquiries.map Inquiry.id :=
    fun hmem => Nat.lt_irrefl _ (hrun.sound.fresh _ hmem)
  obtain ⟨acts', hlisted⟩ := hrun.register deadline
  have hlost := hlisted.step (.lose List.getElem?_concat_length)
  rw [List.set_append_right _ _ (Nat.le_refl _), Nat.sub_self] at hlost
  obtain ⟨acts'', hrun'⟩ := hlost.drop List.getElem?_concat_length (hrun.sound.known _ hnew).2
  rw [List.set_append_right _ _ (Nat.le_refl _), Nat.sub_self] at hrun'
  exact ⟨_, _, hrun', rfl, rfl, hnodup, fun id hid => exists_sent_append (hsent id hid)⟩

theorem complete {completion : Pending.Completion} (h : Carries (id :: ids) p clock)
    (hend : p.complete? id clock = some (completion, p')) : Carries ids p' clock := by
  obtain ⟨acts, x, hrun, hp, hclock, hnodup, hsent⟩ := h
  subst hp hclock
  obtain ⟨hne, hnodup⟩ := List.nodup_cons.mp hnodup
  obtain ⟨i, hi⟩ := hsent id (.head _)
  have hothers : ∀ r : Inquiry, ∀ k ∈ ids, ∃ j : Nat, (x.inquiries.set i r)[j]? = some ⟨k, .sent⟩ := by
    intro r k hk
    obtain ⟨j, hj⟩ := hsent k (.tail _ hk)
    refine ⟨j, (List.getElem?_set_ne ?_).trans hj⟩
    rintro rfl
    rw [hi] at hj
    cases hj
    exact hne hk
  rcases Pending.complete?_eq_some hend with ⟨body, rfl, _, _⟩ | ⟨rfl, hnone, rfl⟩
  . exact ⟨_, _, hrun.step (.answer hi hend), rfl, rfl, hnodup, hothers _⟩
  . -- A request whose time is over is taken off the list in a step of its own.
    have hleaving : (x.inquiries.set i ⟨id, .leaving .expired⟩)[i]? = some ⟨id, .leaving .expired⟩ :=
      List.getElem?_set_self (List.getElem?_eq_some_iff.mp hi).1
    obtain ⟨acts', hrun'⟩ := (hrun.step (.expire hi hend)).drop hleaving hnone
    rw [List.set_set] at hrun'
    exact ⟨_, _, hrun', rfl, rfl, hnodup, hothers _⟩

end Carries

end Exchange

namespace Session

variable {σ : Type} {m : Machine σ} {s s' : Session σ} {q : Query} {b : Blocked}
  {bs bs' : List Blocked}

/-- What becomes of the requests of a session is an exchange, in which the jobs that wait for a reply
have requests that were sent. -/
def Corresponds (s : Session σ) (bs : List Blocked) : Prop :=
  Exchange.Carries (bs.filterMap Blocked.inquiry?) s.pending s.clock

theorem Corresponds.perm (h : s.Corresponds bs) (hperm : bs.Perm bs') : s.Corresponds bs' :=
  Exchange.Carries.perm h (hperm.filterMap _)

/-- The requests are as before, but for what the query asks of the editor. -/
def Posed.Corresponds (bs : List Blocked) (k : q.Answer → World → Step (Option Json)) :
    Posed σ q → Prop
  | answered _ s => s.Corresponds bs
  | waiting request s => s.Corresponds (⟨q, request, k⟩ :: bs)

theorem corresponds_poseRequest (h : s.Corresponds bs) (hq : q.isRequest = true) (refused : q.Answer)
    (method : String) (params : Json) (k : q.Answer → World → Step (Option Json)) :
    (s.poseRequest q refused method params).Corresponds bs k := by
  unfold poseRequest
  dsimp only
  split
  . exact Exchange.Carries.lose h _
  . have hids : (Blocked.mk q s.pending.next k :: bs).filterMap Blocked.inquiry?
        = s.pending.next :: bs.filterMap Blocked.inquiry? := List.filterMap_cons_some (if_pos hq)
    have hsent := Exchange.Carries.send h (s.clock + requestTimeout)
    rw [← hids] at hsent
    exact hsent

theorem corresponds_pose (m : Machine σ) (h : s.Corresponds bs)
    (k : q.Answer → World → Step (Option Json)) : (pose m s q).Corresponds bs k := by
  cases q with
  | folders =>
    rw [pose]
    split
    . exact corresponds_poseRequest h rfl _ _ _ k
    . exact h
  | settings scope =>
    rw [pose]
    split
    . exact corresponds_poseRequest h rfl _ _ _ k
    . exact h
  | register params => exact corresponds_poseRequest h rfl _ _ _ k
  | _ => exact h

theorem corresponds_advance (m : Machine σ) (h : s.Corresponds bs) (t : Step (Option Json)) :
    (advance m t s).1.Corresponds ((advance m t s).2.toList ++ bs) := by
  induction t generalizing s with
  | done w frame => exact h
  | ask w q k ih =>
    have hposed := corresponds_pose m (s := { s with world := w }) h k
    rw [advance]
    split
    . next a s' heq =>
      rw [heq] at hposed
      exact ih a s'.world hposed
    . next request s' heq =>
      rw [heq] at hposed
      exact hposed

theorem corresponds_result? {result : Option Json} (h : s.Corresponds (b :: bs))
    (hq : b.query.isRequest = true) (hresult : s.result? b.request = some (result, s')) :
    s'.Corresponds bs := by
  obtain ⟨⟨completion, pending⟩, hend, heq⟩ := Option.map_eq_some_iff.mp hresult
  cases heq
  have hids : (b :: bs).filterMap Blocked.inquiry? = b.request :: bs.filterMap Blocked.inquiry? :=
    List.filterMap_cons_some (if_pos hq)
  unfold Session.Corresponds at h
  rw [hids] at h
  exact h.complete hend

theorem corresponds_answer? {a : b.query.Answer} (h : s.Corresponds (b :: bs))
    (ha : s.answer? b.request b.query = some (a, s')) : s'.Corresponds bs := by
  obtain ⟨q, request, k⟩ := b
  cases q with
  | folders | settings | register =>
    obtain ⟨⟨result, s''⟩, hresult, heq⟩ := Option.map_eq_some_iff.mp ha
    cases heq
    exact corresponds_result? h rfl hresult
  | rest =>
    cases ha
    exact h
  | settled seen =>
    rw [answer?] at ha
    split at ha
    . cases ha
      exact h
    . cases ha
  | _ => cases ha

theorem corresponds_resume (m : Machine σ) (h : s.Corresponds (b :: bs)) :
    (resume m b s).1.Corresponds ((resume m b s).2.toList ++ bs) := by
  rw [resume]
  split
  . next a s' heq => exact corresponds_advance m (corresponds_answer? h heq) _
  . exact h

theorem kept_corresponds (m : Machine σ) : Kept m Session.Corresponds where
  congr h _ hpending hclock := by
    unfold Session.Corresponds
    rw [hpending, hclock]
    exact h
  resolve h id body := Exchange.Carries.receive h id body
  tick h := Exchange.Carries.tick h
  begins h _ frame := corresponds_advance m h _
  awaits {s bs job} h _ := by
    have hnone : [waitingToBegin job].filterMap Blocked.inquiry? = [] := rfl
    unfold Session.Corresponds
    rwa [List.filterMap_append, hnone, List.append_nil]
  resumes {s b front back} h := by
    have hfirst := corresponds_resume m (h.perm List.perm_middle)
    refine hfirst.perm ?_
    rw [← List.append_assoc, ← List.append_assoc]
    exact List.perm_append_comm.append_right _

namespace Dialogue

variable {frames : List Json} {disk : Disk} {rules : CopyRules} {defaults : Settings} {machine : σ}

/-- What a session does with its requests to the editor is an exchange. -/
theorem corresponds (h : Dialogue m (.start (.start disk rules defaults) machine) frames s) :
    s.Corresponds s.crew := by
  apply h.kept (kept_corresponds m)
  exact ⟨[], .start, .start, rfl, rfl, .nil, by simp [crew, Session.start]⟩

/-- Every job that waits for a reply has a request of its own, which is on the list until the reply is
there. -/
theorem isWaiting_inquiry (h : Dialogue m (.start (.start disk rules defaults) machine) frames s) :
    (s.crew.filterMap Blocked.inquiry?).Nodup
      ∧ ∀ id ∈ s.crew.filterMap Blocked.inquiry?,
        s.pending.isWaiting id = (s.pending.replies.lookup id).isNone := by
  obtain ⟨acts, x, hrun, hpending, _, hnodup, hsent⟩ := h.corresponds
  refine ⟨hnodup, ?_⟩
  intro id hid
  obtain ⟨i, hi⟩ := hsent id hid
  have hself := hrun.sound.accounted i _ hi
  rw [← hpending]
  exact hself.waiting.trans (congrArg Option.isNone hself.reply.symm)

end Dialogue

end Session

end InkServer
