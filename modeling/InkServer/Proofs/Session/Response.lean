import InkServer.Proofs.Rpc.Frame
import InkServer.Proofs.Session.Progress
import InkServer.Proofs.Session.Sending

/-!
This module contains the responses of a session. Every request is answered once and in its turn, every
malformed frame is refused once, and nothing else is responded to.
-/

namespace InkServer

/-- The third list is made of the first two, each of which keeps its order. -/
inductive Interleaves {α : Type} : List α → List α → List α → Prop where
  | nil : Interleaves [] [] []
  | left {xs ys zs : List α} (h : Interleaves xs ys zs) (x : α) :
    Interleaves (xs ++ [x]) ys (zs ++ [x])
  | right {xs ys zs : List α} (h : Interleaves xs ys zs) (y : α) :
    Interleaves xs (ys ++ [y]) (zs ++ [y])

namespace Json

/-- The id of a request. A request has a method, and its id is not `null`. -/
def requestId? (frame : Json) : Option Json :=
  match Incoming.id? frame, (frame.get? "method").bind string? with
  | some id, some _ => some id
  | _, _ => none

def isExitNotice (frame : Json) : Bool :=
  match Incoming.id? frame, (frame.get? "method").bind string? with
  | none, some method => method = "exit"
  | _, _ => false

/-- The id of a frame that has no method, unless the frame is a reply to a request of the server. -/
def malformedId? (frame : Json) : Option Json :=
  match Incoming.id? frame, (frame.get? "method").bind string? with
  | some id, none =>
    if ((frame.get? "result").isSome || (frame.get? "error").isSome) && id.natural?.isSome then none
    else some id
  | _, _ => none

/-- The ids of the requests before the first notice to exit. -/
def requestIds : List Json → List Json
  | [] => []
  | frame :: frames =>
    if frame.isExitNotice then [] else frame.requestId?.toList ++ requestIds frames

/-- The ids of the malformed frames that have one. -/
def malformedIds (frames : List Json) : List Json :=
  frames.filterMap malformedId?

/-- The frame responds to the request with the given id, by a result or by an error. -/
structure Responds (frame id : Json) : Prop where
  id : frame.get? "id" = some id
  outcome : (frame.get? "result").isSome = !(frame.get? "error").isSome

/-- The frame refuses the request with the given id as an invalid one. -/
structure Refuses (frame id : Json) : Prop extends frame.Responds id where
  code : (frame.get? "error").bind (·.get? "code") = some (ofNegative 32600)

/-- The responses answer the requests with the given ids in this order and refuse malformed frames
with the given ids in this order, and there are no others. -/
def Answered (ids malformed responses : List Json) : Prop :=
  ∃ answers refusals, Interleaves answers refusals responses
    ∧ List.Forall₂ Responds answers ids ∧ List.Forall₂ Refuses refusals malformed

variable {ids malformed responses frames : List Json} {id frame : Json}

theorem Answered.answer (h : Answered ids malformed responses) (hframe : frame.Responds id) :
    Answered (ids ++ [id]) malformed (responses ++ [frame]) := by
  obtain ⟨answers, refusals, hall, hanswers, hrefusals⟩ := h
  exact ⟨answers ++ [frame], refusals, hall.left frame,
    List.rel_append hanswers (.cons hframe .nil), hrefusals⟩

theorem Answered.refuse (h : Answered ids malformed responses) (hframe : frame.Refuses id) :
    Answered ids (malformed ++ [id]) (responses ++ [frame]) := by
  obtain ⟨answers, refusals, hall, hanswers, hrefusals⟩ := h
  exact ⟨answers, refusals ++ [frame], hall.right frame, hanswers,
    List.rel_append hrefusals (.cons hframe .nil)⟩

end Json

theorem Reply.responds_toJson (r : Reply) (id : Json) : (r.toJson id).Responds id := by
  cases r with
  | result value => exact ⟨rfl, rfl⟩
  | error code message => exact ⟨rfl, rfl⟩

namespace Incoming

variable {frame : Json} {messages messages' : List Incoming}

/-- The message of a frame that is to be handled, which a reply is not. -/
def queued? (frame : Json) : Option Incoming :=
  match ofJson? frame with
  | some (.reply _ _) => none
  | message => message

def asked : List Incoming → List Json
  | [] => []
  | message :: messages =>
    if message.isExit then [] else message.requestId?.toList ++ asked messages

theorem asked_append (h : ∀ message ∈ messages, message.isExit = false)
    (messages' : List Incoming) :
    asked (messages ++ messages') = messages.filterMap requestId? ++ asked messages' := by
  induction messages with
  | nil => rfl
  | cons message messages ih =>
    rw [List.cons_append, asked, h message (.head _), ih fun x hx => h x (.tail _ hx)]
    cases hid : message.requestId? with
    | none => rw [List.filterMap_cons_none hid]; rfl
    | some id => rw [List.filterMap_cons_some hid]; rfl

/-- A frame with an id and no method holds no message that is to be handled. -/
theorem queued?_of_no_method {id : Json} (hid : id? frame = some id)
    (hmethod : (frame.get? "method").bind Json.string? = none) : queued? frame = none := by
  unfold queued? ofJson?
  simp only [hid, hmethod]
  cases (frame.get? "result").isSome || (frame.get? "error").isSome with
  | false => rfl
  | true =>
    cases id.natural? with
    | none => rfl
    | some n => rfl

theorem requestId?_eq (frame : Json) : frame.requestId? = (queued? frame).bind requestId? := by
  unfold Json.requestId?
  cases hid : id? frame with
  | none =>
    cases hmethod : (frame.get? "method").bind Json.string? with
    | none => simp [queued?, ofJson?, hid, hmethod]
    | some method => simp [queued?, ofJson?, hid, hmethod, requestId?]
  | some id =>
    cases hmethod : (frame.get? "method").bind Json.string? with
    | none => rw [queued?_of_no_method hid hmethod]; rfl
    | some method => simp [queued?, ofJson?, hid, hmethod, requestId?]

theorem isExitNotice_eq (frame : Json) : frame.isExitNotice = (queued? frame).any isExit := by
  unfold Json.isExitNotice
  cases hid : id? frame with
  | none =>
    cases hmethod : (frame.get? "method").bind Json.string? with
    | none => simp [queued?, ofJson?, hid, hmethod]
    | some method => simp [queued?, ofJson?, hid, hmethod, isExit]
  | some id =>
    cases hmethod : (frame.get? "method").bind Json.string? with
    | none => rw [queued?_of_no_method hid hmethod]; rfl
    | some method => simp [queued?, ofJson?, hid, hmethod, isExit]

theorem malformedId?_eq (frame : Json) :
    frame.malformedId? = if (ofJson? frame).isSome then none else id? frame := by
  unfold Json.malformedId?
  cases hid : id? frame with
  | none => simp
  | some id =>
    cases hmethod : (frame.get? "method").bind Json.string? with
    | some method => simp [ofJson?, hid, hmethod]
    | none =>
      unfold ofJson?
      simp only [hid, hmethod]
      cases (frame.get? "result").isSome || (frame.get? "error").isSome with
      | false => rfl
      | true =>
        cases id.natural? with
        | none => rfl
        | some n => rfl

theorem requestIds_eq (frames : List Json) :
    Json.requestIds frames = asked (frames.filterMap queued?) := by
  induction frames with
  | nil => rfl
  | cons frame frames ih =>
    rw [Json.requestIds, requestId?_eq, isExitNotice_eq, ih]
    cases hqueued : queued? frame with
    | none => rw [List.filterMap_cons_none hqueued]; rfl
    | some message => rw [List.filterMap_cons_some hqueued]; rfl

end Incoming

theorem Json.Answered.closes {ids malformed responses : List Json} {id? frame : Option Json}
    (h : Json.Answered ids malformed responses) (hc : Closes id? frame) :
    Json.Answered (ids ++ id?.toList) malformed (responses ++ frame.toList) := by
  cases id? with
  | none =>
    cases hc
    simpa using h
  | some id =>
    obtain ⟨reply, hreply⟩ := hc
    rw [hreply]
    exact h.answer (reply.responds_toJson id)

namespace Posting

variable {p : Posting}

/-- Nothing but news is being made. -/
def IsNews (p : Posting) : Prop :=
  ∀ e ∈ p, e.2.isNews = true

theorem IsNews.ready (h : p.IsNews) : (∀ e ∈ p.ready.1, e.isNews = true) ∧ IsNews p.ready.2 := by
  induction p with
  | nil => exact ⟨by simp [Posting.ready], h⟩
  | cons first p ih =>
    rcases first with ⟨n, e⟩
    cases n with
    | succ n => exact ⟨by simp [Posting.ready], h⟩
    | zero =>
      obtain ⟨heffects, hrest⟩ := ih fun x hx => h x (.tail _ hx)
      refine ⟨?_, hrest⟩
      intro x hx
      rcases List.mem_cons.mp hx with rfl | hx
      . exact h (0, _) (.head _)
      . exact heffects x hx

theorem IsNews.elapse (h : p.IsNews) : p.elapse.IsNews := by
  unfold Posting.elapse
  split
  . next n e rest =>
    intro x hx
    rcases List.mem_cons.mp hx with rfl | hx
    . exact h (n + 1, e) (.head _)
    . exact h x (.tail _ hx)
  . exact h

theorem isNews_start (pace : Option Nat) {es : List Effect} (h : ∀ e ∈ es, e.isNews = true) :
    (start pace es).IsNews := by
  intro x hx
  obtain ⟨e, he, heq⟩ := List.mem_map.mp hx
  rw [← heq]
  exact h e he

end Posting

namespace Session

variable {σ : Type} {m : Machine σ} {s s' : Session σ} {frames : List Json}

/-- The job that handles a message, if there is one, will respond to the request with the given id. -/
def Occupied (handler : Option Blocked) (id? : Option Json) : Prop :=
  match handler with
  | some b => b.Answers id?
  | none => id? = none

/-- The session responded to what it handled, but for the message that it is handling. -/
structure Attends (frames : List Json) (s : Session σ) : Prop where
  connected : s.world.isHungUp = false
  account : ∃ handled ids current,
    frames.filterMap Incoming.queued? = handled ++ s.queue
      ∧ (∀ message ∈ handled, message.isExit = false)
      ∧ handled.filterMap Incoming.requestId? = ids ++ current.toList
      ∧ Json.Answered ids (Json.malformedIds frames) s.world.responses
      ∧ Occupied s.handler current

/-- The session is in order with the frames that were read. -/
structure Orderly (frames : List Json) (s : Session σ) : Prop where
  beside : ∀ b ∈ s.beside, b.Answers none
  postings : ∀ posting ∈ s.postings, posting.IsNews
  going : s.final = none → s.Attends frames
  gone : s.final ≠ none → s.world.isHungUp = true
    ∧ Json.Answered (Json.requestIds frames) (Json.malformedIds frames) s.world.responses

theorem Attends.requests (h : s.Attends frames) : ∃ ids, ids <+: Json.requestIds frames
    ∧ Json.Answered ids (Json.malformedIds frames) s.world.responses := by
  obtain ⟨handled, ids, current, hqueue, hexit, hids, hanswered, _⟩ := h.account
  refine ⟨ids, ?_, hanswered⟩
  rw [Incoming.requestIds_eq, hqueue, Incoming.asked_append hexit, hids, List.append_assoc]
  exact List.prefix_append _ _

/-- When the next message ends the session, or there is none, all requests were answered. -/
theorem Attends.answered (h : s.Attends frames) (hidle : s.handler = none)
    (hqueue : Incoming.asked s.queue = []) :
    Json.Answered (Json.requestIds frames) (Json.malformedIds frames) s.world.responses := by
  obtain ⟨handled, ids, current, hsplit, hexit, hids, hanswered, hoccupied⟩ := h.account
  rw [hidle] at hoccupied
  cases hoccupied
  rw [Incoming.requestIds_eq, hsplit, Incoming.asked_append hexit, hids, hqueue]
  simpa using hanswered

theorem Orderly.quietly (h : s.Orderly frames) (hqueue : s'.queue = s.queue)
    (hhandler : s'.handler = s.handler) (hfinal : s'.final = s.final)
    (hsends : s.world.Sends [] s'.world) (hbeside : ∀ b ∈ s'.beside, b.Answers none)
    (hpostings : ∀ posting ∈ s'.postings, posting.IsNews) : s'.Orderly frames := by
  refine ⟨hbeside, hpostings, ?_, ?_⟩
  . intro hnone
    have hgoing := h.going (hfinal.symm.trans hnone)
    obtain ⟨hresponses, hconnected⟩ := hsends.responses hgoing.connected
    refine ⟨hconnected, ?_⟩
    rw [hqueue, hhandler, hresponses, List.append_nil]
    exact hgoing.account
  . intro hend
    obtain ⟨hup, hanswered⟩ := h.gone (by rwa [hfinal] at hend)
    obtain ⟨hresponses, hup'⟩ := hsends.responses_of_isHungUp hup
    rw [hresponses]
    exact ⟨hup', hanswered⟩

/-- The job that handles a message went on, or came to its end with a response. -/
theorem attends_of_advanced {w : World} {advanced : Session σ × Option Blocked}
    {handled : List Incoming} {ids : List Json} {current : Option Json}
    (hconnected : w.isHungUp = false)
    (hqueue : frames.filterMap Incoming.queued? = handled ++ s.queue)
    (hexit : ∀ message ∈ handled, message.isExit = false)
    (hids : handled.filterMap Incoming.requestId? = ids ++ current.toList)
    (hanswered : Json.Answered ids (Json.malformedIds frames) w.responses)
    (h : Advanced current w advanced) (hworld : s.world = advanced.1.world)
    (hhandler : s.handler = advanced.2) : s.Attends frames := by
  cases h with
  | @waits s' b hb hs =>
    obtain ⟨hresponses, hconnected'⟩ := hs.responses hconnected
    rw [List.append_nil] at hresponses
    refine ⟨by rw [hworld, hconnected'], handled, ids, current, hqueue, hexit, hids, ?_, ?_⟩
    . rw [hworld, hresponses]
      exact hanswered
    . rw [hhandler]
      exact hb
  | @ends s' frame hframe hs =>
    obtain ⟨hresponses, hconnected'⟩ := hs.responses hconnected
    refine ⟨by rw [hworld, hconnected'], handled, ids ++ current.toList, none, hqueue, hexit, ?_, ?_, ?_⟩
    . rw [hids]
      simp
    . rw [hworld, hresponses]
      exact hanswered.closes hframe
    . rw [hhandler]
      rfl

theorem answers_waitingToBegin {job : Job Unit} (h : job.Made []) : (waitingToBegin job).Answers none where
  spans _ w := (h.sends w).bind World.Sends.trans fun _ w => .refl w
  ends _ w := Step.ends_bind (job w) fun _ _ => rfl

theorem finish_gone (m : Machine σ) (final : SessionEnd) (hconnected : s.world.isHungUp = false) :
    (s.finish m final).world.isHungUp = true
      ∧ (s.finish m final).world.responses = s.world.responses := by
  unfold World.isHungUp World.responses at *
  have htrace : (s.finish m final).world.trace = s.world.trace ++ ([.stop] ++ [.hangUp]) := by
    rw [← List.append_assoc]
    rfl
  rw [htrace, sentFrames_append hconnected, List.any_append, hconnected]
  simp [sentFrames, Effect.frame?, Effect.isHangUp]

theorem orderly_handle (m : Machine σ) (h : s.Orderly frames) (hfinal : s.final = none)
    (hidle : s.handler = none) {message : Incoming} {rest : List Incoming}
    (hqueue : s.queue = message :: rest) :
    ({ s with queue := rest }.handle m message).Orderly frames := by
  have hgoing := h.going hfinal
  obtain ⟨handled, ids, current, hsplit, hexit, hids, hanswered, hoccupied⟩ := hgoing.account
  have hmeets := s.terms.react_meets message
  rw [hidle] at hoccupied
  cases hoccupied
  rw [Option.toList_none, List.append_nil] at hids
  rw [hqueue, List.append_cons] at hsplit
  have hstill : message.isExit = false → ∀ x ∈ handled ++ [message], x.isExit = false := by
    intro hmessage x hx
    rcases List.mem_append.mp hx with hx | hx
    . exact hexit x hx
    . rw [List.mem_singleton.mp hx, hmessage]
  unfold handle
  dsimp only
  generalize s.terms.react message = reacted at hmeets
  rcases reacted with ⟨terms, reaction⟩
  cases hmeets with
  | @answer id params method job hjob =>
    have hframe : ∀ reply : Reply, Closes (some id) (some (reply.toJson id)) :=
      fun reply => ⟨reply, rfl⟩
    have hadvanced := begin_advanced m { s with queue := rest, terms } hjob hframe
    have hworks := works_advance m ((job s.world).bind fun reply w => .done w (some (reply.toJson id)))
      { s with queue := rest, terms }
    dsimp only
    generalize advance m _ { s with queue := rest, terms } = advanced at hadvanced hworks ⊢
    refine ⟨?_, ?_, ?_, fun hend => absurd (hworks.keeps.final.trans hfinal) hend⟩
    . rw [hworks.keeps.beside]
      exact h.beside
    . rw [hworks.postings]
      exact h.postings
    . intro _
      refine attends_of_advanced hgoing.connected ?_ (hstill rfl) ?_ hanswered hadvanced rfl rfl
      . rw [hworks.queue]
        exact hsplit
      . rw [List.filterMap_append, hids]
        rfl
  | @work _ job beside hrequest hexit' hjob hbeside =>
    obtain ⟨gone, hjob⟩ := hjob
    have hframe : Unit → Closes none none := fun _ => rfl
    have hadvanced := begin_advanced m { s with queue := rest, terms } hjob hframe
    have hworks := works_advance m ((job s.world).bind fun _ w => .done w none)
      { s with queue := rest, terms }
    dsimp only
    generalize advance m _ { s with queue := rest, terms } = advanced at hadvanced hworks ⊢
    refine ⟨?_, ?_, ?_, fun hend => absurd (hworks.keeps.final.trans hfinal) hend⟩
    . rw [hworks.keeps.beside]
      intro b hb
      rcases List.mem_append.mp hb with hb | hb
      . exact h.beside b hb
      . obtain ⟨job, hjob, heq⟩ := List.mem_map.mp hb
        rw [← heq]
        exact answers_waitingToBegin (hbeside job hjob)
    . rw [hworks.postings]
      exact h.postings
    . intro _
      refine attends_of_advanced hgoing.connected ?_ (hstill hexit') ?_ hanswered hadvanced rfl rfl
      . rw [hworks.queue]
        exact hsplit
      . rw [List.filterMap_append, hids, List.filterMap_cons_none hrequest]
        rfl
  | @finish _ final hexit' =>
    obtain ⟨hup, hresponses⟩ :=
      @finish_gone σ { s with queue := rest, terms } m final hgoing.connected
    refine ⟨h.beside, h.postings, nofun, fun _ => ⟨hup, ?_⟩⟩
    rw [hresponses]
    apply hgoing.answered hidle
    rw [hqueue, Incoming.asked, hexit']
    rfl

theorem take_queue (s : Session σ) (frame : Json) :
    (s.take frame).queue = s.queue ++ (Incoming.queued? frame).toList := by
  unfold take Incoming.queued?
  cases Incoming.ofJson? frame with
  | none =>
    cases Incoming.id? frame with
    | none => exact (List.append_nil _).symm
    | some id => exact (List.append_nil _).symm
  | some message =>
    cases message with
    | reply id body => exact (List.append_nil _).symm
    | request id method params => rfl
    | notice method params => rfl

theorem take_postings (s : Session σ) (frame : Json) : (s.take frame).postings = s.postings := by
  unfold take
  split
  . rfl
  . rfl
  . split
    . rfl
    . rfl

/-- A frame that is read is refused if it is malformed, and not responded to otherwise. -/
theorem take_refuses (s : Session σ) (frame : Json) :
    ∃ refusals, s.world.Sends refusals (s.take frame).world
      ∧ List.Forall₂ Json.Refuses refusals frame.malformedId?.toList := by
  rw [Incoming.malformedId?_eq]
  unfold take
  cases Incoming.ofJson? frame with
  | none =>
    cases Incoming.id? frame with
    | none => exact ⟨[], .refl _, .nil⟩
    | some id => exact ⟨[_], ⟨[_], rfl, rfl, rfl⟩, .cons ⟨⟨rfl, rfl⟩, rfl⟩ .nil⟩
  | some message =>
    cases message with
    | reply id body => exact ⟨[], .refl _, .nil⟩
    | request id method params => exact ⟨[], .refl _, .nil⟩
    | notice method params => exact ⟨[], .refl _, .nil⟩

theorem orderly_take (h : s.Orderly frames) (hfinal : s.final = none) (frame : Json) :
    (s.take frame).Orderly (frames ++ [frame]) := by
  have hgoing := h.going hfinal
  obtain ⟨handled, ids, current, hsplit, hexit, hids, hanswered, hoccupied⟩ := hgoing.account
  have hkept := keeps_take s frame
  obtain ⟨refusals, hsends, hrefuses⟩ := take_refuses s frame
  obtain ⟨hresponses, hconnected⟩ := hsends.responses hgoing.connected
  refine ⟨?_, ?_, fun _ => ⟨hconnected, handled, ids, current, ?_, hexit, hids, ?_, ?_⟩,
    fun hend => absurd (hkept.final.trans hfinal) hend⟩
  . rw [hkept.beside]
    exact h.beside
  . rw [take_postings]
    exact h.postings
  . rw [take_queue, List.filterMap_append, hsplit, List.append_assoc]
    cases hmessage : Incoming.queued? frame with
    | none => rw [List.filterMap_cons_none hmessage]; rfl
    | some message => rw [List.filterMap_cons_some hmessage]; rfl
  . rw [hresponses, Json.malformedIds, List.filterMap_append]
    cases hid : frame.malformedId? with
    | none =>
      rw [hid] at hrefuses
      cases hrefuses
      rw [List.filterMap_cons_none hid, List.filterMap_nil, List.append_nil, List.append_nil]
      exact hanswered
    | some id =>
      rw [hid] at hrefuses
      rw [List.filterMap_cons_some hid, List.filterMap_nil]
      rcases hrefuses with _ | ⟨hrefuses, ⟨⟩⟩
      exact hanswered.refuse hrefuses
  . rw [hkept.handler]
    exact hoccupied

theorem workBeside_quiet (m : Machine σ) {bs : List Blocked} (hbs : ∀ b ∈ bs, b.Answers none)
    (hbeside : ∀ b ∈ s.beside, b.Answers none) :
    s.world.Sends [] (workBeside m bs s).world
      ∧ (∀ b ∈ (workBeside m bs s).beside, b.Answers none)
      ∧ (workBeside m bs s).postings = s.postings := by
  induction bs generalizing s with
  | nil => exact ⟨.refl _, hbeside, rfl⟩
  | cons b bs ih =>
    have hadvanced := resume_advanced m s (hbs b (.head _))
    have hworks := works_resume m b s
    unfold workBeside
    generalize resume m b s = advanced at hadvanced hworks
    have hstill := hworks.keeps.beside
    have hpostings := hworks.postings
    have hrest := fun b hb => hbs b (.tail _ hb)
    cases hadvanced with
    | @waits s' b' hb hs =>
      obtain ⟨hsends, hothers, hkept⟩ := @ih { s' with beside := s'.beside ++ [b'] } hrest (by
        rw [hstill]
        intro d hd
        rcases List.mem_append.mp hd with hd | hd
        . exact hbeside d hd
        . rw [List.mem_singleton.mp hd]
          exact hb)
      exact ⟨hs.trans hsends, hothers, hkept.trans hpostings⟩
    | @ends s' frame hframe hs =>
      cases hframe
      obtain ⟨hsends, hothers, hkept⟩ := @ih { s' with beside := s'.beside ++ [] } hrest (by
        rw [hstill, List.append_nil]
        exact hbeside)
      exact ⟨hs.trans hsends, hothers, hkept.trans hpostings⟩

/-- Nothing but news is sent, or left to be sent later. -/
structure Quiet (s s' : Session σ) : Prop where
  sends : s.world.Sends [] s'.world
  postings : (∀ p ∈ s.postings, p.IsNews) → ∀ p ∈ s'.postings, p.IsNews

theorem Quiet.trans {s'' : Session σ} (h : Quiet s s') (h' : Quiet s' s'') : Quiet s s'' :=
  ⟨h.sends.trans h'.sends, fun hp => h'.postings (h.postings hp)⟩

theorem quiet_post {ps : List Posting} (hps : ∀ p ∈ ps, p.IsNews) (s : Session σ) :
    Quiet s (post ps s) := by
  induction ps generalizing s with
  | nil => exact ⟨.refl _, fun hp => hp⟩
  | cons p ps ih =>
    obtain ⟨heffects, hrest⟩ := (hps p (.head _)).ready
    rw [post]
    refine Quiet.trans ?_ (ih (fun p hp => hps p (.tail _ hp)) _)
    refine ⟨s.world.sends_emitAll heffects, ?_⟩
    intro hpostings q hq
    dsimp only at hq
    split at hq
    . exact hpostings q hq
    . rcases List.mem_append.mp hq with hq | hq
      . exact hpostings q hq
      . rw [List.mem_singleton.mp hq]
        exact hrest

theorem quiet_deliver (m : Machine σ) (fuel : Nat) (s : Session σ) : Quiet s (deliver m fuel s) := by
  induction fuel generalizing s with
  | zero => exact ⟨.refl _, fun hp => hp⟩
  | succ fuel ih =>
    have hdisk : ∀ disk, s.world.Sends [] { s.world with disk } := fun _ => .of_eq rfl
    rw [deliver]
    dsimp only
    split
    . exact ⟨hdisk _, fun hp => hp⟩
    . next generation e _ =>
      refine Quiet.trans ?_ (ih _)
      exact ⟨(hdisk _).trans (World.sends_receive _ generation e), fun hp => hp⟩
    . next generation _ =>
      refine Quiet.trans ?_ ((quiet_post ?_ _).trans (ih _))
      . exact ⟨(hdisk _).trans (World.sends_endRun _ generation), fun hp => hp⟩
      . intro p hp
        rw [List.mem_singleton.mp hp]
        exact Posting.isNews_start _ (World.isNews_endRun _ generation)

namespace Dialogue

variable {disk : Disk} {rules : CopyRules} {defaults : Settings} {machine : σ}

theorem orderly (h : Dialogue m (.start (.start disk rules defaults) machine) frames s) :
    s.Orderly frames := by
  induction h with
  | start =>
    refine ⟨by simp [Session.start], by simp [Session.start], fun _ => ⟨rfl, ?_⟩, fun hend => absurd rfl hend⟩
    exact ⟨[], [], none, rfl, by simp, rfl, ⟨[], [], .nil, .nil, .nil⟩, rfl⟩
  | @receive frames s h bytes ih =>
    unfold Session.receive
    split
    . exact ih
    . exact ih.quietly rfl rfl rfl (.refl _) ih.beside ih.postings
  | close h ih => exact ih.quietly rfl rfl rfl (.refl _) ih.beside ih.postings
  | @take frames s body rest h hfinal _ _ ih =>
    apply @orderly_take σ { s with input := rest }
    . exact ih.quietly rfl rfl rfl (.refl _) ih.beside ih.postings
    . exact hfinal
  | deafen h _ ih => exact ih.quietly rfl rfl rfl (.refl _) ih.beside ih.postings
  | handle h hfinal hidle hqueue ih => exact orderly_handle m ih hfinal hidle hqueue
  | @finish frames s h hfinal hidle hqueue _ ih =>
    have hgoing := ih.going hfinal
    obtain ⟨hup, hresponses⟩ := finish_gone m .inputClosed hgoing.connected
    refine ⟨ih.beside, ih.postings, nofun, fun _ => ⟨hup, ?_⟩⟩
    rw [hresponses]
    exact hgoing.answered hidle (by rw [hqueue]; rfl)
  | @resume frames s b h hfinal hhandler ih =>
    have hgoing := ih.going hfinal
    obtain ⟨handled, ids, current, hsplit, hexit, hids, hanswered, hoccupied⟩ := hgoing.account
    rw [hhandler] at hoccupied
    have hadvanced := resume_advanced m s hoccupied
    have hworks := works_resume m b s
    refine ⟨?_, ?_, ?_, fun hend => absurd (hworks.keeps.final.trans hfinal) hend⟩
    . rw [hworks.keeps.beside]
      exact ih.beside
    . rw [hworks.postings]
      exact ih.postings
    . intro _
      refine attends_of_advanced hgoing.connected ?_ hexit hids hanswered hadvanced rfl rfl
      rw [hworks.queue]
      exact hsplit
  | @workBeside frames s h ih =>
    obtain ⟨_, hfinal, hhandler, _⟩ := workBeside_keeps m s.beside { s with beside := [] }
    obtain ⟨hsends, hbeside, hpostings⟩ := @workBeside_quiet σ { s with beside := [] } m s.beside
      ih.beside (by simp)
    refine ih.quietly (workBeside_queue m s.beside { s with beside := [] }) hhandler hfinal hsends
      hbeside ?_
    rw [hpostings]
    exact ih.postings
  | @post frames s h ih =>
    have htells := tells_post (s.postings.map Posting.elapse) { s with postings := [] }
    have hnews : ∀ p ∈ s.postings.map Posting.elapse, p.IsNews := by
      intro p hp
      obtain ⟨p', hp', heq⟩ := List.mem_map.mp hp
      rw [← heq]
      exact (ih.postings p' hp').elapse
    have hquiet := quiet_post hnews { s with postings := [] }
    refine ih.quietly htells.queue htells.keeps.handler htells.keeps.final hquiet.sends ?_
      (hquiet.postings (by simp))
    rw [htells.keeps.beside]
    exact ih.beside
  | @deliver frames s h fuel ih =>
    have htells := tells_deliver m fuel s
    have hquiet := quiet_deliver m fuel s
    refine ih.quietly htells.queue htells.keeps.handler htells.keeps.final hquiet.sends ?_
      (hquiet.postings ih.postings)
    rw [htells.keeps.beside]
    exact ih.beside
  | tick h ih => exact ih.quietly rfl rfl rfl (.refl _) ih.beside ih.postings

/-- Every request that was read before the notice to exit gets one response with its id, and these
responses keep the order of the requests. Every malformed frame with an id gets one refusal with this
id, and there are no other responses. While the session goes on the first requests have their
responses; some time after the last frame all of them do. -/
theorem one_response_each (h : Dialogue m (.start (.start disk rules defaults) machine) frames s) :
    (∃ ids, ids <+: Json.requestIds frames
        ∧ Json.Answered ids (Json.malformedIds frames) (s.frames.filter Json.isResponse))
      ∧ ∃ n, ∀ k, n ≤ k →
        Json.Answered (Json.requestIds frames) (Json.malformedIds frames)
          ((s.pass m k).frames.filter Json.isResponse) := by
  constructor
  . have horderly := h.orderly
    by_cases hfinal : s.final = none
    . exact (horderly.going hfinal).requests
    . exact ⟨_, List.prefix_refl _, (horderly.gone hfinal).2⟩
  . obtain ⟨n, hn⟩ := h.comes_to_rest
    refine ⟨n, ?_⟩
    intro k hk
    obtain ⟨hqueue, hidle⟩ := hn k hk
    have horderly := (h.pass k).orderly
    by_cases hfinal : (s.pass m k).final = none
    . exact (horderly.going hfinal).answered hidle (by rw [hqueue]; rfl)
    . exact (horderly.gone hfinal).2

/-- A request that comes too early, a frame that is no message, and the notice to exit. -/
def hastyFrames : List Json :=
  [.object [("id", .ofNat 7), ("method", .string "shutdown")], .object [("id", .ofNat 8)],
    .object [("method", .string "exit")]]

theorem one_response_each_hasty :
    ∃ s, Dialogue Processes.machine briefStart hastyFrames s
      ∧ ∃ n, ∀ k, n ≤ k → Json.Answered [.ofNat 7] [.ofNat 8]
        ((s.pass Processes.machine k).frames.filter Json.isResponse) := by
  have hframable : ∀ m ∈ hastyFrames, Framable m := by
    intro m hm
    simp only [hastyFrames, List.mem_cons, List.not_mem_nil, or_false] at hm
    rcases hm with rfl | rfl | rfl
    . exact ⟨by with_unfolding_all rfl, by decide⟩
    . exact ⟨by with_unfolding_all rfl, by decide⟩
    . exact ⟨by with_unfolding_all rfl, by decide⟩
  have hstart : Dialogue Processes.machine briefStart [] briefStart := .start
  have hfirst := ((hstart.receive (hastyFrames.flatMap writeFrame)).close).take rfl rfl
    (readFrame_writeFrame (hframable _ (.head _)) _)
  have hsecond := hfirst.take rfl rfl
    (readFrame_writeFrame (hframable _ (.tail _ (.head _))) _)
  have hthird := hsecond.take rfl rfl
    (readFrame_writeFrame (hframable _ (.tail _ (.tail _ (.head _)))) [])
  have hall := (hthird.handle rfl rfl rfl).handle rfl rfl rfl
  exact ⟨_, hall, hall.one_response_each.2⟩

end Dialogue

end Session

end InkServer
