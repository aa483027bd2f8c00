import InkServer.Proofs.Job.Stretch
import InkServer.Proofs.Session.Dialogue

/-!
This module contains what jobs send to the editor. On its way a job sends news and requests; only at
the end of the one that handles a request there is a response.
-/

namespace InkServer

namespace Effect

def isHangUp : Effect → Bool
  | hangUp => true
  | _ => false

/-- The effect neither sends a request or a response nor ends the connection. -/
def isNews : Effect → Bool
  | send _ => false
  | hangUp => false
  | _ => true

theorem isHangUp_of_isNews {e : Effect} (h : e.isNews = true) : e.isHangUp = false := by
  cases e with
  | hangUp => cases h
  | _ => rfl

theorem isNews_of_isOrdinary {e : Effect} (h : e.isOrdinary = true) : e.isNews = true := by
  cases e with
  | publish | send | hangUp => cases h
  | _ => rfl

end Effect

/-- The frame is a response: it has no method. -/
def Json.isResponse (frame : Json) : Bool :=
  (frame.get? "method").isNone

theorem Reply.isResponse_toJson (r : Reply) (id : Json) : (r.toJson id).isResponse = true := by
  cases r with
  | result value => rfl
  | error code message => rfl

section

variable {e : Effect} {es es' : List Effect}

theorem sentFrames_cons (h : e.isHangUp = false) (es : List Effect) :
    sentFrames (e :: es) = e.frame?.toList ++ sentFrames es := by
  cases e with
  | hangUp => cases h
  | _ => rfl

theorem sentFrames_append (h : es.any Effect.isHangUp = false) (es' : List Effect) :
    sentFrames (es ++ es') = sentFrames es ++ sentFrames es' := by
  induction es with
  | nil => rfl
  | cons e es ih =>
    rw [List.any_cons, Bool.or_eq_false_iff] at h
    rw [List.cons_append, sentFrames_cons h.1, sentFrames_cons h.1, ih h.2, List.append_assoc]

theorem sentFrames_append_of_isHangUp (h : es.any Effect.isHangUp = true) (es' : List Effect) :
    sentFrames (es ++ es') = sentFrames es := by
  induction es with
  | nil => cases h
  | cons e es ih =>
    cases he : e.isHangUp with
    | true =>
      cases e with
      | hangUp => rfl
      | _ => cases he
    | false =>
      rw [List.any_cons, he, Bool.false_or] at h
      rw [List.cons_append, sentFrames_cons he, sentFrames_cons he, ih h]

theorem isResponse_of_isNews {frame : Json} (h : e.isNews = true) (hframe : e.frame? = some frame) :
    frame.isResponse = false := by
  cases e with
  | publish | notify | message =>
    cases hframe
    rfl
  | send | hangUp => cases h
  | _ => cases hframe

end

theorem Delivery.isNews_receive (d : Delivery) (e : RunEvent) :
    ∀ x ∈ (d.receive e).1, x.isNews = true := by
  unfold receive
  split
  . simp [Effect.isNews]
  . split
    . simp
    . simp [Effect.isNews]
  . simp
  . simp

namespace World

variable {w v x : World} {rs rs' : List Json} {es : List Effect}

/-- From one state to the other the given responses are sent, and no others. -/
def Sends (rs : List Json) (w v : World) : Prop :=
  ∃ es, v.trace = w.trace ++ es ∧ es.any Effect.isHangUp = false
    ∧ (sentFrames es).filter Json.isResponse = rs

theorem Sends.of_eq (h : v.trace = w.trace) : w.Sends [] v :=
  ⟨[], by rw [h, List.append_nil], rfl, rfl⟩

theorem Sends.refl (w : World) : w.Sends [] w :=
  .of_eq rfl

theorem Sends.trans (h : w.Sends rs v) (h' : v.Sends rs' x) : w.Sends (rs ++ rs') x := by
  obtain ⟨es, htrace, hopen, hes⟩ := h
  obtain ⟨es', htrace', hopen', hes'⟩ := h'
  refine ⟨es ++ es', by rw [htrace', htrace, List.append_assoc], by simp [hopen, hopen'], ?_⟩
  rw [sentFrames_append hopen, List.filter_append, hes, hes']

theorem sends_emitAll (w : World) (h : ∀ e ∈ es, e.isNews = true) : w.Sends [] (w.emitAll es) := by
  refine ⟨es, rfl, ?_, ?_⟩
  . rw [List.any_eq_false]
    intro e he
    rw [Effect.isHangUp_of_isNews (h e he)]
    exact Bool.false_ne_true
  . induction es with
    | nil => rfl
    | cons e es ih =>
      have hnews := h e (.head _)
      rw [sentFrames_cons (Effect.isHangUp_of_isNews hnews), List.filter_append, ih fun e he => h e (.tail _ he)]
      cases hframe : e.frame? with
      | none => rfl
      | some frame => simp [isResponse_of_isNews hnews hframe]

def responses (w : World) : List Json :=
  (sentFrames w.trace).filter Json.isResponse

def isHungUp (w : World) : Bool :=
  w.trace.any Effect.isHangUp

theorem Sends.responses (h : w.Sends rs v) (hup : w.isHungUp = false) :
    v.responses = w.responses ++ rs ∧ v.isHungUp = false := by
  obtain ⟨es, htrace, hes, hrs⟩ := h
  unfold World.responses isHungUp at *
  rw [htrace, sentFrames_append hup, List.filter_append, hrs, List.any_append, hup, hes]
  exact ⟨rfl, rfl⟩

theorem Sends.responses_of_isHungUp (h : w.Sends rs v) (hup : w.isHungUp = true) :
    v.responses = w.responses ∧ v.isHungUp = true := by
  obtain ⟨es, htrace, _, _⟩ := h
  unfold World.responses isHungUp at *
  rw [htrace, sentFrames_append_of_isHangUp hup, List.any_append, hup]
  exact ⟨rfl, rfl⟩

theorem sends_work (w : World) (c : Caller) : w.Sends [] (w.work c).1 := by
  unfold work
  split
  . dsimp only
    split
    . exact .of_eq rfl
    . exact .refl w
  . exact .of_eq rfl
  . exact .refl w

theorem Alters.sends {gone : List String} (h : w.Alters gone v) : w.Sends [] v := by
  induction h with
  | refl w => exact .refl w
  | trans _ _ ih ih' => exact ih.trans ih'
  | @emit w e he =>
    apply w.sends_emitAll
    intro x hx
    rw [List.mem_singleton.mp hx]
    exact Effect.isNews_of_isOrdinary he
  | _ => exact .of_eq rfl

theorem sends_receive (w : World) (generation : Nat) (e : RunEvent) :
    w.Sends [] (w.receive generation e) := by
  unfold receive
  split
  . exact .refl w
  . next d _ => exact Sends.trans (.of_eq rfl) (sends_emitAll _ (d.isNews_receive e))

theorem sends_endRun (w : World) (generation : Nat) : w.Sends [] (w.endRun generation).1 := by
  unfold endRun
  split
  . exact .refl w
  . unfold conclude
    split
    . exact .of_eq rfl
    . exact .of_eq rfl

/-- What is left to tell at the end of a run is news. -/
theorem isNews_endRun (w : World) (generation : Nat) :
    ∀ e ∈ (w.endRun generation).2, e.isNews = true := by
  unfold endRun
  split
  . simp
  . unfold conclude
    split
    . simp
    . intro e he
      rcases List.mem_append.mp he with he | he
      . obtain ⟨_, _, heq⟩ := List.mem_map.mp he
        rw [← heq]
        rfl
      . obtain ⟨_, _, heq⟩ := List.mem_map.mp he
        rw [← heq]
        rfl

end World

theorem Job.Made.sends {α : Type} {job : Job α} {gone : List String} (h : job.Made gone) (w : World) :
    (job w).Spans (World.Sends []) w :=
  h.spans .refl World.Sends.trans World.Alters.sends (fun _ _ => .of_eq rfl) World.sends_work w

namespace Step

variable {α β : Type} {P : α → Prop}

/-- Whenever the job comes to its end, `P` holds of what it comes to. -/
def Ends (P : α → Prop) : Step α → Prop
  | done _ a => P a
  | ask _ _ k => ∀ answer w, Ends P (k answer w)

theorem ends_bind (t : Step β) {f : β → World → Step α} (h : ∀ b w, (f b w).Ends P) :
    (t.bind f).Ends P := by
  induction t with
  | done w b => exact h b w
  | ask w q k ih => exact fun answer w => ih answer w

end Step

/-- What the job that handles a message ends with: a response if the message is a request, which then
has the given id. -/
def Closes (id? frame : Option Json) : Prop :=
  match id? with
  | some id => ∃ reply : Reply, frame = some (reply.toJson id)
  | none => frame = none

theorem Closes.sends {id? frame : Option Json} (h : Closes id? frame) (w : World) :
    w.Sends frame.toList (w.emitAll (frame.toList.map .send)) := by
  refine ⟨_, rfl, ?_, ?_⟩
  . simp [Effect.isHangUp]
  . cases id? with
    | none =>
      cases h
      rfl
    | some id =>
      obtain ⟨reply, hreply⟩ := h
      rw [hreply]
      exact List.filter_cons_of_pos (reply.isResponse_toJson id)

/-- The job that waits will respond to the request with the given id, if any, and to nothing else. -/
structure Blocked.Answers (id? : Option Json) (b : Blocked) : Prop where
  spans : ∀ answer w, (b.next answer w).Spans (World.Sends []) w
  ends : ∀ answer w, (b.next answer w).Ends (Closes id?)

namespace Session

variable {σ : Type} {m : Machine σ} {s : Session σ} {id? : Option Json} {b : Blocked}
  {t : Step (Option Json)}

theorem sends_pose (m : Machine σ) (s : Session σ) (q : Query) :
    s.world.Sends [] (pose m s q).session.world := by
  obtain ⟨disk, request, h⟩ := pose_world m s q
  refine ⟨_, congrArg World.trace h, ?_, ?_⟩
  . simp [Effect.isHangUp]
  . cases request with
    | none => rfl
    | some request => rfl

/-- A job that was to respond to the request with the given id waits, or came to its end. -/
inductive Advanced (id? : Option Json) (w : World) : Session σ × Option Blocked → Prop where
  | waits {s : Session σ} {b : Blocked} (hb : b.Answers id?) (h : w.Sends [] s.world) :
    Advanced id? w (s, some b)
  | ends {s : Session σ} {frame : Option Json} (hframe : Closes id? frame)
    (h : w.Sends frame.toList s.world) : Advanced id? w (s, none)

theorem Advanced.after {w v : World} {advanced : Session σ × Option Blocked} (h : w.Sends [] v)
    (ha : Advanced id? v advanced) : Advanced id? w advanced := by
  cases ha with
  | waits hb hs => exact .waits hb (h.trans hs)
  | ends hframe hs => exact .ends hframe (h.trans hs)

theorem advance_advanced (m : Machine σ) (hspans : t.Spans (World.Sends []) s.world)
    (hends : t.Ends (Closes id?)) : Advanced id? s.world (advance m t s) := by
  induction t generalizing s with
  | done w frame => exact .after hspans (.ends hends (hends.sends w))
  | ask w q k ih =>
    have hposed := sends_pose m { s with world := w } q
    refine .after hspans.1 ?_
    rw [advance]
    split
    . next a s' heq =>
      rw [heq] at hposed
      exact .after hposed (ih a s'.world (hspans.2 a s'.world) (hends a s'.world))
    . next request s' heq =>
      rw [heq] at hposed
      exact .waits ⟨hspans.2, hends⟩ hposed

/-- A job is begun, and what it comes to is responded with. -/
theorem begin_advanced {α : Type} {job : Job α} {gone : List String} {frame : α → Option Json}
    (m : Machine σ) (s : Session σ) (hjob : job.Made gone) (hframe : ∀ a, Closes id? (frame a)) :
    Advanced id? s.world (advance m ((job s.world).bind fun a w => .done w (frame a)) s) := by
  apply advance_advanced
  . exact (hjob.sends s.world).bind World.Sends.trans fun _ w => World.Sends.refl w
  . exact Step.ends_bind _ fun a _ => hframe a

theorem resume_advanced (m : Machine σ) (s : Session σ) (hb : b.Answers id?) :
    Advanced id? s.world (resume m b s) := by
  rw [resume]
  split
  . next a s' heq =>
    rw [← world_answer? heq]
    exact advance_advanced m (hb.spans a s'.world) (hb.ends a s'.world)
  . exact .waits hb (.refl _)

end Session

end InkServer
