import InkServer.Proofs.Session.Dialogue

/-!
This module contains the crew of a session, which are the jobs that were begun and wait, and the proof
that what every one of them keeps when it goes on is kept by a dialogue.
-/

namespace InkServer

namespace World

variable {w v : World}

/-- Nothing was done about the copies. -/
structure Abides (w v : World) : Prop where
  registry : v.registry = w.registry
  settles : v.settles = w.settles

theorem Abides.trans {x : World} (h : w.Abides v) (h' : v.Abides x) : w.Abides x :=
  ⟨h'.registry.trans h.registry, h'.settles.trans h.settles⟩

theorem abides_receive (w : World) (generation : Nat) (e : RunEvent) :
    w.Abides (w.receive generation e) := by
  unfold receive
  split
  . exact ⟨rfl, rfl⟩
  . exact ⟨rfl, rfl⟩

theorem abides_endRun (w : World) (generation : Nat) : w.Abides (w.endRun generation).1 := by
  unfold endRun
  split
  . exact ⟨rfl, rfl⟩
  . unfold conclude
    split
    . exact ⟨rfl, rfl⟩
    . exact ⟨rfl, rfl⟩

end World

namespace Session

variable {σ : Type} {m : Machine σ} {s s' : Session σ} {b : Blocked} {bs : List Blocked}
  {P : Session σ → List Blocked → Prop}

def crew (s : Session σ) : List Blocked :=
  s.handler.toList ++ s.beside

/-- Nobody went on. -/
structure Stays (s s' : Session σ) : Prop where
  queue : s'.queue = s.queue
  handler : s'.handler = s.handler
  beside : s'.beside = s.beside
  pending : s'.pending = s.pending
  clock : s'.clock = s.clock
  abides : s.world.Abides s'.world

theorem Stays.refl (s : Session σ) : Stays s s :=
  ⟨rfl, rfl, rfl, rfl, rfl, rfl, rfl⟩

theorem Stays.trans {s'' : Session σ} (h : Stays s s') (h' : Stays s' s'') : Stays s s'' :=
  ⟨h'.queue.trans h.queue, h'.handler.trans h.handler, h'.beside.trans h.beside,
    h'.pending.trans h.pending, h'.clock.trans h.clock, h.abides.trans h'.abides⟩

theorem Stays.crew (h : Stays s s') : s'.crew = s.crew := by
  rw [Session.crew, Session.crew, h.handler, h.beside]

theorem stays_post (ps : List Posting) (s : Session σ) : Stays s (post ps s) := by
  induction ps generalizing s with
  | nil => exact .refl s
  | cons p ps ih =>
    rw [post]
    refine Stays.trans ?_ (ih _)
    exact ⟨rfl, rfl, rfl, rfl, rfl, rfl, rfl⟩

theorem stays_deliver (m : Machine σ) (fuel : Nat) (s : Session σ) : Stays s (deliver m fuel s) := by
  induction fuel generalizing s with
  | zero => exact .refl s
  | succ fuel ih =>
    rw [deliver]
    dsimp only
    split
    . exact ⟨rfl, rfl, rfl, rfl, rfl, rfl, rfl⟩
    . next generation e _ =>
      have hworld := fun disk => World.abides_receive { s.world with disk } generation e
      refine Stays.trans ?_ (ih _)
      exact ⟨rfl, rfl, rfl, rfl, rfl, (hworld _).registry, (hworld _).settles⟩
    . next generation _ =>
      have hworld := fun disk => World.abides_endRun { s.world with disk } generation
      refine Stays.trans ?_ ((stays_post _ _).trans (ih _))
      exact ⟨rfl, rfl, rfl, rfl, rfl, (hworld _).registry, (hworld _).settles⟩

theorem workBeside_queue (m : Machine σ) (bs : List Blocked) (s : Session σ) :
    (workBeside m bs s).queue = s.queue := by
  induction bs generalizing s with
  | nil => rfl
  | cons b bs ih =>
    rw [workBeside, ih]
    exact (works_resume m b s).queue

/-- `P` holds of a session and the jobs that wait, whoever goes on. It depends on the copies, on the
requests to the editor and on the time. -/
structure Kept (m : Machine σ) (P : Session σ → List Blocked → Prop) : Prop where
  congr : ∀ {s s' : Session σ} {bs : List Blocked}, P s bs → s.world.Abides s'.world →
    s'.pending = s.pending → s'.clock = s.clock → P s' bs
  resolve : ∀ {s : Session σ} {bs : List Blocked}, P s bs →
    ∀ id body, P { s with pending := s.pending.resolve id body } bs
  tick : ∀ {s : Session σ} {bs : List Blocked}, P s bs → P { s with clock := s.clock + 1 } bs
  begins : ∀ {s : Session σ} {bs : List Blocked} {α : Type} {job : Job α} {gone : List String},
    P s bs → job.Made gone → ∀ frame : α → Option Json,
      P (advance m ((job s.world).bind fun a w => .done w (frame a)) s).1
        ((advance m ((job s.world).bind fun a w => .done w (frame a)) s).2.toList ++ bs)
  awaits : ∀ {s : Session σ} {bs : List Blocked} {job : Job Unit},
    P s bs → job.Made [] → P s (bs ++ [waitingToBegin job])
  resumes : ∀ {s : Session σ} {b : Blocked} {front back : List Blocked}, P s (front ++ b :: back) →
    P (resume m b s).1 (front ++ ((resume m b s).2.toList ++ back))

theorem Stays.kept (h : Stays s s') (hp : Kept m P) (hs : P s s.crew) : P s' s'.crew := by
  rw [h.crew]
  exact hp.congr hs h.abides h.pending h.clock

namespace Kept

theorem workBeside (hp : Kept m P) {front : List Blocked} (h : P s (front ++ (s.beside ++ bs))) :
    P (workBeside m bs s) (front ++ (workBeside m bs s).beside) := by
  induction bs generalizing s with
  | nil => rwa [List.append_nil] at h
  | cons b bs ih =>
    have hkept := (works_resume m b s).keeps.beside
    rw [← List.append_assoc] at h
    have hresumed := hp.resumes h
    unfold Session.workBeside
    generalize resume m b s = resumed at hkept hresumed
    apply ih
    refine hp.congr (s := resumed.1) ?_ ⟨rfl, rfl⟩ rfl rfl
    simpa [hkept] using hresumed

theorem awaitsAll (hp : Kept m P) {jobs : List (Job Unit)} (h : P s bs)
    (hjobs : ∀ job ∈ jobs, job.Made []) : P s (bs ++ jobs.map waitingToBegin) := by
  induction jobs generalizing bs with
  | nil => rwa [List.map_nil, List.append_nil]
  | cons job jobs ih =>
    have hrest := ih (hp.awaits h (hjobs job (.head _))) fun job hjob => hjobs job (.tail _ hjob)
    rwa [List.append_assoc, List.singleton_append] at hrest

theorem handle (hp : Kept m P) (h : P s s.crew) (hidle : s.handler = none) (message : Incoming) :
    P (s.handle m message) (s.handle m message).crew := by
  have hmeets := s.terms.react_meets message
  rw [crew, hidle] at h
  have hterms : ∀ terms, P { s with terms } s.beside := fun _ => hp.congr h ⟨rfl, rfl⟩ rfl rfl
  unfold Session.handle
  generalize s.terms.react message = reacted at hmeets
  rcases reacted with ⟨terms, reaction⟩
  cases hmeets with
  | @answer id params method job hjob =>
    have hbegun := hp.begins (hterms terms) hjob fun reply => some (reply.toJson id)
    have hkept := (works_advance m ((job s.world).bind fun reply w =>
      .done w (some (reply.toJson id))) { s with terms }).keeps.beside
    dsimp only [crew]
    rw [hkept]
    exact hp.congr hbegun ⟨rfl, rfl⟩ rfl rfl
  | @work _ job beside _ _ hjob hbeside =>
    obtain ⟨gone, hjob⟩ := hjob
    have hbegun := hp.begins (hterms terms) hjob fun _ => none
    have hkept := (works_advance m ((job s.world).bind fun _ w => .done w none)
      { s with terms }).keeps.beside
    dsimp only [crew]
    rw [hkept, ← List.append_assoc]
    exact hp.congr (hp.awaitsAll hbegun hbeside) ⟨rfl, rfl⟩ rfl rfl
  | finish _ => exact hp.congr h ⟨rfl, rfl⟩ rfl rfl

theorem take (hp : Kept m P) (h : P s s.crew) (frame : Json) :
    P (s.take frame) (s.take frame).crew := by
  unfold Session.take
  split
  . exact hp.resolve h _ _
  . exact hp.congr h ⟨rfl, rfl⟩ rfl rfl
  . split
    . exact hp.congr h ⟨rfl, rfl⟩ rfl rfl
    . exact h

end Kept

namespace Dialogue

variable {frames : List Json} {s₀ : Session σ} {disk : Disk} {rules : CopyRules}
  {defaults : Settings} {machine : σ}

/-- What is kept whoever goes on holds all along a dialogue. -/
theorem kept (h : Dialogue m s₀ frames s) (hp : Kept m P) (hstart : P s₀ s₀.crew) : P s s.crew := by
  induction h with
  | start => exact hstart
  | @receive frames s h bytes ih =>
    unfold Session.receive
    split
    . exact ih
    . exact hp.congr ih ⟨rfl, rfl⟩ rfl rfl
  | close h ih => exact hp.congr ih ⟨rfl, rfl⟩ rfl rfl
  | @take frames s body rest h _ _ _ ih =>
    exact @Kept.take _ _ { s with input := rest } _ hp (hp.congr ih ⟨rfl, rfl⟩ rfl rfl) body
  | deafen h _ ih => exact hp.congr ih ⟨rfl, rfl⟩ rfl rfl
  | @handle frames s message rest h _ hidle _ ih =>
    exact @Kept.handle _ _ { s with queue := rest } _ hp (hp.congr ih ⟨rfl, rfl⟩ rfl rfl) hidle message
  | finish h _ hidle _ _ ih =>
    rw [crew, hidle] at ih
    exact hp.congr ih ⟨rfl, rfl⟩ rfl rfl
  | @resume frames s b h _ hhandler ih =>
    rw [crew, hhandler] at ih
    have hresumed := @Kept.resumes σ m P hp s b [] s.beside ih
    rw [← (works_resume m b s).keeps.beside] at hresumed
    exact hp.congr hresumed ⟨rfl, rfl⟩ rfl rfl
  | @workBeside frames s h ih =>
    have hworked := @Kept.workBeside σ m { s with beside := [] } s.beside P hp s.handler.toList
      (hp.congr ih ⟨rfl, rfl⟩ rfl rfl)
    obtain ⟨_, _, hhandler, _⟩ := workBeside_keeps m s.beside { s with beside := [] }
    rw [crew, hhandler]
    exact hworked
  | @post frames s h ih =>
    exact (stays_post _ { s with postings := [] }).kept hp (hp.congr ih ⟨rfl, rfl⟩ rfl rfl)
  | @deliver frames s h fuel ih => exact (stays_deliver m fuel s).kept hp ih
  | tick h ih => exact hp.congr (hp.tick ih) ⟨rfl, rfl⟩ rfl rfl

/-- A session at its end has nothing left to handle. -/
theorem closed (h : Dialogue m (.start (.start disk rules defaults) machine) frames s)
    (hfinal : s.final ≠ none) : s.queue = [] ∧ s.handler = none := by
  induction h with
  | start => exact absurd rfl hfinal
  | @receive frames s h bytes ih =>
    unfold Session.receive at hfinal ⊢
    split
    . next hclosed =>
      rw [if_pos hclosed] at hfinal
      exact ih hfinal
    . next hclosed =>
      rw [if_neg hclosed] at hfinal
      exact ih hfinal
  | close h ih => exact ih hfinal
  | @take frames s body rest h hnone _ _ ih =>
    exact absurd ((keeps_take { s with input := rest } body).final.trans hnone) hfinal
  | deafen h _ ih => exact ih hfinal
  | @handle frames s message rest h hnone _ _ ih =>
    cases hexit : message.isExit with
    | true =>
      rw [Session.handle, Terms.react_of_isExit hexit]
      exact ⟨rfl, rfl⟩
    | false =>
      have hkept := handle_final m { s with queue := rest } message
      rw [hexit] at hkept
      exact absurd (hkept.trans hnone) hfinal
  | finish => exact ⟨rfl, rfl⟩
  | @resume frames s b h hnone _ ih =>
    exact absurd ((works_resume m b s).keeps.final.trans hnone) hfinal
  | @workBeside frames s h ih =>
    obtain ⟨_, hkept, hhandler, _⟩ := workBeside_keeps m s.beside { s with beside := [] }
    obtain ⟨hqueue, hidle⟩ := ih (by rwa [hkept] at hfinal)
    exact ⟨(workBeside_queue m s.beside { s with beside := [] }).trans hqueue, hhandler.trans hidle⟩
  | @post frames s h ih =>
    have htells := tells_post (s.postings.map Posting.elapse) { s with postings := [] }
    obtain ⟨hqueue, hidle⟩ := ih (by rwa [htells.keeps.final] at hfinal)
    exact ⟨htells.queue.trans hqueue, htells.keeps.handler.trans hidle⟩
  | @deliver frames s h fuel ih =>
    have htells := tells_deliver m fuel s
    obtain ⟨hqueue, hidle⟩ := ih (by rwa [htells.keeps.final] at hfinal)
    exact ⟨htells.queue.trans hqueue, htells.keeps.handler.trans hidle⟩
  | tick h ih => exact ih hfinal

end Dialogue

end Session

end InkServer
