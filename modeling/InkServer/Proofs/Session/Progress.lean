import Mathlib.Logic.Hydra
import InkServer.Proofs.Session.Manning

/-!
This module contains the proof that a session comes to rest when no more input comes in. Whoever can
go on does so in every turn, and a job goes on only finitely often. As long as nobody can, some
request to the editor waits, and its time will be over.
-/

namespace InkServer

/-- The job comes to wait as `b`. -/
inductive Step.StopsAt (b : Blocked) : Step (Option Json) → Prop where
  | here (w : World) : StopsAt b (.ask w b.query b.next)
  | later {w u : World} {q : Query} {k : q.Answer → World → Step (Option Json)} {answer : q.Answer}
    (h : StopsAt b (k answer u)) : StopsAt b (.ask w q k)

namespace Blocked

/-- The job `b` can come to wait as `b'` when it goes on. -/
def Follows (b' b : Blocked) : Prop :=
  ∃ answer w, (b.next answer w).StopsAt b'

theorem wellFounded_follows : WellFounded Follows := by
  -- A job is a tree, and what follows a stop stands below it.
  have hacc : ∀ (t : Step (Option Json)) (b : Blocked), t.StopsAt b → Acc Follows b := by
    intro t
    induction t with
    | done w frame =>
      intro b h
      cases h
    | ask w q k ih =>
      intro b h
      cases h with
      | here =>
        constructor
        rintro b' ⟨answer, u, h⟩
        exact ih answer u b' h
      | later h => exact ih _ _ b h
  constructor
  intro b
  constructor
  rintro b' ⟨answer, w, h⟩
  exact hacc _ b' h

theorem cutExpand_of_follows {b : Blocked} {bs : List Blocked} (h : ∀ b' ∈ bs, b'.Follows b)
    (front back : List Blocked) :
    Relation.CutExpand Follows (↑(front ++ (bs ++ back)) : Multiset Blocked) ↑(front ++ b :: back) := by
  have hperm : ∀ mid, (↑(front ++ (mid ++ back)) : Multiset Blocked) = ↑(front ++ back) + ↑mid := by
    intro mid
    rw [Multiset.coe_add, Multiset.coe_eq_coe, List.append_assoc]
    exact List.perm_append_comm.append_left front
  have hone : front ++ b :: back = front ++ ([b] ++ back) := rfl
  rw [hone, hperm, hperm, Relation.cutExpand_add_left]
  exact Relation.cutExpand_singleton h

end Blocked

namespace Session

open Relation

variable {σ : Type} {m : Machine σ} {s s' s'' : Session σ} {b : Blocked} {bs : List Blocked}

/-- What is left to do: the messages, and for these the jobs. -/
def rank (s : Session σ) : Nat × Multiset Blocked :=
  (s.queue.length, s.crew)

/-- One step towards the end: a message is handled, or a job goes on. -/
def Drop : Nat × Multiset Blocked → Nat × Multiset Blocked → Prop :=
  Prod.Lex (· < ·) (CutExpand Blocked.Follows)

/-- Something was done, and less is left to do. -/
def Proceeds (s s' : Session σ) : Prop :=
  TransGen Drop s'.rank s.rank

theorem wellFounded_drop : WellFounded Drop :=
  wellFounded_lt.prod_lex Blocked.wellFounded_follows.cutExpand

theorem Proceeds.trans (h : Proceeds s s') (h' : Proceeds s' s'') : Proceeds s s'' :=
  TransGen.trans h' h

theorem proceeds_of_queue (h : s'.queue.length < s.queue.length) : Proceeds s s' :=
  .single (.left _ _ h)

theorem proceeds_of_crew (hqueue : s'.queue = s.queue)
    (h : TransGen (CutExpand Blocked.Follows) (s'.crew : Multiset Blocked) s.crew) :
    Proceeds s s' := by
  unfold Proceeds rank
  rw [hqueue]
  exact h.lift (fun crew => (s.queue.length, crew)) fun _ _ h => .right _ h

theorem Stays.rank (h : Stays s s') : s'.rank = s.rank := by
  rw [Session.rank, Session.rank, h.queue, h.crew]

theorem canResume_congr (hpending : s'.pending = s.pending) (hclock : s'.clock = s.clock)
    (hsettles : s'.world.settles = s.world.settles) (b : Blocked) :
    s'.canResume b = s.canResume b := by
  rcases b with ⟨q, request, next⟩
  cases q with
  | folders | settings | register => simp [canResume, answer?, result?, hpending, hclock]
  | settled seen =>
    simp only [canResume, answer?, hsettles]
    split
    . rfl
    . rfl
  | _ => rfl

theorem Stays.canResume (h : Stays s s') (b : Blocked) : s'.canResume b = s.canResume b :=
  canResume_congr h.pending h.clock h.abides.settles b

theorem Stays.proceeds (h : Stays s s') (h' : Proceeds s' s'') : Proceeds s s'' := by
  unfold Proceeds at h' ⊢
  rwa [h.rank] at h'

theorem Proceeds.stays (h : Proceeds s s') (h' : Stays s' s'') : Proceeds s s'' := by
  unfold Proceeds at h ⊢
  rwa [h'.rank]

/-- Nobody can go on, and no message can be handled. -/
structure Stuck (s : Session σ) : Prop where
  crew : ∀ b ∈ s.crew, s.canResume b = false
  queue : s.handler = none → s.queue = []

theorem Stuck.of_stays (h : Stays s s') (h' : s'.Stuck) : s.Stuck := by
  constructor
  . intro b hb
    rw [← h.canResume]
    apply h'.crew
    rwa [h.crew]
  . intro hidle
    rw [← h.queue]
    apply h'.queue
    rwa [h.handler]

theorem stopsAt_of_advance {t : Step (Option Json)} (h : (advance m t s).2 = some b) :
    t.StopsAt b := by
  induction t generalizing s with
  | done w frame => cases h
  | ask w q k ih =>
    rw [advance] at h
    split at h
    . next a s' heq => exact .later (ih a s'.world h)
    . next request s' heq =>
      cases h
      exact .here w

theorem resume_cases (m : Machine σ) (b : Blocked) (s : Session σ) :
    (s.canResume b = false ∧ resume m b s = (s, some b))
      ∨ (∀ b' ∈ (resume m b s).2.toList, b'.Follows b) := by
  unfold resume canResume
  cases heq : s.answer? b.request b.query with
  | none => exact .inl ⟨rfl, rfl⟩
  | some answered =>
    right
    intro b' hb'
    exact ⟨answered.1, answered.2.world, stopsAt_of_advance (by simpa using hb')⟩

/-- Jobs that are done beside the messages go on, unless none can. -/
theorem workBeside_cases (m : Machine σ) (front bs : List Blocked) (s : Session σ) :
    TransGen (CutExpand Blocked.Follows) (↑(front ++ (workBeside m bs s).beside) : Multiset Blocked)
        ↑(front ++ (s.beside ++ bs))
      ∨ workBeside m bs s = { s with beside := s.beside ++ bs } ∧ ∀ b ∈ bs, s.canResume b = false := by
  induction bs generalizing s with
  | nil =>
    right
    refine ⟨?_, by simp⟩
    rw [List.append_nil]
    rfl
  | cons b bs ih =>
    rw [workBeside]
    have hbeside := (works_resume m b s).keeps.beside
    rcases resume_cases m b s with ⟨hcan, heq⟩ | hfollows
    . rw [heq]
      rcases ih { s with beside := s.beside ++ [b] } with hless | ⟨hsame, hrest⟩
      . left
        simpa using hless
      . right
        refine ⟨by simpa using hsame, ?_⟩
        intro b' hb'
        rcases List.mem_cons.mp hb' with rfl | hb'
        . exact hcan
        . have hcongr := @canResume_congr σ s { s with beside := s.beside ++ [b] } rfl rfl rfl b'
          exact hcongr.symm.trans (hrest b' hb')
    . left
      have hdrop := Blocked.cutExpand_of_follows hfollows (front ++ s.beside) bs
      generalize resume m b s = resumed at hbeside hdrop
      have hfirst : TransGen (CutExpand Blocked.Follows)
          (↑(front ++ (resumed.1.beside ++ resumed.2.toList ++ bs)) : Multiset Blocked)
          ↑(front ++ (s.beside ++ b :: bs)) := by
        apply TransGen.single
        simpa [hbeside] using hdrop
      rcases resumed with ⟨s', b?⟩
      rcases ih { s' with beside := s'.beside ++ b?.toList } with hless | ⟨hsame, _⟩
      . exact hless.trans hfirst
      . dsimp only
        rw [hsame]
        exact hfirst

theorem beside_cases (m : Machine σ) (s : Session σ) :
    Proceeds s (workBeside m s.beside { s with beside := [] })
      ∨ workBeside m s.beside { s with beside := [] } = s
        ∧ ∀ b ∈ s.beside, s.canResume b = false := by
  obtain ⟨_, _, hhandler, _⟩ := workBeside_keeps m s.beside { s with beside := [] }
  rcases workBeside_cases m s.handler.toList s.beside { s with beside := [] }
    with hless | ⟨hsame, hrest⟩
  . left
    refine proceeds_of_crew (workBeside_queue m s.beside { s with beside := [] }) ?_
    rw [crew, hhandler]
    exact hless
  . right
    refine ⟨hsame, ?_⟩
    intro b hb
    have hcongr := @canResume_congr σ s { s with beside := [] } rfl rfl rfl b
    exact hcongr.symm.trans (hrest b hb)

theorem length_handleAll (m : Machine σ) (message : Incoming) (messages : List Incoming)
    (s : Session σ) : (handleAll m (message :: messages) s).queue.length ≤ messages.length := by
  induction messages generalizing message s with
  | nil =>
    rw [handleAll]
    split
    . rw [handle_queue]
      split
      . exact Nat.le_refl _
      . exact Nat.le_refl _
    . rw [handleAll]
      split
      . exact Nat.le_refl _
      . exact Nat.le_refl _
  | cons next messages ih =>
    rw [handleAll]
    split
    . rw [handle_queue]
      split
      . exact Nat.zero_le _
      . exact Nat.le_refl _
    . exact Nat.le_succ_of_le (ih next _)

theorem stays_handleAll_nil (m : Machine σ) (hqueue : s.queue = []) (hidle : s.handler = none) :
    Stays s (handleAll m [] s) := by
  rw [handleAll]
  split
  . exact ⟨hqueue.symm, hidle.symm, rfl, rfl, rfl, rfl, rfl⟩
  . exact ⟨hqueue.symm, rfl, rfl, rfl, rfl, rfl, rfl⟩

theorem work_cases (m : Machine σ) (hclosed : s.final ≠ none → s.queue = [] ∧ s.handler = none) :
    Proceeds s (s.work m)
      ∨ Stays s (s.work m) ∧ (∀ b ∈ s.handler.toList, s.canResume b = false)
        ∧ (s.handler = none → s.queue = []) := by
  rw [work]
  split
  . next hfinal =>
    obtain ⟨hqueue, hidle⟩ := hclosed (by simpa [Option.isSome_iff_ne_none] using hfinal)
    exact .inr ⟨.refl s, by simp [hidle], fun _ => hqueue⟩
  . split
    . next hidle =>
      cases hqueue : s.queue with
      | nil => exact .inr ⟨stays_handleAll_nil m hqueue hidle, by simp [hidle], fun _ => rfl⟩
      | cons message messages =>
        left
        apply proceeds_of_queue
        rw [hqueue]
        exact Nat.lt_succ_of_le (length_handleAll m message messages s)
    . next b hhandler =>
      have hworks := works_resume m b s
      rcases resume_cases m b s with ⟨hcan, heq⟩ | hfollows
      . rw [heq]
        right
        refine ⟨⟨rfl, hhandler.symm, rfl, rfl, rfl, rfl, rfl⟩, ?_, ?_⟩
        . simp [hhandler, hcan]
        . intro hidle
          rw [hidle] at hhandler
          cases hhandler
      . left
        have hdrop := Blocked.cutExpand_of_follows hfollows [] s.beside
        have hcrew : s.crew = b :: s.beside := by simp [crew, hhandler]
        rw [← hworks.keeps.beside] at hdrop hcrew
        split
        . next s' b' heq =>
          rw [heq] at hworks hdrop hcrew
          refine proceeds_of_crew hworks.queue ?_
          rw [hcrew]
          exact .single hdrop
        . next s' heq =>
          rw [heq] at hworks hdrop hcrew
          have hended : Proceeds s { s' with handler := none } := by
            refine proceeds_of_crew hworks.queue ?_
            rw [hcrew]
            exact .single hdrop
          cases hqueue : s'.queue with
          | nil => exact hended.stays (stays_handleAll_nil m hqueue rfl)
          | cons message messages =>
            apply proceeds_of_queue
            rw [← hworks.queue, hqueue]
            exact Nat.lt_succ_of_le (length_handleAll m message messages _)

/-- In a turn something is done, unless nobody can do anything. -/
theorem turn_cases (m : Machine σ) (hclosed : s.final ≠ none → s.queue = [] ∧ s.handler = none) :
    Proceeds s (s.turn m) ∨ Stays s (s.turn m) ∧ s.Stuck := by
  unfold turn
  dsimp only
  have hpost : Stays s (post (s.postings.map Posting.elapse) { s with postings := [] }) :=
    @Stays.trans σ s { s with postings := [] } _ ⟨rfl, rfl, rfl, rfl, rfl, rfl, rfl⟩ (stays_post _ _)
  have hfinal := (tells_post (s.postings.map Posting.elapse) { s with postings := [] }).keeps.final
  generalize post (s.postings.map Posting.elapse) { s with postings := [] } = s₁ at hpost hfinal
  have hclosed₁ : s₁.final ≠ none → s₁.queue = [] ∧ s₁.handler = none := by
    intro hend
    rw [hpost.queue, hpost.handler]
    exact hclosed (by rwa [hfinal] at hend)
  have hwork := work_cases m hclosed₁
  generalize s₁.work m = s₂ at hwork
  have hbeside := beside_cases m s₂
  generalize workBeside m s₂.beside { s₂ with beside := [] } = s₃ at hbeside
  have hdeliver := stays_deliver m deliveryLimit s₃
  rcases hwork with hwork | ⟨hwork, hhandler, hqueue⟩
  . left
    apply hpost.proceeds
    rcases hbeside with hbeside | ⟨rfl, _⟩
    . exact (hwork.trans hbeside).stays hdeliver
    . exact hwork.stays hdeliver
  . rcases hbeside with hbeside | ⟨rfl, hbeside⟩
    . left
      exact hpost.proceeds (hwork.proceeds (hbeside.stays hdeliver))
    . right
      refine ⟨(hpost.trans hwork).trans hdeliver, .of_stays hpost ⟨?_, hqueue⟩⟩
      intro b hb
      rcases List.mem_append.mp hb with hb | hb
      . exact hhandler b hb
      . rw [← hwork.canResume]
        apply hbeside
        rwa [hwork.beside]

theorem stuck_of_isIdle (hclosed : s.final ≠ none → s.queue = [] ∧ s.handler = none)
    (h : s.isIdle m = true) : s.Stuck := by
  simp only [isIdle, Bool.and_eq_true, Bool.not_eq_true', List.any_eq_false] at h
  obtain ⟨⟨⟨hquiet, hbeside⟩, _⟩, _⟩ := h
  constructor
  . intro b hb
    rcases List.mem_append.mp hb with hb | hb
    . have hhandler : s.handler = some b := by simpa using hb
      simpa [hhandler] using hquiet
    . simpa using hbeside b hb
  . intro hidle
    by_cases hfinal : s.final = none
    . simp [hidle, hfinal] at hquiet
      exact hquiet.1
    . exact (hclosed hfinal).1

variable {frames : List Json} {disk : Disk} {rules : CopyRules} {defaults : Settings} {machine : σ}

namespace Dialogue

theorem turns_cases (h : Dialogue m (.start (.start disk rules defaults) machine) frames s)
    (fuel : Nat) :
    Proceeds s (Session.turns m fuel s)
      ∨ Stays s (Session.turns m fuel s) ∧ (0 < fuel → s.Stuck) := by
  induction fuel generalizing s with
  | zero => exact .inr ⟨.refl s, fun hpos => absurd hpos (Nat.lt_irrefl 0)⟩
  | succ fuel ih =>
    rw [Session.turns]
    split
    . next hidle => exact .inr ⟨.refl s, fun _ => stuck_of_isIdle h.closed hidle⟩
    . rcases turn_cases m h.closed with hturn | ⟨hturn, hstuck⟩
      . left
        rcases ih h.turn with hrest | ⟨hrest, _⟩
        . exact hturn.trans hrest
        . exact hturn.stays hrest
      . rcases ih h.turn with hrest | ⟨hrest, _⟩
        . exact .inl (hturn.proceeds hrest)
        . exact .inr ⟨hturn.trans hrest, fun _ => hstuck⟩

end Dialogue

/-- All messages were handled. -/
def AtRest (s : Session σ) : Prop :=
  s.queue = [] ∧ s.handler = none

theorem lookup_of_complete?_eq_none {p : Pending} {id now : Nat} (h : p.complete? id now = none) :
    ∃ deadline, p.waiting.lookup id = some deadline ∧ now < deadline := by
  unfold Pending.complete? at h
  split at h
  . cases h
  . split at h
    . next deadline hlookup =>
      split at h
      . cases h
      . next hlate => exact ⟨deadline, hlookup, by omega⟩
    . cases h

/-- When nobody can go on, a request to the editor waits for its reply. -/
theorem Stuck.waits (hstuck : s.Stuck) (hmanned : s.world.Manned .none s.crew) (hrest : ¬s.AtRest) :
    ∃ b deadline, s.handler = some b ∧ s.pending.waiting.lookup b.request = some deadline
      ∧ s.clock < deadline := by
  cases hhandler : s.handler with
  | none => exact absurd ⟨hstuck.queue hhandler, hhandler⟩ hrest
  | some b =>
    have hcrew : s.crew = [] ++ b :: s.beside := by simp [Session.crew, hhandler]
    have hcan := hstuck.crew b (by simp [hcrew])
    have hfront : s.world.Manned .none ([] ++ b :: s.beside) := by rwa [hcrew] at hmanned
    obtain ⟨F, htends, _⟩ := hfront.pick
    rcases b with ⟨q, request, next⟩
    cases q with
    | folders | settings | register =>
      have hnone : s.pending.complete? request s.clock = none := by
        simpa [canResume, answer?, result?] using hcan
      obtain ⟨deadline, hlookup, hlate⟩ := lookup_of_complete?_eq_none hnone
      exact ⟨_, deadline, rfl, hlookup, hlate⟩
    | rest => cases hcan
    | settled seen =>
      -- The pass that the job waits for is in the hands of another one, which can go on.
      obtain ⟨_, hseen, hcopying⟩ := htends.suits
      have hnot : ¬seen < s.world.settles := by
        intro hlt
        simp [canResume, answer?, hlt] at hcan
      obtain ⟨u, hu⟩ := hcopying (by omega)
      obtain ⟨b, hb, work, hquery⟩ := hmanned.exists_rest hu
      have hgoes := hstuck.crew b hb
      rcases b with ⟨q, request, next⟩
      cases hquery
      cases hgoes
    | checkTool | start | submit | stop => cases htends.waits

theorem AtRest.of_stays (h : s.AtRest) (h' : Stays s s') : s'.AtRest :=
  ⟨h'.queue.trans h.1, h'.handler.trans h.2⟩

theorem AtRest.turn (h : s.AtRest) (m : Machine σ) : (s.turn m).AtRest := by
  have hpost : AtRest (Session.post (s.postings.map Posting.elapse) { s with postings := [] }) :=
    @AtRest.of_stays σ { s with postings := [] } _ h (stays_post _ _)
  have hwork : ∀ {s : Session σ}, s.AtRest → (s.work m).AtRest := by
    intro s h
    rw [Session.work]
    split
    . exact h
    . rw [h.1, h.2]
      exact h.of_stays (stays_handleAll_nil m h.1 h.2)
  have hbeside : ∀ {s : Session σ}, s.AtRest →
      (workBeside m s.beside { s with beside := [] }).AtRest := by
    intro s h
    obtain ⟨_, _, hhandler, _⟩ := workBeside_keeps m s.beside { s with beside := [] }
    exact ⟨(workBeside_queue m s.beside { s with beside := [] }).trans h.1, hhandler.trans h.2⟩
  exact (hbeside (hwork hpost)).of_stays (stays_deliver m deliveryLimit _)

theorem AtRest.tick (h : s.AtRest) (m : Machine σ) : (s.tick m).AtRest := by
  have hturns : ∀ (fuel : Nat) {s : Session σ}, s.AtRest → (Session.turns m fuel s).AtRest := by
    intro fuel
    induction fuel with
    | zero => exact id
    | succ fuel ih =>
      intro s h
      rw [Session.turns]
      split
      . exact h
      . exact ih (h.turn m)
  apply hturns
  refine AtRest.of_stays ?_ (stays_deliver m deliveryLimit _)
  exact h

theorem AtRest.pass (h : s.AtRest) (m : Machine σ) (n : Nat) : (s.pass m n).AtRest := by
  induction n generalizing s with
  | zero => exact h
  | succ n ih => exact ih (h.tick m)

theorem pass_add (m : Machine σ) (s : Session σ) (n k : Nat) :
    s.pass m (n + k) = (s.pass m n).pass m k := by
  induction n generalizing s with
  | zero => rw [Nat.zero_add, pass]
  | succ n ih =>
    rw [Nat.succ_add, pass, pass]
    exact ih (s.tick m)

namespace Dialogue

/-- A millisecond in which nothing is done is one in which a request waits for its reply. -/
theorem tick_cases (h : Dialogue m (.start (.start disk rules defaults) machine) frames s)
    (hrest : ¬s.AtRest) :
    Proceeds s (s.tick m)
      ∨ (s.tick m).rank = s.rank ∧ ¬(s.tick m).AtRest ∧ (s.tick m).handler = s.handler
        ∧ (s.tick m).pending = s.pending ∧ (s.tick m).clock = s.clock + 1
        ∧ ∃ b deadline, s.handler = some b ∧ s.pending.waiting.lookup b.request = some deadline
          ∧ s.clock + 1 < deadline := by
  have hdialogue := h.tick.deliver deliveryLimit
  have hdeliver := stays_deliver m deliveryLimit
    { s with clock := s.clock + 1, machine := m.tick s.machine }
  unfold Session.tick
  dsimp only
  generalize Session.deliver m deliveryLimit
    { s with clock := s.clock + 1, machine := m.tick s.machine } = s₁ at hdialogue hdeliver
  have hrank : s₁.rank = s.rank := hdeliver.rank
  rcases hdialogue.turns_cases turnLimit with hturns | ⟨hturns, hstuck⟩
  . left
    unfold Proceeds at hturns ⊢
    rwa [hrank] at hturns
  . right
    have hrest₁ : ¬s₁.AtRest := by
      rintro ⟨hqueue, hidle⟩
      exact hrest ⟨hdeliver.queue.symm.trans hqueue, hdeliver.handler.symm.trans hidle⟩
    obtain ⟨b, deadline, hhandler, hlookup, hlate⟩ :=
      (hstuck (by decide)).waits hdialogue.manned hrest₁
    refine ⟨hturns.rank.trans hrank, ?_, hturns.handler.trans hdeliver.handler,
      hturns.pending.trans hdeliver.pending, hturns.clock.trans hdeliver.clock, b, deadline, ?_⟩
    . rintro ⟨hqueue, hidle⟩
      exact hrest₁ ⟨hturns.queue.symm.trans hqueue, hturns.handler.symm.trans hidle⟩
    . rw [hdeliver.handler] at hhandler
      rw [hdeliver.pending] at hlookup
      rw [hdeliver.clock] at hlate
      exact ⟨hhandler, hlookup, hlate⟩

/-- As long as a session is not at rest, something will be done. -/
theorem exists_proceeds (h : Dialogue m (.start (.start disk rules defaults) machine) frames s)
    (hrest : ¬s.AtRest) : ∃ n, Proceeds s (s.pass m n) := by
  have htime : ∃ time, ∀ b deadline, s.handler = some b →
      s.pending.waiting.lookup b.request = some deadline → deadline ≤ s.clock + time := by
    cases hhandler : s.handler with
    | none => exact ⟨0, by simp⟩
    | some b =>
      refine ⟨(s.pending.waiting.lookup b.request).getD 0, ?_⟩
      rintro _ deadline ⟨⟩ hlookup
      rw [hlookup]
      exact Nat.le_add_left _ _
  obtain ⟨time, hbound⟩ := htime
  -- The induction is on the time that is left for the request that is waited for.
  induction time generalizing s with
  | zero =>
    rcases h.tick_cases hrest with hdone | ⟨_, _, _, _, _, b, deadline, hhandler, hlookup, hlate⟩
    . exact ⟨1, hdone⟩
    . have hover := hbound b deadline hhandler hlookup
      omega
  | succ time ih =>
    rcases h.tick_cases hrest with hdone | ⟨hrank, hrest', hhandler, hpending, hclock, _⟩
    . exact ⟨1, hdone⟩
    . obtain ⟨n, hn⟩ := ih h.passTick hrest' (by
        rw [hhandler, hpending, hclock]
        intro b deadline hb hlookup
        have hover := hbound b deadline hb hlookup
        omega)
      refine ⟨n + 1, ?_⟩
      unfold Proceeds at hn ⊢
      rwa [hrank] at hn

theorem comes_to_rest (h : Dialogue m (.start (.start disk rules defaults) machine) frames s) :
    ∃ n, ∀ k, n ≤ k → (s.pass m k).AtRest := by
  have hwf : WellFounded (TransGen Drop) := wellFounded_drop.transGen
  generalize hrank : s.rank = rank
  induction rank using hwf.induction generalizing s with
  | _ rank ih =>
    by_cases hrest : s.AtRest
    . exact ⟨0, fun k _ => hrest.pass m k⟩
    . obtain ⟨n, hn⟩ := h.exists_proceeds hrest
      obtain ⟨k, hk⟩ := ih _ (hrank ▸ hn) (h.pass n) rfl
      refine ⟨n + k, ?_⟩
      intro i hi
      have hsplit : i = n + (i - n) := by omega
      rw [hsplit, pass_add]
      exact hk _ (by omega)

end Dialogue

end Session

end InkServer
