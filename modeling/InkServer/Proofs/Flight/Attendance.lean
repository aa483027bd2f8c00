import InkServer.Proofs.Flight.Basic
import InkServer.Service.Ready

/-!
This module contains the proof that the jobs of the server which wait for copies take part in a
flight: whatever other jobs do while one is stopped, as long as that is a run, what the job does
between its stops is a run of its own callers.
-/

namespace InkServer

namespace Flight

variable {s t : Flight} {w : World} {c : Caller} {cs : List Caller} {i n k : Nat} {uri : String}
  {P : Nat → Prop}

/-- Callers with the property `P` lead from one state to the other. -/
def Does (P : Nat → Prop) (s t : Flight) : Prop :=
  ∃ es, Run s es t ∧ ∀ e ∈ es, ∃ i, e.actor? = some i ∧ P i

/-- Others than the callers with the property `P` lead from one state to the other. -/
def Others (P : Nat → Prop) (s t : Flight) : Prop :=
  ∃ es, Run s es t ∧ ∀ e ∈ es, ∀ i, e.actor? = some i → ¬P i

/-- The state of the server has the registry of the flight, and told those who wait as often. -/
structure Agrees (s : Flight) (w : World) : Prop where
  registry : s.registry = w.registry
  settles : s.settles = w.settles

/-- The callers from number `n` on are the given ones. -/
def Seats (s : Flight) (n : Nat) (cs : List Caller) : Prop :=
  ∀ (i : Nat) (c : Caller), cs[i]? = some c → s.callers[n + i]? = some c

def Among (n k i : Nat) : Prop :=
  n ≤ i ∧ i < n + k

theorem Does.refl : Does P s s :=
  ⟨[], .refl, by simp⟩

theorem Does.trans {v : Flight} (h : Does P s t) (h' : Does P t v) : Does P s v := by
  obtain ⟨es, hrun, hall⟩ := h
  obtain ⟨es', hrun', hall'⟩ := h'
  refine ⟨es' ++ es, hrun.append hrun', ?_⟩
  intro e he
  cases List.mem_append.mp he with
  | inl he => exact hall' e he
  | inr he => exact hall e he

theorem Does.mono {Q : Nat → Prop} (h : Does P s t) (hq : ∀ i, P i → Q i) : Does Q s t := by
  obtain ⟨es, hrun, hall⟩ := h
  refine ⟨es, hrun, ?_⟩
  intro e he
  obtain ⟨i, hi, hp⟩ := hall e he
  exact ⟨i, hi, hq i hp⟩

theorem Does.of_step {e : Event} (h : Step s e t) (hi : e.actor? = some i) (hp : P i) :
    Does P s t := by
  refine ⟨[e], .step .refl h, ?_⟩
  intro e' he
  rw [List.mem_singleton] at he
  exact ⟨i, by rw [he, hi], hp⟩

theorem not_among_succ : ¬Among (n + 1) k n := by
  unfold Among
  omega

theorem Does.among_head (h : Does (· = n) s t) : Does (Among n (k + 1)) s t := by
  apply h.mono
  intro i hi
  unfold Among
  omega

theorem Does.among_tail (h : Does (Among (n + 1) k) s t) : Does (Among n (k + 1)) s t := by
  apply h.mono
  intro i hi
  unfold Among at hi ⊢
  omega

theorem Run.caller_of_others {es : List Event} (h : Run s es t)
    (hi : ∀ e ∈ es, e.actor? ≠ some i) (hc : s.callers[i]? = some c) :
    t.callers[i]? = some c := by
  induction h with
  | refl => exact hc
  | step _ hs ih =>
    have hbefore := ih fun e he => hi e (.tail _ he)
    cases hs.others (hi _ (.head _)) with
    | inl heq => rw [heq, hbefore]
    | inr hnew =>
      obtain ⟨_, _, hnone, _⟩ := hnew
      simp [hbefore] at hnone

theorem Does.caller (h : Does P s t) (hi : ¬P i) (hc : s.callers[i]? = some c) :
    t.callers[i]? = some c := by
  obtain ⟨es, hrun, hall⟩ := h
  apply hrun.caller_of_others _ hc
  intro e he heq
  obtain ⟨j, hj, hp⟩ := hall e he
  rw [heq, Option.some.injEq] at hj
  rw [hj] at hi
  exact hi hp

theorem Others.seats (h : Others (Among n k) s t) (hk : cs.length = k) (hs : s.Seats n cs) :
    t.Seats n cs := by
  obtain ⟨es, hrun, hall⟩ := h
  intro i c hc
  have hi : i < cs.length := by
    rw [List.getElem?_eq_some_iff] at hc
    exact hc.1
  apply hrun.caller_of_others _ (hs i c hc)
  intro e he heq
  apply hall e he _ heq
  unfold Among
  omega

theorem does_advances (m : Nat) (hc : s.callers[i]? = some c) :
    ∃ t, Does (· = i) s t ∧ t.settles = s.settles
      ∧ t.registry = (c.advances s.settles m s.registry).2
      ∧ t.callers[i]? = some (c.advances s.settles m s.registry).1 := by
  induction m generalizing s c with
  | zero => exact ⟨s, .refl, rfl, rfl, hc⟩
  | succ m ih =>
    have hs := Step.advance hc
    have hactor := (c.advance_moves s.registry s.settles i).actor?_eq
    have hnext : (s.put i (c.advance s.registry s.settles)).callers[i]?
        = some (c.advance s.registry s.settles).1 := by
      rw [put_caller hc, if_pos rfl]
    obtain ⟨t, hd, hsettles, hregistry, hcaller⟩ := ih hnext
    exact ⟨t, .trans (.of_step hs hactor rfl) hd, hsettles, hregistry, hcaller⟩

theorem Seats.head (h : s.Seats n (c :: cs)) : s.callers[n]? = some c :=
  h 0 c rfl

theorem Seats.tail (h : s.Seats n (c :: cs)) : s.Seats (n + 1) cs := by
  intro i d hd
  rw [Nat.add_assoc, Nat.add_comm 1]
  exact h (i + 1) d hd

theorem Seats.cons (hc : s.callers[n]? = some c) (h : s.Seats (n + 1) cs) :
    s.Seats n (c :: cs) := by
  intro i d hd
  cases i with
  | zero =>
    rw [List.getElem?_cons_zero] at hd
    rw [Nat.add_zero, hc, hd]
  | succ i =>
    rw [List.getElem?_cons_succ] at hd
    rw [Nat.add_comm i, ← Nat.add_assoc]
    exact h i d hd

theorem Does.seats_tail (h : Does (· = n) s t) (hs : s.Seats (n + 1) cs) :
    t.Seats (n + 1) cs := by
  intro i c hc
  exact h.caller (by omega) (hs i c hc)

theorem does_moveAll (hs : s.Seats n cs) :
    ∃ t, Does (Among n cs.length) s t ∧ t.settles = s.settles
      ∧ t.registry = (Caller.moveAll s.settles cs s.registry).2
      ∧ t.Seats n (Caller.moveAll s.settles cs s.registry).1 := by
  induction cs generalizing s n with
  | nil =>
    refine ⟨s, .refl, rfl, rfl, ?_⟩
    intro i c hc
    simp [Caller.moveAll] at hc
  | cons c cs ih =>
    obtain ⟨t, hd, hsettles, hregistry, hcaller⟩ := does_advances 4 hs.head
    obtain ⟨v, hd', hsettles', hregistry', hseats⟩ := ih (hd.seats_tail hs.tail)
    rw [hsettles, hregistry] at hregistry' hseats
    refine ⟨v, hd.among_head.trans hd'.among_tail, by rw [hsettles', hsettles], hregistry', ?_⟩
    exact .cons (hd'.caller not_among_succ hcaller) hseats

theorem does_work (ha : s.Agrees w) (hc : s.callers[i]? = some c) :
    ∃ t, Does (· = i) s t ∧ t.Agrees (w.work c).1 ∧ t.callers[i]? = some (w.work c).2 := by
  unfold World.work
  split
  . next ws hp =>
    have hs := Step.check hc hp (ws.scratch.any w.disk.isFolder)
    have hnext : (s.put i (c.check ws (ws.scratch.any w.disk.isFolder), s.registry)).callers[i]?
        = some (c.check ws (ws.scratch.any w.disk.isFolder)) := by
      rw [put_caller hc, if_pos rfl]
    have hd : Does (· = i) s _ := .of_step hs rfl rfl
    dsimp only
    split
    . next scratch hmissing =>
      -- A caller that finds its folder gone gives it up at once.
      have hadvance : (c.check ws (ws.scratch.any w.disk.isFolder)).advance s.registry s.settles
          = (c.check ws (ws.scratch.any w.disk.isFolder)).giveUp scratch w.registry := by
        rw [Caller.advance, hmissing, ha.registry]
      have hs' := Step.advance hnext
      have hd' := Does.of_step (P := (· = i)) hs' (Caller.advance_moves _ _ _ _).actor?_eq rfl
      refine ⟨_, hd.trans hd', ⟨?_, ha.settles⟩, ?_⟩
      . exact congrArg Prod.snd hadvance
      . rw [put_caller hnext, if_pos rfl]
        exact congrArg (some ·.1) hadvance
    . exact ⟨_, hd, ⟨ha.registry, ha.settles⟩, hnext⟩
  . next root generation hp =>
    unfold World.copyPass
    dsimp only
    have hs := Step.settle hc hp
      (w.rules.createCopy (scratchName w.draws) root w.disk).2
    rw [ha.registry] at hs
    have hnext : (s.put i (c.settle generation
        (w.rules.createCopy (scratchName w.draws) root w.disk).2 w.registry)).callers[i]?
        = some (c.settle generation
          (w.rules.createCopy (scratchName w.draws) root w.disk).2 w.registry).1 := by
      rw [put_caller hc, if_pos rfl]
    have hs' := Step.tell hnext rfl
    refine ⟨_, .trans (.of_step hs rfl rfl) (.of_step hs' rfl rfl), ⟨rfl, ?_⟩, ?_⟩
    . rw [← ha.settles]
      rfl
    . dsimp only
      rw [put_caller hnext, if_pos rfl]
  . exact ⟨s, .refl, ha, hc⟩

theorem does_workFirst (ha : s.Agrees w) (hs : s.Seats n cs) :
    ∃ t, Does (Among n cs.length) s t ∧ t.Agrees (w.workFirst cs).1
      ∧ t.Seats n (w.workFirst cs).2 := by
  induction cs generalizing n with
  | nil => exact ⟨s, .refl, ha, hs⟩
  | cons c cs ih =>
    unfold World.workFirst
    split
    . obtain ⟨t, hd, ha', hc⟩ := does_work ha hs.head
      exact ⟨t, hd.among_head, ha', .cons hc (hd.seats_tail hs.tail)⟩
    . obtain ⟨t, hd, ha', hseats⟩ := ih hs.tail
      exact ⟨t, hd.among_tail, ha', .cons (hd.caller not_among_succ hs.head) hseats⟩

theorem does_workAll (ha : s.Agrees w) (hs : s.Seats n cs) :
    ∃ t, Does (Among n cs.length) s t ∧ t.Agrees (w.workAll cs).1
      ∧ t.Seats n (w.workAll cs).2 := by
  induction cs generalizing s w n with
  | nil => exact ⟨s, .refl, ha, hs⟩
  | cons c cs ih =>
    obtain ⟨t, hd, ha', hc⟩ := does_work ha hs.head
    obtain ⟨v, hd', hav, hseats⟩ := ih ha' (hd.seats_tail hs.tail)
    exact ⟨v, hd.among_head.trans hd'.among_tail, hav, .cons (hd'.caller not_among_succ hc) hseats⟩

end Flight

theorem Caller.length_moveAll (settles : Nat) (cs : List Caller) (r : Registry) :
    (moveAll settles cs r).1.length = cs.length := by
  induction cs generalizing r with
  | nil => rfl
  | cons c cs ih => exact congrArg (· + 1) (ih _)

theorem World.length_workFirst (w : World) (cs : List Caller) :
    (w.workFirst cs).2.length = cs.length := by
  induction cs with
  | nil => rfl
  | cons c cs ih =>
    unfold workFirst
    split
    . rfl
    . exact congrArg (· + 1) ih

namespace Flight

variable {α β : Type} {s t : Flight} {w : World} {cs : List Caller} {n k : Nat} {uri : String}
  {P : Nat → Prop}

/-- The job takes part in the flight as the callers with the property `P`: what it does up to a stop
is a run of them, and so it goes on after whatever run of others. -/
def Tracks (P : Nat → Prop) (Ends : Flight → World → α → Prop) :
    Flight → InkServer.Step α → Prop
  | s, .done w a => ∃ t, Does P s t ∧ t.Agrees w ∧ Ends t w a
  | s, .ask w _ next => ∃ t, Does P s t ∧ t.Agrees w
      ∧ ∀ t' answer w', Others P t t' → t'.Agrees w' → Tracks P Ends t' (next answer w')

theorem Tracks.of_does {Ends : Flight → World → α → Prop} {job : InkServer.Step α}
    (hd : Does P s t) (h : Tracks P Ends t job) : Tracks P Ends s job := by
  cases job with
  | done w a =>
    obtain ⟨v, hd', hrest⟩ := h
    exact ⟨v, hd.trans hd', hrest⟩
  | ask w q next =>
    obtain ⟨v, hd', hrest⟩ := h
    exact ⟨v, hd.trans hd', hrest⟩

theorem Tracks.map {Ends : Flight → World → α → Prop} {job : InkServer.Step α} (f : α → β)
    (h : Tracks P Ends s job) :
    Tracks P (fun t w b => ∃ a, Ends t w a ∧ b = f a) s (job.bind fun a w => .done w (f a)) := by
  induction job generalizing s with
  | done w a =>
    obtain ⟨t, hd, ha, hends⟩ := h
    exact ⟨t, hd, ha, a, hends, rfl⟩
  | ask w q next ih =>
    obtain ⟨t, hd, ha, hrest⟩ := h
    refine ⟨t, hd, ha, ?_⟩
    intro t' answer w' hothers ha'
    exact ih answer w' (hrest t' answer w' hothers ha')

theorem attend_succ (fuel : Nat) (cs : List Caller) (w : World) :
    Job.attend (fuel + 1) cs w
      =
    let moved := Caller.moveAll w.settles cs w.registry
    let w := { w with registry := moved.2 }
    if moved.1.any Caller.isWorking then
      .ask w (@Query.rest .upkeep) fun _ w =>
        Job.attend fuel (w.workFirst moved.1).2 (w.workFirst moved.1).1
    else if moved.1.any Caller.isParked then
      .ask w (.settled w.settles) fun _ w => Job.attend fuel moved.1 w
    else
      .done w moved.1 := by
  dsimp only [Job.attend, Job.update, bind, Job.bind, InkServer.Step.bind]
  split
  . rfl
  . split
    . rfl
    . rfl

/-- Callers that are let go on take part in the flight, one stop after the other. -/
theorem attend_tracks (fuel : Nat) (hk : cs.length = k) (ha : s.Agrees w) (hs : s.Seats n cs) :
    Tracks (Among n k) (fun t _ cs => t.Seats n cs) s (Job.attend fuel cs w) := by
  induction fuel generalizing s w cs with
  | zero =>
    rw [← hk]
    exact does_workAll ha hs
  | succ fuel ih =>
    obtain ⟨t, hd, hsettles, hregistry, hseats⟩ := does_moveAll hs
    have hlength := Caller.length_moveAll w.settles cs w.registry
    rw [hk] at hd hlength
    rw [ha.settles, ha.registry] at hregistry hseats
    have ha' : t.Agrees
        { w with registry := (Caller.moveAll w.settles cs w.registry).2 } :=
      ⟨hregistry, by rw [hsettles, ha.settles]⟩
    rw [attend_succ]
    dsimp only
    split
    . refine ⟨t, hd, ha', ?_⟩
      intro t' answer w' hothers ha''
      obtain ⟨v, hd', hav, hseats'⟩ := does_workFirst ha'' (hothers.seats hlength hseats)
      rw [hlength] at hd'
      apply Tracks.of_does hd'
      apply ih _ hav hseats'
      rw [World.length_workFirst, hlength]
    . split
      . refine ⟨t, hd, ha', ?_⟩
        intro t' answer w' hothers ha''
        exact ih hlength ha'' (hothers.seats hlength hseats)
      . exact ⟨t, hd, ha', hseats⟩

theorem seats_append {callers : List Caller} (hs : s.callers = callers ++ cs) :
    s.Seats callers.length cs := by
  intro i c hc
  rw [hs, List.getElem?_append_right (Nat.le_add_right _ _), Nat.add_sub_cancel_left, hc]

theorem run_calls (s : Flight) (uris : List String) :
    Run s (uris.map .call).reverse { s with callers := s.callers ++ uris.map .start } := by
  induction uris generalizing s with
  | nil =>
    simp only [List.map_nil, List.append_nil]
    exact .refl
  | cons uri uris ih =>
    have hrest := ih { s with callers := s.callers ++ [.start uri] }
    rw [List.append_assoc, List.singleton_append] at hrest
    rw [List.map_cons, List.reverse_cons]
    exact .append (.step .refl (.call uri)) hrest

theorem ensureAll_tracks (ha : s.Agrees w) (uris : List String) :
    ∃ t, Run s (uris.map .call).reverse t
      ∧ Tracks (Among s.callers.length uris.length)
        (fun t _ results => ∃ cs, t.Seats s.callers.length cs ∧ results = cs.map Caller.result)
        t (Job.ensureAll uris w) := by
  refine ⟨_, run_calls s uris, ?_⟩
  apply Tracks.map
  apply attend_tracks _ (by rw [List.length_map])
  . exact ⟨ha.registry, ha.settles⟩
  . exact seats_append rfl

theorem toPath_of_get? {es : List Event} {x : Entry} (h : History es s)
    (hx : s.registry.get? uri = some x) : ∃ root, Uri.toPath uri = .ok root := by
  induction h generalizing x with
  | refl => cases hx
  | step _ hs ih =>
    rw [hs.get?] at hx
    cases Event.of_effect_eq_some hx with
    | inl hbefore =>
      obtain ⟨y, hy⟩ := hbefore
      exact ih hy
    | inr he =>
      obtain ⟨root, he⟩ := he
      subst he
      exact ⟨root, hs.allows⟩

theorem run_enroll {es : List Event} {callers : List Caller} (h : History es s) (ha : s.Agrees w)
    (hs : s.callers = callers ++ cs) (uri : String) :
    ∃ es' t, Run s es' t ∧ t.Agrees (w.enroll cs uri).1
      ∧ t.callers = callers ++ (w.enroll cs uri).2 := by
  unfold World.enroll
  split
  . next registry hr =>
    rw [← ha.registry] at hr
    obtain ⟨root, hroot⟩ := Registry.toPath_of_register hr
    refine ⟨_, _, .step (.step .refl (.register hroot hr)) (.call uri), ⟨rfl, ha.settles⟩, ?_⟩
    rw [← List.append_assoc, ← hs]
  . next hr =>
    rw [← ha.registry] at hr
    -- Nobody registered this workspace before, so the caller finds no entry.
    have hnone : s.registry.get? uri = none := by
      cases hx : s.registry.get? uri with
      | none => rfl
      | some x =>
        obtain ⟨root, hroot⟩ := toPath_of_get? h hx
        rw [Registry.toPath_of_register_error hr] at hroot
        cases hroot
    have hc : (s.callers ++ [Caller.start uri])[s.callers.length]? = some (.start uri) := by
      rw [List.getElem?_concat_length]
    have hlook : (Caller.start uri).advance s.registry s.settles
        = (⟨uri, false, .done (.error (.notRegistered uri))⟩, s.registry) := by
      simp [Caller.advance, Caller.start, Caller.look, Registry.nextStep, hnone]
    refine ⟨_, _, .step (.step .refl (.call uri)) (.advance hc), ⟨?_, ha.settles⟩, ?_⟩
    . rw [← ha.registry]
      exact congrArg Prod.snd hlook
    . simp [put, hlook, hs]

theorem run_enrollAll {es : List Event} {callers : List Caller} (h : History es s)
    (ha : s.Agrees w) (hs : s.callers = callers ++ cs) (uris : List String) :
    ∃ es' t, Run s es' t
      ∧ t.Agrees (uris.foldl (fun (w, cs) uri => w.enroll cs uri) (w, cs)).1
      ∧ t.callers
        = callers ++ (uris.foldl (fun (w, cs) uri => w.enroll cs uri) (w, cs)).2 := by
  induction uris generalizing s w cs es with
  | nil => exact ⟨[], s, .refl, ha, hs⟩
  | cons uri uris ih =>
    obtain ⟨es', t, hrun, ha', hs'⟩ := run_enroll h ha hs uri
    obtain ⟨es'', v, hrun', ha'', hs''⟩ := ih (h.append hrun) ha' hs'
    exact ⟨es'' ++ es', v, hrun.append hrun', ha'', hs''⟩

theorem length_enrollAll (uris : List String) (w : World) (cs : List Caller) :
    (uris.foldl (fun (w, cs) uri => w.enroll cs uri) (w, cs)).2.length
      =
    cs.length + uris.length := by
  induction uris generalizing w cs with
  | nil => rfl
  | cons uri uris ih =>
    have hone : (w.enroll cs uri).2.length = cs.length + 1 := by
      unfold World.enroll
      split <;> simp
    rw [List.foldl_cons, ih, hone, List.length_cons]
    omega

theorem copyWorkspaces_tracks {es : List Event} (h : History es s) (ha : s.Agrees w)
    (uris : List String) :
    ∃ es' t, Run s es' t
      ∧ Tracks (Among s.callers.length uris.length)
        (fun t _ results => ∃ cs, t.Seats s.callers.length cs
          ∧ results = cs.map fun c => (c.uri, c.result))
        t (Job.copyWorkspaces uris w) := by
  obtain ⟨es', t, hrun, ha', hs⟩ := run_enrollAll h ha (List.append_nil _).symm uris
  have hlength := length_enrollAll uris w []
  rw [List.length_nil, Nat.zero_add] at hlength
  refine ⟨es', t, hrun, ?_⟩
  apply Tracks.map
  exact attend_tracks _ hlength ha' (seats_append hs)

theorem run_forget (ha : s.Agrees w) (uri : String) :
    ∃ es t w' b, Job.forget uri w = .done w' b ∧ Run s es t ∧ t.Agrees w'
      ∧ (b = true ↔ .forget uri ∈ es) := by
  by_cases hx : (s.registry.get? uri).isSome
  . refine ⟨[.announce uri, .forget uri], _,
      { w with registry := w.registry.forget uri, settles := w.settles + 1 }, true, ?_,
      .step (.step .refl (.forget hx)) (.announce (.head _)), ⟨?_, ?_⟩, by simp⟩
    . rw [ha.registry] at hx
      simp [Job.forget, Job.update, hx]
    . rw [← ha.registry]
    . rw [← ha.settles]
  . refine ⟨[], s, w, false, ?_, .refl, ha, by simp⟩
    rw [ha.registry] at hx
    simp [Job.forget, Job.update, hx]

theorem run_registerAll (s : Flight) (uris : List String) :
    ∃ es, Run s es { s with registry := s.registry.registerAll uris } := by
  unfold Registry.registerAll
  induction uris generalizing s with
  | nil => exact ⟨[], .refl⟩
  | cons uri uris ih =>
    rw [List.foldl_cons]
    cases hr : s.registry.register uri with
    | ok p =>
      obtain ⟨es, hrest⟩ := ih { s with registry := p.2 }
      obtain ⟨root, hroot⟩ := Registry.toPath_of_register hr
      exact ⟨es ++ [_], .append (.step .refl (.register hroot hr)) hrest⟩
    | error cause =>
      obtain ⟨es, hrest⟩ := ih s
      exact ⟨es, hrest⟩

end Flight

end InkServer
