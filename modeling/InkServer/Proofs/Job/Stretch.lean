import InkServer.Proofs.Flight.Attendance
import InkServer.Proofs.Job.Making
import InkServer.Proofs.Registry

/-!
This module contains the stretches of jobs, from where they begin or go on to where they end or stop
next. No job publishes diagnostics, and none but the removal of folders touches the records of what
was published.
-/

namespace InkServer

namespace Step

variable {α β : Type} {R : World → World → Prop} {v w : World} {t : Step α}

/-- The state at the end or at the stop. -/
def world : Step α → World
  | done w _ => w
  | ask w _ _ => w

/-- Every stretch of a job that goes on in `v` relates the states at its two ends. -/
def Spans (R : World → World → Prop) : World → Step α → Prop
  | v, done w _ => R v w
  | v, ask w _ k => R v w ∧ ∀ answer u, Spans R u (k answer u)

theorem Spans.world (h : t.Spans R v) : R v t.world := by
  cases t with
  | done w a => exact h
  | ask w q k => exact h.1

theorem Spans.after (trans : ∀ {a b c}, R a b → R b c → R a c) (h : R v w) (ht : t.Spans R w) :
    t.Spans R v := by
  cases t with
  | done u a => exact trans h ht
  | ask u q k => exact ⟨trans h ht.1, ht.2⟩

theorem Spans.bind (trans : ∀ {a b c}, R a b → R b c → R a c) {f : α → World → Step β}
    (h : t.Spans R v) (hf : ∀ a w, (f a w).Spans R w) : (t.bind f).Spans R v := by
  induction t generalizing v with
  | done w a => exact .after trans h (hf a w)
  | ask w q k ih => exact ⟨h.1, fun answer u => ih answer u (h.2 answer u)⟩

end Step

namespace Registry

variable {r r' r'' : Registry}

/-- Every workspace stays registered. -/
def Retains (r r' : Registry) : Prop :=
  ∀ u, (r.get? u).isSome = true → (r'.get? u).isSome = true

theorem Retains.refl (r : Registry) : r.Retains r :=
  fun _ h => h

theorem Retains.trans (h : r.Retains r') (h' : r'.Retains r'') : r.Retains r'' :=
  fun u hu => h' u (h u hu)

theorem retains_set (r : Registry) (uri : String) (e : Entry) : r.Retains (r.set uri e) := by
  intro u hu
  rw [get?_set]
  split
  . rfl
  . exact hu

theorem retains_markStale (r : Registry) (uri : String) (scratch : Path) :
    r.Retains (r.markStale uri scratch) := by
  intro u hu
  rw [get?_markStale]
  split
  . rw [Option.isSome_map]
    exact hu
  . exact hu

theorem retains_commit (r : Registry) (uri : String) (generation : Nat) (result : PassResult) :
    r.Retains (r.commit uri generation result).2 := by
  intro u hu
  rw [get?_commit]
  split
  . rw [Option.isSome_map]
    exact hu
  . exact hu

theorem retains_register {uri : String} {ws : Workspace} (h : r.register uri = .ok (ws, r')) :
    r.Retains r' := by
  obtain ⟨root, hroot⟩ := toPath_of_register h
  intro u hu
  rw [get?_register hroot h]
  split
  . rfl
  . exact hu

end Registry

namespace Caller

variable {r : Registry}

theorem retains_advance (c : Caller) (r : Registry) (settles : Nat) :
    r.Retains (c.advance r settles).2 := by
  unfold advance
  split
  . -- Only a look at the entry can begin a pass.
    have hd := r.nextStep_decides c.uri c.waited
    unfold look
    generalize r.nextStep c.uri c.waited = next at hd
    cases hd with
    | absent => exact .refl r
    | check => exact .refl r
    | wait => exact .refl r
    | copy => exact r.retains_set _ _
  . exact r.retains_markStale _ _
  . exact .refl r
  . split <;> exact .refl r
  . split <;> exact .refl r
  . split <;> exact .refl r
  . exact .refl r

theorem retains_advances (settles n : Nat) (c : Caller) (r : Registry) :
    r.Retains (c.advances settles n r).2 := by
  induction n generalizing c r with
  | zero => exact .refl r
  | succ n ih => exact (c.retains_advance r settles).trans (ih _ _)

theorem retains_moveAll (settles : Nat) (cs : List Caller) (r : Registry) :
    r.Retains (moveAll settles cs r).2 := by
  induction cs generalizing r with
  | nil => exact .refl r
  | cons c cs ih => exact (retains_advances settles 4 c r).trans (ih _)

end Caller

/-- The effect is the publication of a list of diagnostics. -/
def Effect.isPublish : Effect → Bool
  | publish _ _ => true
  | _ => false

/-- From one state to the other nothing is published. The records of what was published stay, but for
those of workspaces in `gone`, and a workspace that is forgotten has no record any more. -/
structure Unpublished (gone : List String) (w w' : World) : Prop where
  trace : ∃ es, w'.trace = w.trace ++ es ∧ ∀ e ∈ es, e.isPublish = false
  published : ∀ u, w'.published.lookup u = w.published.lookup u
    ∨ (u ∈ gone ∧ w'.published.lookup u = none)
  registered : ∀ u, (w.registry.get? u).isSome = true →
    (w'.registry.get? u).isSome = true ∨ w'.published.lookup u = none

namespace Unpublished

variable {gone : List String} {w w' w'' : World} {u : String}

theorem of_eq (htrace : w'.trace = w.trace) (hpublished : w'.published = w.published)
    (hregistry : w.registry.Retains w'.registry) : Unpublished gone w w' where
  trace := ⟨[], by rw [htrace, List.append_nil], by simp⟩
  published u := .inl (by rw [hpublished])
  registered u hu := .inl (hregistry u hu)

theorem refl (w : World) : Unpublished gone w w :=
  .of_eq rfl rfl (.refl _)

theorem lookup_eq_none (h : Unpublished gone w w') (hu : w.published.lookup u = none) :
    w'.published.lookup u = none := by
  cases h.published u with
  | inl heq => rw [heq, hu]
  | inr hnone => exact hnone.2

theorem trans (h : Unpublished gone w w') (h' : Unpublished gone w' w'') :
    Unpublished gone w w'' := by
  constructor
  . obtain ⟨es, htrace, hes⟩ := h.trace
    obtain ⟨es', htrace', hes'⟩ := h'.trace
    refine ⟨es ++ es', by rw [htrace', htrace, List.append_assoc], ?_⟩
    intro e he
    cases List.mem_append.mp he with
    | inl he => exact hes e he
    | inr he => exact hes' e he
  . intro u
    cases h'.published u with
    | inl heq =>
      rw [heq]
      exact h.published u
    | inr hnone => exact .inr hnone
  . intro u hu
    cases h.registered u hu with
    | inl hu => exact h'.registered u hu
    -- A record that was dropped does not come back, as nothing is published.
    | inr hnone => exact .inr (h'.lookup_eq_none hnone)

theorem emitAll {es : List Effect} (h : Unpublished gone w w')
    (hes : ∀ e ∈ es, e.isPublish = false) : Unpublished gone w (w'.emitAll es) :=
  h.trans ⟨⟨es, rfl, hes⟩, fun _ => .inl rfl, fun _ hu => .inl hu⟩

end Unpublished

namespace World

variable {gone : List String}

theorem unpublished_work (w : World) (c : Caller) : Unpublished gone w (w.work c).1 := by
  unfold work
  split
  . dsimp only
    split
    . exact .of_eq rfl rfl (w.registry.retains_markStale _ _)
    . exact .refl w
  . exact .of_eq rfl rfl (w.registry.retains_commit _ _ _)
  . exact .refl w

end World

theorem Unpublished.without {gone : List String} {uri : String} (w : World) (h : uri ∈ gone) :
    Unpublished gone w (w.without uri) where
  trace := ⟨[], by rw [List.append_nil]; rfl, by simp⟩
  published u := by
    simp only [World.without, lookup_eraseKey]
    split
    . next hu => exact .inr ⟨by rw [hu]; exact h, rfl⟩
    . exact .inl rfl
  registered u hu := by
    simp only [World.without, lookup_eraseKey, Registry.get?_forget]
    split
    . exact .inr rfl
    . exact .inl hu

theorem World.Alters.unpublished {gone : List String} {w v : World} (h : w.Alters gone v) :
    Unpublished gone w v := by
  induction h with
  | refl w => exact .refl w
  | trans _ _ ih ih' => exact ih.trans ih'
  | @emit w e he =>
    refine (Unpublished.refl w).emitAll ?_
    intro x hx
    rw [List.mem_singleton.mp hx]
    cases e with
    | publish uri diagnostics => cases he
    | _ => rfl
  | keep w disk initial deliveries => exact .of_eq rfl rfl (.refl _)
  | openDocument w hpath => exact .of_eq rfl rfl (.refl _)
  | closeDocument w path => exact .of_eq rfl rfl (.refl _)
  | register w hr => exact .of_eq rfl rfl (Registry.retains_register hr)
  | markStale w uri scratch => exact .of_eq rfl rfl (w.registry.retains_markStale _ _)
  | without w hgone => exact .without w hgone

namespace Job

variable {α : Type} {R : World → World → Prop} {gone : List String} {job : Job α}

theorem attend_spans (refl : ∀ w, R w w) (trans : ∀ {a b c}, R a b → R b c → R a c)
    (move : ∀ (w : World) (cs : List Caller),
      R w { w with registry := (Caller.moveAll w.settles cs w.registry).2 })
    (work : ∀ (w : World) (c : Caller), R w (w.work c).1) (fuel : Nat) (cs : List Caller) (w : World) :
    (attend fuel cs w).Spans R w := by
  have workFirst : ∀ (w : World) (cs : List Caller), R w (w.workFirst cs).1 := by
    intro w cs
    induction cs with
    | nil => exact refl w
    | cons c cs ih =>
      unfold World.workFirst
      split
      . exact work w c
      . exact ih
  have workAll : ∀ (w : World) (cs : List Caller), R w (w.workAll cs).1 := by
    intro w cs
    induction cs generalizing w with
    | nil => exact refl w
    | cons c cs ih => exact trans (work w c) (ih _)
  induction fuel generalizing cs w with
  | zero => exact workAll w cs
  | succ fuel ih =>
    rw [Flight.attend_succ]
    dsimp only
    split
    . refine ⟨move w cs, ?_⟩
      intro answer u
      exact .after trans (workFirst u _) (ih _ _)
    . split
      . exact ⟨move w cs, fun answer u => ih _ u⟩
      . exact move w cs

/-- What the changes and the callers keep is kept between two stops of a job. -/
theorem Made.spans (h : job.Made gone) (refl : ∀ w, R w w)
    (trans : ∀ {a b c}, R a b → R b c → R a c) (alters : ∀ {w v : World}, w.Alters gone v → R w v)
    (move : ∀ (w : World) (cs : List Caller),
      R w { w with registry := (Caller.moveAll w.settles cs w.registry).2 })
    (work : ∀ (w : World) (c : Caller), R w (w.work c).1) (w : World) : (job w).Spans R w := by
  induction h generalizing w with
  | pure a => exact refl w
  | get => exact refl w
  | update hf => exact alters (hf w)
  | query q _ => exact ⟨refl w, fun _ u => refl u⟩
  | attend hf _ fuel => exact .after trans (alters (hf w)) (attend_spans refl trans move work fuel _ _)
  | bind _ _ ih ihf => exact Step.Spans.bind (R := R) trans (ih w) ihf

/-- No stretch of the job publishes anything, and the records stay but for those of workspaces in
`gone`. -/
def Discreet (gone : List String) (job : Job α) : Prop :=
  ∀ w, (job w).Spans (Unpublished gone) w

theorem Made.discreet (h : job.Made gone) : job.Discreet gone :=
  h.spans .refl .trans World.Alters.unpublished
    (fun _ _ => .of_eq rfl rfl (Caller.retains_moveAll _ _ _)) World.unpublished_work

end Job

end InkServer
