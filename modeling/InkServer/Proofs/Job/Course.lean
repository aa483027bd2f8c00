import InkServer.Service.Job

/-!
This module contains the courses that a job can take: at each stop others may change the state before
the job goes on. Assertions about all courses are put together along the structure of the job.
-/

namespace InkServer

/-- A stop of a job: the state that it left, what it stopped for, and the state in which it went
on. -/
structure Halt where
  before : World
  query : Query
  after : World

namespace Step

variable {α β : Type} {Q Q' : Halt → Prop} {At At' : List Halt → World → Query → Prop}
  {Ends Ends' : List Halt → World → α → Prop} {ps : List Halt} {t : Step α}

/-- The job comes from one step to the other by way of the given halts. -/
inductive Reaches : Step α → List Halt → Step α → Prop where
  | refl (t : Step α) : Reaches t [] t
  | resume {w w' : World} {q : Query} {k : q.Answer → World → Step α} {answer : q.Answer}
    {ps : List Halt} {t : Step α} (h : Reaches (k answer w') ps t) :
    Reaches (.ask w q k) (⟨w, q, w'⟩ :: ps) t

theorem Reaches.append {ps' : List Halt} {t' t'' : Step α} (h : t.Reaches ps t')
    (h' : t'.Reaches ps' t'') : t.Reaches (ps ++ ps') t'' := by
  induction h with
  | refl t => exact h'
  | resume _ ih => exact .resume (ih h')

theorem Reaches.bind {t' : Step α} (h : t.Reaches ps t') (f : α → World → Step β) :
    (t.bind f).Reaches ps (t'.bind f) := by
  induction h with
  | refl t => exact .refl _
  | resume _ ih => exact .resume ih

theorem Reaches.exists_of_bind {f : α → World → Step β} {w' : World} {b : β}
    (h : (t.bind f).Reaches ps (.done w' b)) :
    ∃ ps₁ ps₂ v a, ps = ps₁ ++ ps₂ ∧ t.Reaches ps₁ (.done v a) ∧ (f a v).Reaches ps₂ (.done w' b) := by
  induction t generalizing ps with
  | done v a => exact ⟨[], ps, v, a, rfl, .refl _, h⟩
  | ask v q k ih =>
    rw [Step.bind] at h
    cases h with
    | resume hrest =>
      obtain ⟨ps₁, ps₂, v', a, heq, hfirst, hlast⟩ := ih _ _ hrest
      exact ⟨_ :: ps₁, ps₂, v', a, by rw [heq, List.cons_append], .resume hfirst, hlast⟩

/-- As long as the halts are of the kind `Q`, `At` holds at every stop of the job and `Ends` at its
end. Both depend on the halts so far. -/
def Along (Q : Halt → Prop) (At : List Halt → World → Query → Prop)
    (Ends : List Halt → World → α → Prop) : List Halt → Step α → Prop
  | ps, .done w a => Ends ps w a
  | ps, .ask w q k =>
    At ps w q ∧ ∀ answer w', Q ⟨w, q, w'⟩ → Along Q At Ends (ps ++ [⟨w, q, w'⟩]) (k answer w')

theorem along_bind {f : α → World → Step β} {Ends : List Halt → World → β → Prop}
    (h : t.Along Q At (fun ps w a => (f a w).Along Q At Ends ps) ps) :
    (t.bind f).Along Q At Ends ps := by
  induction t generalizing ps with
  | done w a => exact h
  | ask w q k ih =>
    refine ⟨h.1, ?_⟩
    intro answer w' hq
    exact ih answer w' (h.2 answer w' hq)

theorem Along.mono (h : t.Along Q At Ends ps) (hat : ∀ ps w q, At ps w q → At' ps w q)
    (hends : ∀ ps w a, Ends ps w a → Ends' ps w a) : t.Along Q At' Ends' ps := by
  induction t generalizing ps with
  | done w a => exact hends ps w a h
  | ask w q k ih =>
    refine ⟨hat ps w q h.1, ?_⟩
    intro answer w' hq
    exact ih answer w' (h.2 answer w' hq)

theorem Along.imp_halt (h : t.Along Q At Ends ps) (hq : ∀ p, Q' p → Q p) :
    t.Along Q' At Ends ps := by
  induction t generalizing ps with
  | done w a => exact h
  | ask w q k ih =>
    refine ⟨h.1, ?_⟩
    intro answer w' hp
    exact ih answer w' (h.2 answer w' (hq _ hp))

theorem Along.extends (h : t.Along Q At Ends ps) :
    t.Along Q At (fun ps' w a => ps <+: ps' ∧ Ends ps' w a) ps := by
  induction t generalizing ps with
  | done w a => exact ⟨List.prefix_refl ps, h⟩
  | ask w q k ih =>
    refine ⟨h.1, ?_⟩
    intro answer w' hq
    refine (ih answer w' (h.2 answer w' hq)).mono (fun _ _ _ h => h) ?_
    rintro ps' v a ⟨hfirst, hends⟩
    exact ⟨(List.prefix_append _ _).trans hfirst, hends⟩

/-- What holds along a job holds at every step that it reaches. -/
theorem Along.of_reaches {ps' : List Halt} {t' : Step α} (h : t.Along Q At Ends ps)
    (hr : t.Reaches ps' t') (hq : ∀ p ∈ ps', Q p) : t'.Along Q At Ends (ps ++ ps') := by
  induction hr generalizing ps with
  | refl t =>
    rw [List.append_nil]
    exact h
  | resume _ ih =>
    have hrest := ih (h.2 _ _ (hq _ (.head _))) fun p hp => hq p (.tail _ hp)
    rw [List.append_assoc, List.singleton_append] at hrest
    exact hrest

/-- What holds along a job holds at the end of a run whose halts are of the kind `Q`. -/
theorem Along.settle {σ : Type} {handle : Handler σ} (h : t.Along Q At Ends ps)
    (hq : ∀ ps w q s, At ps w q → Q ⟨w, q, (handle q w s).2.1⟩) (s : σ) :
    ∃ ps', Ends ps' (t.settle handle s).2.1 (t.settle handle s).1 := by
  induction t generalizing ps s with
  | done w a => exact ⟨ps, h⟩
  | ask w q k ih =>
    rw [settle_ask]
    apply ih
    exact h.2 _ _ (hq ps w q s h.1)

end Step

namespace Job

variable {α β : Type}

theorem bind_apply (job : Job α) (f : α → Job β) (w : World) :
    (job >>= f) w = (job w).bind fun a w => f a w := rfl

end Job

end InkServer
