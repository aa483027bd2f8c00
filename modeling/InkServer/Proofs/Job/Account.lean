import InkServer.Proofs.Job.Stretch

/-!
This module contains the account of a job: the answers that it went on with, and the effects that it
recorded itself while others did the same. What a job records is put together from what its parts
record.
-/

namespace InkServer

/-- A stop of a job and the answer with which it went on. -/
structure Stay extends Halt where
  answer : query.Answer

namespace Step

variable {α β : Type} {t t' : Step α} {xs ys : List Stay} {f : α → World → Step β}

/-- The job comes from one step to the other by way of the given stays. -/
inductive Follows : Step α → List Stay → Step α → Prop where
  | refl (t : Step α) : Follows t [] t
  | resume {w u : World} {q : Query} {k : q.Answer → World → Step α} {answer : q.Answer}
    {xs : List Stay} {t : Step α} (h : Follows (k answer u) xs t) :
    Follows (.ask w q k) (⟨⟨w, q, u⟩, answer⟩ :: xs) t

theorem Follows.append {t'' : Step α} (h : t.Follows xs t') (h' : t'.Follows ys t'') :
    t.Follows (xs ++ ys) t'' := by
  induction h with
  | refl t => exact h'
  | resume _ ih => exact .resume (ih h')

theorem Follows.of_append {t'' : Step α} (h : t.Follows xs t') (h' : t.Follows (xs ++ ys) t'') :
    t'.Follows ys t'' := by
  induction h with
  | refl t => exact h'
  | resume _ ih =>
    cases h' with
    | resume h' => exact ih h'

theorem Follows.of_done {w : World} {a : α} (h : (done w a).Follows xs t) :
    xs = [] ∧ t = .done w a := by
  cases h with
  | refl => exact ⟨rfl, rfl⟩

/-- A job that came to its end does not go on. -/
theorem Follows.end_unique {w : World} {a : α} (h : t.Follows xs (.done w a)) (hfirst : xs <+: ys)
    (h' : t.Follows ys t') : xs = ys ∧ t' = .done w a := by
  obtain ⟨rest, hrest⟩ := hfirst
  rw [← hrest] at h'
  obtain ⟨hnil, ht⟩ := (h.of_append h').of_done
  rw [hnil, List.append_nil] at hrest
  exact ⟨hrest, ht⟩

/-- Of two ends on one way, one is the other. -/
theorem Follows.done_unique {xs' : List Stay} {w w' : World} {a a' : α}
    (h : t.Follows xs (.done w a)) (h' : t.Follows xs' (.done w' a')) (hfirst : xs <+: ys)
    (hfirst' : xs' <+: ys) : a = a' := by
  rcases List.prefix_or_prefix_of_prefix hfirst hfirst' with hle | hle
  . injection (h.end_unique hle h').2 with _ ha
    exact ha.symm
  . injection (h'.end_unique hle h).2

theorem Follows.bind (h : t.Follows xs t') (f : α → World → Step β) :
    (t.bind f).Follows xs (t'.bind f) := by
  induction h with
  | refl t => exact .refl _
  | resume _ ih => exact .resume ih

theorem bind_bind {γ : Type} (t : Step α) (f : α → World → Step β) (g : β → World → Step γ) :
    (t.bind f).bind g = t.bind fun a w => (f a w).bind g := by
  induction t with
  | done w a => rfl
  | ask w q k ih =>
    rw [bind_ask, bind_ask, bind_ask]
    congr 1
    funext answer w
    exact ih answer w

theorem Follows.reaches (h : t.Follows xs t') : t.Reaches (xs.map Stay.toHalt) t' := by
  induction h with
  | refl t => exact .refl t
  | resume _ ih => exact .resume ih

/-- One job after the other is still at the first, or it has come to the end of the first. -/
theorem Follows.bind_cases {s : Step β} (h : (t.bind f).Follows xs s) :
    (∃ w q k, t.Follows xs (.ask w q k) ∧ s = (ask w q k).bind f)
      ∨ ∃ xs₁ xs₂ v a, xs = xs₁ ++ xs₂ ∧ t.Follows xs₁ (.done v a) ∧ (f a v).Follows xs₂ s := by
  induction t generalizing xs with
  | done v a => exact .inr ⟨[], xs, v, a, rfl, .refl _, h⟩
  | ask w q k ih =>
    rw [bind_ask] at h
    cases h with
    | refl => exact .inl ⟨w, q, k, .refl _, rfl⟩
    | resume h =>
      rcases ih _ _ h with ⟨w', q', k', hfirst, hs⟩ | ⟨xs₁, xs₂, v, a, heq, hfirst, hlast⟩
      . exact .inl ⟨w', q', k', .resume hfirst, hs⟩
      . exact .inr ⟨_ :: xs₁, xs₂, v, a, by rw [heq, List.cons_append], .resume hfirst, hlast⟩

/-- What comes to the end of one job after the other comes to the end of both. -/
theorem Follows.bind_done {v : World} {b : β} (h : (t.bind f).Follows xs (.done v b)) :
    ∃ xs₁ xs₂ u a, xs = xs₁ ++ xs₂ ∧ t.Follows xs₁ (.done u a) ∧ (f a u).Follows xs₂ (.done v b) := by
  rcases h.bind_cases with ⟨w, q, k, _, hs⟩ | h
  . cases hs
  . exact h

end Step

/-- From one state to the other effects of the given kind are recorded, and none is lost. -/
def World.Adds (P : Effect → Prop) (w v : World) : Prop :=
  ∃ es, v.trace = w.trace ++ es ∧ ∀ e ∈ es, P e

namespace World.Adds

variable {P : Effect → Prop} {w v u : World}

theorem of_eq (h : v.trace = w.trace) : Adds P w v :=
  ⟨[], by rw [h, List.append_nil], by simp⟩

theorem refl (w : World) : Adds P w w :=
  of_eq rfl

theorem trans (h : Adds P w v) (h' : Adds P v u) : Adds P w u := by
  obtain ⟨es, hv, hes⟩ := h
  obtain ⟨es', hu, hes'⟩ := h'
  refine ⟨es ++ es', by rw [hu, hv, List.append_assoc], ?_⟩
  intro e he
  rcases List.mem_append.mp he with he | he
  . exact hes e he
  . exact hes' e he

theorem emit (w : World) {e : Effect} (h : P e) : Adds P w (w.emit e) :=
  ⟨[e], rfl, by simpa using h⟩

theorem mono {Q : Effect → Prop} (h : Adds P w v) (hpq : ∀ e, P e → Q e) : Adds Q w v := by
  obtain ⟨es, hv, hes⟩ := h
  exact ⟨es, hv, fun e he => hpq e (hes e he)⟩

end World.Adds

/-- What was recorded from one state to the other. -/
def World.since (w v : World) : List Effect :=
  v.trace.drop w.trace.length

/-- What a job recorded itself, from the state `w` by way of the stays to the state `v`. -/
def account (w : World) : List Stay → World → List Effect
  | [], v => w.since v
  | x :: xs, v => w.since x.before ++ account x.after xs v

theorem account_cons (w : World) (x : Stay) (xs : List Stay) (v : World) :
    account w (x :: xs) v = w.since x.before ++ account x.after xs v := rfl

namespace World

variable {P : Effect → Prop} {w v u : World}

theorem since_eq {es : List Effect} (h : v.trace = w.trace ++ es) : w.since v = es := by
  rw [since, h, List.drop_left]

theorem since_emit (w : World) (e : Effect) : w.since (w.emit e) = [e] :=
  since_eq rfl

theorem since_self (h : v.trace = w.trace) : w.since v = [] :=
  since_eq (by rw [h, List.append_nil])

theorem Adds.forall_since (h : Adds P w v) : ∀ e ∈ w.since v, P e := by
  obtain ⟨es, hv, hes⟩ := h
  rw [since_eq hv]
  exact hes

theorem since_trans (h : Adds P w v) (h' : Adds P v u) : w.since u = w.since v ++ v.since u := by
  obtain ⟨es, hv, _⟩ := h
  obtain ⟨es', hu, _⟩ := h'
  rw [since_eq hv, since_eq hu]
  exact since_eq (by rw [hu, hv, List.append_assoc])

end World

namespace Step

variable {α β : Type} {P Q : Effect → Prop} {t t' : Step α} {xs ys : List Stay} {w v : World} {a : α}

theorem Spans.mono {R R' : World → World → Prop} (h : t.Spans R w) (hr : ∀ v u, R v u → R' v u) :
    t.Spans R' w := by
  induction t generalizing w with
  | done v a => exact hr w v h
  | ask v q k ih => exact ⟨hr w v h.1, fun answer u => ih answer u (h.2 answer u)⟩

theorem Follows.forall_account (h : t.Follows xs t') (hs : t.Spans (World.Adds P) w) :
    ∀ e ∈ account w xs t'.world, P e := by
  induction h generalizing w with
  | refl t => exact hs.world.forall_since
  | resume _ ih =>
    intro e he
    rcases List.mem_append.mp he with he | he
    . exact hs.1.forall_since e he
    . exact ih (hs.2 _ _) e he

/-- One job after the other records what the one records and then the other. -/
theorem Follows.account_append {s : Step β} {s' : Step β} (h : t.Follows xs (.done v a))
    (hs : t.Spans (World.Adds P) w) (h' : s.Follows ys s') (hs' : s.Spans (World.Adds Q) v) :
    account w (xs ++ ys) s'.world = account w xs v ++ account v ys s'.world := by
  generalize hend : done v a = t' at h
  induction h generalizing w with
  | refl t =>
    subst hend
    have hv : w.Adds (fun _ => True) v := World.Adds.mono hs fun _ _ => trivial
    cases h' with
    | refl => exact World.since_trans hv (hs'.world.mono fun _ _ => trivial)
    | resume _ =>
      rw [List.nil_append, account_cons, account_cons v, ← List.append_assoc]
      congr 1
      exact World.since_trans hv (World.Adds.mono hs'.1 fun _ _ => trivial)
  | resume _ ih =>
    rw [List.cons_append, account_cons, account_cons, ih (hs.2 _ _) hend, List.append_assoc]

end Step

def Effect.isQuestion : Effect → Bool
  | askFolders => true
  | askSettings _ => true
  | checkTool _ => true
  | _ => false

/-- The effect is a call of the runner: a run is started or ended. -/
def Effect.isRunnerCall : Effect → Bool
  | start _ _ => true
  | stop => true
  | _ => false

end InkServer
