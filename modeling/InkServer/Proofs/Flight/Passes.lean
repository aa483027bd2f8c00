import InkServer.Proofs.Flight.Basic

/-!
This module contains the passes that were begun in the course of a history, and the generations that
they carry.
-/

namespace InkServer

namespace Event

/-- The pass over the workspace `u` that is begun: the caller that carries it out, and the
generation. -/
def pass? (u : String) : Event → Option (Nat × Nat)
  | look caller uri (some generation) => if uri = u then some (caller, generation) else none
  | _ => none

def beginner? : Event → Option Nat
  | look caller _ (some _) => some caller
  | _ => none

def forgets (u : String) : Event → Bool
  | forget uri => uri = u
  | _ => false

theorem pass?_eq_some {u : String} {e : Event} {p : Nat × Nat} (h : e.pass? u = some p) :
    e = .look p.1 u (some p.2) := by
  unfold pass? at h
  split at h
  . split at h
    . next huri =>
      rw [Option.some.injEq] at h
      rw [← h, huri]
    . simp at h
  . simp at h

theorem beginner?_eq_some {e : Event} {i : Nat} (h : e.beginner? = some i) :
    ∃ u generation, e = .look i u (some generation) := by
  unfold beginner? at h
  split at h
  . rw [Option.some.injEq] at h
    exact ⟨_, _, by rw [h]⟩
  . simp at h

theorem forgets_iff {u : String} {e : Event} : e.forgets u = true ↔ e = .forget u := by
  cases e <;> simp [forgets]

theorem effect_generation {u : String} {e : Event} (hf : e.forgets u = false)
    (hp : e.pass? u = none) (x : Option Entry) :
    (e.effect u x).elim 0 Entry.generation = x.elim 0 Entry.generation := by
  cases e with
  | register uri root =>
    simp only [effect]
    split
    . cases x <;> rfl
    . rfl
  | forget uri =>
    have hu : u ≠ uri := by simpa [forgets, eq_comm] using hf
    rw [effect, if_neg hu]
  | giveUp caller uri scratch =>
    simp only [effect]
    split
    . cases x <;> simp
    . rfl
  | look caller uri begun =>
    cases begun with
    | none => rfl
    | some generation =>
      have hu : u ≠ uri := by simpa [pass?, eq_comm] using hp
      rw [effect, if_neg hu]
  | settle caller uri generation result =>
    simp only [effect]
    split
    . cases x <;> simp
    . rfl
  | announce uri => rfl
  | call uri => rfl
  | arm caller uri => rfl
  | tell caller uri => rfl
  | quiet caller => rfl

end Event

/-- The passes over the workspace `u` that were begun, the last one first. -/
def passes (u : String) (es : List Event) : List (Nat × Nat) :=
  es.filterMap (Event.pass? u)

/-- What happened since the workspace `u` was last forgotten. -/
def since (u : String) (es : List Event) : List Event :=
  es.takeWhile fun e => !e.forgets u

/-- The callers that began a pass, the last one first. -/
def begun (es : List Event) : List Nat :=
  es.filterMap Event.beginner?

section

variable {u : String} {e : Event} {es es' : List Event}

theorem passes_cons_of_none (h : e.pass? u = none) : passes u (e :: es) = passes u es := by
  simp [passes, h]

theorem passes_cons_of_some {p : Nat × Nat} (h : e.pass? u = some p) :
    passes u (e :: es) = p :: passes u es := by
  simp [passes, h]

theorem mem_passes {i generation : Nat} :
    (i, generation) ∈ passes u es ↔ .look i u (some generation) ∈ es := by
  unfold passes
  rw [List.mem_filterMap]
  constructor
  . rintro ⟨e, he, hp⟩
    rw [Event.pass?_eq_some hp] at he
    exact he
  . intro h
    exact ⟨_, h, by simp [Event.pass?]⟩

theorem since_cons_of_forgets (h : e.forgets u = true) : since u (e :: es) = [] := by
  simp [since, h]

theorem since_cons_of_not_forgets (h : e.forgets u = false) :
    since u (e :: es) = e :: since u es := by
  simp [since, h]

theorem since_append_forget : since u (es' ++ .forget u :: es) = since u es' := by
  induction es' with
  | nil => simp [since, Event.forgets]
  | cons e es' ih =>
    rw [List.cons_append]
    cases h : e.forgets u with
    | true => rw [since_cons_of_forgets h, since_cons_of_forgets h]
    | false => rw [since_cons_of_not_forgets h, since_cons_of_not_forgets h, ih]

theorem since_eq_self (h : .forget u ∉ es) : since u es = es := by
  induction es with
  | nil => rfl
  | cons e es ih =>
    rw [List.mem_cons, not_or] at h
    have hf : e.forgets u = false := by
      rw [Bool.eq_false_iff, ne_eq, Event.forgets_iff]
      exact Ne.symm h.1
    rw [since_cons_of_not_forgets hf, ih h.2]

theorem since_subset : since u es ⊆ es := by
  intro e he
  exact List.takeWhile_sublist _ |>.mem he

theorem mem_begun {i generation : Nat} (h : .look i u (some generation) ∈ es) : i ∈ begun es := by
  unfold begun
  rw [List.mem_filterMap]
  exact ⟨_, h, rfl⟩

end

namespace Caller

/-- The caller is past the point at which it may begin a pass. -/
def isSpent (c : Caller) : Bool :=
  match c.phase with
  | .copying _ _ => true
  | .telling _ => true
  | .done _ => true
  | _ => false

theorem Moves.isSpent {r : Registry} {settles i : Nat} {c c' : Caller} {e : Event}
    (h : Moves r settles i c e c') (hc : c.isSpent = true) : c'.isSpent = true := by
  cases h <;> simp_all [Caller.isSpent]

theorem Moves.isSpent_of_look {r : Registry} {settles i : Nat} {c c' : Caller} {u : String}
    {generation : Nat} (h : Moves r settles i c (.look i u (some generation)) c') :
    c'.isSpent = true := by
  cases h
  rfl

end Caller

namespace Flight

variable {s t : Flight} {e : Event} {es : List Event} {i : Nat} {u : String}

/-- The generation of the entry of a workspace. -/
def generation (s : Flight) (u : String) : Nat :=
  (s.registry.get? u).elim 0 Entry.generation

theorem generation_of_get? {x : Entry} (h : s.registry.get? u = some x) :
    s.generation u = x.generation := by
  simp [generation, h]

theorem Step.generation_of_none (h : Step s e t) (hf : e.forgets u = false)
    (hp : e.pass? u = none) : t.generation u = s.generation u := by
  unfold generation
  rw [h.get?]
  exact Event.effect_generation hf hp _

theorem Step.generation_of_some {p : Nat × Nat} (h : Step s e t) (hp : e.pass? u = some p) :
    t.generation u = s.generation u + 1 ∧ p.2 = s.generation u + 1 := by
  have he := Event.pass?_eq_some hp
  subst he
  obtain ⟨c, x, hc, huri, hphase, hx, hgeneration, _, _⟩ := h.look_some
  unfold generation
  rw [h.get?, hx, hgeneration]
  simp [Event.effect]

theorem Step.generation_of_forgets (h : Step s e t) (hf : e.forgets u = true) :
    t.generation u = 0 := by
  have he := Event.forgets_iff.mp hf
  subst he
  unfold generation
  rw [h.get?]
  simp [Event.effect]

theorem generations_eq (h : History es s) (u : String) :
    (passes u (since u es)).map Prod.snd = (List.range' 1 (s.generation u)).reverse := by
  induction h with
  | refl => rfl
  | @step t t' e es h hs ih =>
    cases hf : e.forgets u with
    | true =>
      rw [since_cons_of_forgets hf, hs.generation_of_forgets hf]
      rfl
    | false =>
      rw [since_cons_of_not_forgets hf]
      cases hp : e.pass? u with
      | none => rw [passes_cons_of_none hp, hs.generation_of_none hf hp, ih]
      | some p =>
        -- The new pass has the next number, which goes in front of those given so far.
        obtain ⟨ht, hgeneration⟩ := hs.generation_of_some hp
        rw [passes_cons_of_some hp, List.map_cons, ih, ht, hgeneration, List.range'_1_concat,
          List.reverse_append, Nat.add_comm]
        rfl

theorem Step.isSpent_after {c : Caller} (h : Step s e t) (hc : s.callers[i]? = some c)
    (hspent : c.isSpent = true) : ∃ c', t.callers[i]? = some c' ∧ c'.isSpent = true := by
  obtain ⟨c', hc', hm⟩ := h.caller_after hc
  refine ⟨c', hc', ?_⟩
  cases hm with
  | inl heq => rw [heq, hspent]
  | inr hm => exact hm.isSpent hspent

theorem isSpent_of_begun (h : History es s) (hi : i ∈ begun es) :
    ∃ c, s.callers[i]? = some c ∧ c.isSpent = true := by
  induction h with
  | refl => simp [begun] at hi
  | @step t t' e es h hs ih =>
    unfold begun at hi
    rw [List.filterMap_cons] at hi
    cases hb : e.beginner? with
    | none =>
      rw [hb] at hi
      obtain ⟨c, hc, hspent⟩ := ih hi
      exact hs.isSpent_after hc hspent
    | some j =>
      rw [hb, List.mem_cons] at hi
      cases hi with
      | inl hij =>
        obtain ⟨v, generation, he⟩ := Event.beginner?_eq_some hb
        subst he hij
        obtain ⟨c, c', _, hc', hm⟩ := hs.moves rfl
        exact ⟨c', hc', hm.isSpent_of_look⟩
      | inr hi =>
        obtain ⟨c, hc, hspent⟩ := ih hi
        exact hs.isSpent_after hc hspent

theorem begun_nodup (h : History es s) : (begun es).Nodup := by
  induction h with
  | refl => exact List.nodup_nil
  | @step t t' e es h hs ih =>
    unfold begun
    rw [List.filterMap_cons]
    cases hb : e.beginner? with
    | none => exact ih
    | some i =>
      apply List.nodup_cons.mpr
      refine ⟨?_, ih⟩
      intro hi
      obtain ⟨v, generation, he⟩ := Event.beginner?_eq_some hb
      subst he
      -- A caller that began a pass before is spent, and one that begins a pass is not.
      obtain ⟨c, hc, hspent⟩ := isSpent_of_begun h hi
      obtain ⟨d, _, hd, _, hm⟩ := hs.moves rfl
      rw [hc, Option.some.injEq] at hd
      subst hd
      simp [Caller.isSpent, hm.look_inv.2] at hspent

end Flight

end InkServer
