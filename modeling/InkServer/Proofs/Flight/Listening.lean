import InkServer.Proofs.Flight.WakeUp

/-!
This module contains what must have happened before a caller listens, and before it is told
something.
-/

namespace InkServer

namespace Caller

/-- The caller found a pass under way and did not look at the entry again yet. -/
def isListening (c : Caller) : Bool :=
  match c.phase with
  | .arming => true
  | .armed _ => true
  | .parking _ => true
  | .parked _ => true
  | _ => false

variable {r : Registry} {settles i : Nat} {c c' : Caller} {e : Event}

theorem Moves.of_isListening (h : Moves r settles i c e c') (hl : c'.isListening = true) :
    (c.isListening = true ∧ c.uri = c'.uri) ∨ r.state? c'.uri = some .copying := by
  cases h with
  | wait hx hs => exact .inr (by simp [Registry.state?, hx, hs])
  | _ => simp_all [isListening]

theorem Moves.waited_or_seen? (h : Moves r settles i c e c')
    (hc : c.waited = true ∨ c.seen?.isSome = true) :
    c'.waited = true ∨ c'.seen?.isSome = true := by
  cases h <;> simp_all [seen?]

theorem Moves.of_waited (h : Moves r settles i c e c') (hw : c'.waited = true) :
    c.waited = true
      ∨ (∃ seen, c.seen? = some seen ∧ seen < settles)
      ∨ (c.isListening = true ∧ r.state? c.uri ≠ some .copying) := by
  cases h <;> simp_all [seen?, isListening]

end Caller

namespace Flight

variable {s t : Flight} {e : Event} {es : List Event} {i seen : Nat} {u : String} {c : Caller}

theorem passes_cons_ne_nil (h : passes u es ≠ []) : passes u (e :: es) ≠ [] := by
  cases hp : e.pass? u with
  | none => rwa [passes_cons_of_none hp]
  | some p => simp [passes_cons_of_some hp]

theorem passes_ne_nil_of_copying (h : History es s)
    (hcopying : s.registry.state? u = some .copying) : passes u es ≠ [] := by
  obtain ⟨i, hi⟩ := copying_flies h u hcopying
  exact List.ne_nil_of_mem (mem_passes.mpr (hi.begun h))

theorem passes_ne_nil_of_isListening (h : History es s) (hc : s.callers[i]? = some c)
    (hl : c.isListening = true) : passes c.uri es ≠ [] := by
  induction h generalizing c with
  | refl => simp [start] at hc
  | step h hs ih =>
    apply passes_cons_ne_nil
    rcases hs.caller_before hc with ⟨hsame, _⟩ | ⟨b, hb, hm⟩ | ⟨uri, _, hstart⟩
    . exact ih hsame hl
    . cases hm.of_isListening hl with
      | inl hbefore =>
        rw [← hbefore.2]
        exact ih hb hbefore.1
      | inr hcopying => exact passes_ne_nil_of_copying h hcopying
    . rw [hstart] at hl
      simp [Caller.start, Caller.isListening] at hl

theorem Step.arm_inv (h : Step s (.arm i u) t) :
    ∃ c c', s.callers[i]? = some c ∧ c.uri = u ∧ c.isListening = true
      ∧ t.callers[i]? = some c' ∧ c'.uri = u ∧ c'.seen?.isSome = true := by
  obtain ⟨_, _, hc, hc', hm⟩ := h.moves rfl
  cases hm with
  | arm => exact ⟨_, _, hc, rfl, rfl, hc', rfl, rfl⟩

theorem passes_ne_nil_of_arm (h : History es s) (ha : .arm i u ∈ es) : passes u es ≠ [] := by
  induction h with
  | refl => simp at ha
  | step h hs ih =>
    apply passes_cons_ne_nil
    cases ha with
    | head =>
      obtain ⟨c, _, hc, huri, hl, _⟩ := hs.arm_inv
      rw [← huri]
      exact passes_ne_nil_of_isListening h hc hl
    | tail _ ha => exact ih ha

theorem waited_or_seen?_of_arm (h : History es s) (ha : .arm i u ∈ es) :
    ∃ c, s.callers[i]? = some c ∧ (c.waited = true ∨ c.seen?.isSome = true) := by
  induction h with
  | refl => simp at ha
  | step h hs ih =>
    cases ha with
    | head =>
      obtain ⟨_, c', _, _, _, hc', _, hseen⟩ := hs.arm_inv
      exact ⟨c', hc', .inr hseen⟩
    | tail _ ha =>
      obtain ⟨c, hc, hor⟩ := ih ha
      obtain ⟨c', hc', hm⟩ := hs.caller_after hc
      refine ⟨c', hc', ?_⟩
      cases hm with
      | inl heq => rwa [heq]
      | inr hm => exact hm.waited_or_seen? hor

theorem armed_and_told (h : History es s) (hc : s.callers[i]? = some c)
    (hseen : c.seen? = some seen) :
    .arm i c.uri ∈ es
      ∧ (seen < s.settles → ∃ e, e.tells = true ∧ List.Sublist [e, .arm i c.uri] es) := by
  induction h generalizing c with
  | refl => simp [start] at hc
  | @step t t' e es h hs ih =>
    have hsettles := hs.settles_eq
    -- What is told in this step is told to all who listened before it.
    have hgo {b : Caller} (hb : t.callers[i]? = some b) (hbseen : b.seen? = some seen) :
        .arm i b.uri ∈ e :: es
          ∧ (seen < t'.settles →
            ∃ e', e'.tells = true ∧ List.Sublist [e', .arm i b.uri] (e :: es)) := by
      obtain ⟨harm, htold⟩ := ih hb hbseen
      refine ⟨.tail _ harm, ?_⟩
      intro hlt
      cases htells : e.tells with
      | true => exact ⟨e, htells, (List.singleton_sublist.mpr harm).cons_cons e⟩
      | false =>
        rw [htells, Bool.toNat_false] at hsettles
        obtain ⟨e', he', hsub⟩ := htold (by omega)
        exact ⟨e', he', hsub.cons e⟩
    rcases hs.caller_before hc with ⟨hsame, _⟩ | ⟨b, hb, hm⟩ | ⟨uri, _, hstart⟩
    . exact hgo hsame hseen
    . cases hm.seen?_of_seen? hseen with
      | inl hbseen =>
        rw [hm.uri_eq]
        exact hgo hb hbseen
      | inr harm =>
        obtain ⟨he, hnow⟩ := harm
        refine ⟨?_, ?_⟩
        . rw [he]
          exact .head _
        . intro hlt
          rw [he] at hsettles
          simp only [Event.tells, Bool.toNat_false] at hsettles
          omega
    . rw [hstart] at hseen
      simp [Caller.start, Caller.seen?] at hseen

theorem Step.tells_before (h : Step s e t) (hi : t.Tells i u) :
    s.Tells i u ∨ ∃ generation result, e = .settle i u generation result := by
  obtain ⟨c, result, hc, huri, hphase⟩ := hi
  rcases h.caller_before hc with ⟨hsame, _⟩ | ⟨b, hb, hm⟩ | ⟨uri, _, hstart⟩
  . exact .inl ⟨c, result, hsame, huri, hphase⟩
  . cases hm with
    | settle =>
      dsimp only at huri
      rw [huri]
      exact .inr ⟨_, _, rfl⟩
    | idle => exact .inl ⟨c, result, hb, huri, hphase⟩
    | _ => simp at hphase
  . rw [hstart] at hphase
    simp [Caller.start] at hphase

theorem Tells.settled (h : History es s) (hi : s.Tells i u) :
    ∃ generation result, .settle i u generation result ∈ es := by
  induction h with
  | refl =>
    obtain ⟨c, _, hc, _⟩ := hi
    simp [start] at hc
  | step _ hs ih =>
    cases hs.tells_before hi with
    | inl hi =>
      obtain ⟨generation, result, hmem⟩ := ih hi
      exact ⟨generation, result, .tail _ hmem⟩
    | inr he =>
      obtain ⟨generation, result, he⟩ := he
      exact ⟨generation, result, by rw [he]; exact .head _⟩

theorem settled_of_tell (h : History es s) (htell : .tell i u ∈ es) :
    ∃ generation result, .settle i u generation result ∈ es := by
  induction h with
  | refl => simp at htell
  | step h hs ih =>
    cases htell with
    | head =>
      obtain ⟨_, _, hc, _, hm⟩ := hs.moves rfl
      cases hm with
      | tell =>
        have hi : Tells _ i u := ⟨_, _, hc, rfl, rfl⟩
        obtain ⟨generation, result, hmem⟩ := hi.settled h
        exact ⟨generation, result, .tail _ hmem⟩
    | tail _ htell =>
      obtain ⟨generation, result, hmem⟩ := ih htell
      exact ⟨generation, result, .tail _ hmem⟩

theorem Step.leaving_before (h : Step s e t) (hu : u ∈ t.leaving) :
    u ∈ s.leaving ∨ e = .forget u := by
  rw [h.leaving_eq] at hu
  cases e with
  | forget uri =>
    cases hu with
    | head => exact .inr rfl
    | tail _ hu => exact .inl hu
  | announce uri => exact .inl (List.mem_of_mem_erase hu)
  | _ => exact .inl hu

theorem forgotten_of_mem_leaving (h : History es s) (hu : u ∈ s.leaving) : .forget u ∈ es := by
  induction h with
  | refl => simp [start] at hu
  | step _ hs ih =>
    cases hs.leaving_before hu with
    | inl hu => exact .tail _ (ih hu)
    | inr he =>
      rw [he]
      exact .head _

theorem forgotten_of_announce (h : History es s) (ha : .announce u ∈ es) : .forget u ∈ es := by
  induction h with
  | refl => simp at ha
  | step h hs ih =>
    cases ha with
    | head => exact .tail _ (forgotten_of_mem_leaving h hs.allows)
    | tail _ ha => exact .tail _ (ih ha)

end Flight

end InkServer
