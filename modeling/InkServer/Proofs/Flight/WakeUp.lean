import InkServer.Proofs.Flight.Generation

/-!
This module contains the proof that nobody waits in vain: as long as a caller that waits was not
told anything, there is someone who will tell it.
-/

namespace InkServer

namespace Event

def tells : Event → Bool
  | announce _ => true
  | tell _ _ => true
  | _ => false

def leave (leaving : List String) : Event → List String
  | forget uri => uri :: leaving
  | announce uri => leaving.erase uri
  | _ => leaving

end Event

namespace Caller

/-- How often those who wait were told before the caller began to listen. -/
def seen? (c : Caller) : Option Nat :=
  match c.phase with
  | .armed seen => some seen
  | .parking seen => some seen
  | .parked seen => some seen
  | _ => none

/-- The caller saw that its pass goes on, and waits or is about to. -/
def isWaiting (c : Caller) : Bool :=
  match c.phase with
  | .parking _ => true
  | .parked _ => true
  | _ => false

variable {r : Registry} {settles i : Nat} {c c' : Caller} {e : Event}

theorem event_tells (c next : Caller) : (c.event i next).tells = false := by
  unfold event
  split <;> rfl

theorem event_leave (c next : Caller) (leaving : List String) :
    (c.event i next).leave leaving = leaving := by
  unfold event
  split <;> rfl

theorem Moves.seen?_of_seen? {seen : Nat} (h : Moves r settles i c e c')
    (hseen : c'.seen? = some seen) :
    c.seen? = some seen ∨ (e = .arm i c'.uri ∧ seen = settles) := by
  cases h <;> simp_all [seen?]

theorem Moves.of_isWaiting (h : Moves r settles i c e c') (hw : c'.isWaiting = true) :
    e = .quiet i ∧ c.seen? = c'.seen?
      ∧ (r.state? c'.uri = some .copying ∨ (c.isWaiting = true ∧ c.uri = c'.uri)) := by
  cases h <;> simp_all [isWaiting, seen?]

end Caller

namespace Flight

variable {s t : Flight} {e : Event} {es : List Event} {i j seen : Nat} {u : String} {c : Caller}

theorem Step.settles_eq (h : Step s e t) : t.settles = s.settles + e.tells.toNat := by
  cases h with
  | advance hc =>
    rw [Caller.event_tells]
    rfl
  | _ => rfl

theorem Step.leaving_eq (h : Step s e t) : t.leaving = e.leave s.leaving := by
  cases h with
  | advance hc =>
    rw [Caller.event_leave]
    rfl
  | _ => rfl

theorem seen_le (h : History es s) (hc : s.callers[i]? = some c) (hseen : c.seen? = some seen) :
    seen ≤ s.settles := by
  induction h generalizing c with
  | refl => simp [start] at hc
  | step _ hs ih =>
    have hsettles := hs.settles_eq
    cases hs.caller_before hc with
    | inl hsame =>
      have hle := ih hsame.1 hseen
      omega
    | inr hnew =>
      cases hnew with
      | inl hmoved =>
        obtain ⟨b, hb, hm⟩ := hmoved
        cases hm.seen?_of_seen? hseen with
        | inl hseen =>
          have hle := ih hb hseen
          omega
        | inr harm => omega
      | inr hcalled =>
        obtain ⟨uri, _, hstart⟩ := hcalled
        rw [hstart] at hseen
        simp [Caller.start, Caller.seen?] at hseen

/-- The caller `i` settled a pass over the workspace `u` and is about to tell those who wait. -/
def Tells (s : Flight) (i : Nat) (u : String) : Prop :=
  ∃ c result, s.callers[i]? = some c ∧ c.uri = u ∧ c.phase = .telling result

/-- Someone will tell those who wait for a pass over the workspace `u`: a pass is under way, or it
was settled, or the workspace was forgotten, and this is still to be told. -/
def Attended (s : Flight) (u : String) : Prop :=
  s.registry.state? u = some .copying ∨ (∃ i, s.Tells i u) ∨ u ∈ s.leaving

theorem Step.tells_of_settle {generation : Nat} {result : Registry.PassResult}
    (h : Step s (.settle i u generation result) t) : t.Tells i u := by
  obtain ⟨_, _, _, hc, hm⟩ := h.moves rfl
  cases hm with
  | settle result => exact ⟨_, _, hc, rfl, rfl⟩

theorem Step.tells (h : Step s e t) (htells : e.tells = false) (hi : s.Tells i u) :
    t.Tells i u := by
  obtain ⟨⟨uri, waited, phase⟩, result, hc, huri, hphase⟩ := hi
  dsimp only at hphase
  subst hphase
  obtain ⟨c, hc, hm⟩ := h.caller_after hc
  cases hm with
  | inl heq => exact ⟨c, result, hc, by rw [heq, huri], by rw [heq]⟩
  | inr hm =>
    cases hm with
    | tell => simp [Event.tells] at htells
    | idle => exact ⟨_, result, hc, huri, rfl⟩

theorem Step.mem_leaving (h : Step s e t) (htells : e.tells = false) (hu : u ∈ s.leaving) :
    u ∈ t.leaving := by
  rw [h.leaving_eq]
  cases e with
  | forget uri => exact .tail _ hu
  | announce uri => simp [Event.tells] at htells
  | _ => exact hu

theorem Step.attended_of_copying (h : Step s e t) (hcopying : s.registry.state? u = some .copying) :
    Attended t u := by
  cases h.passStep u with
  | forget =>
    refine .inr (.inr ?_)
    rw [h.leaving_eq]
    exact .head _
  | start _ hstate _ => exact .inl hstate
  | @settle i => exact .inr (.inl ⟨i, h.tells_of_settle⟩)
  | other _ hstate _ => exact .inl (hstate.mpr hcopying)

theorem Step.attended (h : Step s e t) (htells : e.tells = false) (ha : Attended s u) :
    Attended t u := by
  rcases ha with hcopying | ⟨i, hi⟩ | hleaving
  . exact h.attended_of_copying hcopying
  . exact .inr (.inl ⟨i, h.tells htells hi⟩)
  . exact .inr (.inr (h.mem_leaving htells hleaving))

theorem Step.attended_of_isWaiting (h : Step s e t) (hist : History es s)
    (ih : ∀ (i : Nat) (c : Caller) seen, s.callers[i]? = some c → c.isWaiting = true → c.seen? = some seen →
      s.settles ≤ seen → Attended s c.uri)
    (hc : t.callers[i]? = some c) (hw : c.isWaiting = true) (hseen : c.seen? = some seen)
    (hle : t.settles ≤ seen) : Attended t c.uri := by
  have hsettles := h.settles_eq
  rcases h.caller_before hc with ⟨hsame, _⟩ | ⟨b, hb, hm⟩ | ⟨uri, _, hstart⟩
  . -- A caller that others tell something has been told.
    have htells : e.tells = false := by
      cases htells : e.tells with
      | false => rfl
      | true =>
        have hbefore := seen_le hist hsame hseen
        rw [htells, Bool.toNat_true] at hsettles
        omega
    exact h.attended htells (ih i c seen hsame hw hseen (by omega))
  . obtain ⟨he, hseen', hcases⟩ := hm.of_isWaiting hw
    have htells : e.tells = false := by
      rw [he]
      rfl
    apply h.attended htells
    cases hcases with
    | inl hcopying => exact .inl hcopying
    | inr hwaiting =>
      rw [← hwaiting.2]
      exact ih i b seen hb hwaiting.1 (by rw [hseen', hseen]) (by omega)
  . rw [hstart] at hw
    simp [Caller.start, Caller.isWaiting] at hw

theorem attended_of_isWaiting (h : History es s) (hc : s.callers[i]? = some c)
    (hw : c.isWaiting = true) (hseen : c.seen? = some seen) (hle : s.settles ≤ seen) :
    Attended s c.uri := by
  induction h generalizing i c seen with
  | refl => simp [start] at hc
  | step h hs ih =>
    apply hs.attended_of_isWaiting h _ hc hw hseen hle
    intro i c seen hc hw hseen hle
    exact ih hc hw hseen hle

/-- A copy that is being made has a pass under way that will settle it, and a caller that waits and
was not told anything waits for such a pass, or for another caller that settled a pass over its
workspace, or for someone who forgot it. -/
theorem copying_flies_and_parked_attended (h : History es s) :
    (∀ u x, s.registry.get? u = some x → x.state = .copying → ∃ i, s.Flies i u x.generation)
      ∧ ∀ (i : Nat) (c : Caller) seen, s.callers[i]? = some c → c.phase = .parked seen →
        ¬seen < s.settles →
        s.registry.state? c.uri = some .copying
          ∨ (∃ j, j ≠ i ∧ s.Tells j c.uri)
          ∨ c.uri ∈ s.leaving := by
  constructor
  . intro u x hx hcopying
    rw [← generation_of_get? hx]
    exact copying_flies h u (by rw [state?_of_get? hx, hcopying])
  . intro i c seen hc hphase hnot
    have hw : c.isWaiting = true := by simp [Caller.isWaiting, hphase]
    have hseen : c.seen? = some seen := by simp [Caller.seen?, hphase]
    rcases attended_of_isWaiting h hc hw hseen (by omega) with
      hcopying | ⟨j, hj⟩ | hleaving
    . exact .inl hcopying
    . refine .inr (.inl ⟨j, ?_, hj⟩)
      intro hij
      obtain ⟨d, result, hd, _, htelling⟩ := hj
      rw [hij, hc, Option.some.injEq] at hd
      rw [← hd, hphase] at htelling
      simp at htelling
    . exact .inr (.inr hleaving)

/-- A pass was settled, and the caller that waits for it was not told yet. -/
def unheard : Flight :=
  let w := (Path.ofString "/w").normalize
  ⟨⟨[("/w", ⟨w, .ready (.ofString "/s"), 1⟩)]⟩, 0,
    [⟨"/w", false, .telling (.ok ⟨"/w", w, some (.ofString "/s")⟩)⟩,
      ⟨"/w", false, .parked 0⟩], []⟩

theorem history_unheard :
    History
      [.settle 0 "/w" 1 (.ok (.ofString "/s")), .quiet 1, .quiet 1, .arm 1 "/w",
        .look 1 "/w" none, .call "/w", .look 0 "/w" (some 1), .call "/w",
        .register "/w" (.ofString "/w")] unheard := by
  apply history_of_acts?
    [.register "/w", .call "/w", .advance 0, .call "/w", .advance 1, .advance 1, .advance 1,
      .advance 1, .settle 0 (.ok (.ofString "/s"))] .refl
  rfl

theorem parked_attended_unheard :
    unheard.callers[1]? = some ⟨"/w", false, .parked 0⟩ ∧ ¬0 < unheard.settles
      ∧ unheard.registry.state? "/w" ≠ some .copying
      ∧ ∃ j, j ≠ 1 ∧ unheard.Tells j "/w" := by
  have hnot : unheard.registry.state? "/w" ≠ some .copying := by
    intro hcopying
    cases hcopying
  refine ⟨rfl, by simp [unheard], hnot, ?_⟩
  rcases (copying_flies_and_parked_attended history_unheard).2 1 _ 0 rfl rfl (by simp [unheard])
    with hcopying | htelling | hleaving
  . exact absurd hcopying hnot
  . exact htelling
  . simp [unheard] at hleaving

end Flight

end InkServer
