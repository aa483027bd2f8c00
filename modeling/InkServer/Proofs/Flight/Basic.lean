import InkServer.Proofs.Registry
import InkServer.Workspace.Caller

/-!
This module contains the interleavings of those who work on the registry at the same time: callers
that need copies, and others that register workspaces, forget them and give up their copies. One
step is one access to what they share.
-/

namespace InkServer

/-- Something that happens while callers are at work. Callers are numbered as they come. -/
inductive Event where
  | register (uri : String) (root : Path)
  | forget (uri : String)
  /-- Those who wait are told that a workspace was forgotten. -/
  | announce (uri : String)
  /-- The copy of a workspace is given up, by a caller or by someone else. -/
  | giveUp (caller : Option Nat) (uri : String) (scratch : Path)
  | call (uri : String)
  /-- A caller looks at the entry, and begins a pass of the given generation if it has to. -/
  | look (caller : Nat) (uri : String) (begun : Option Nat)
  /-- A caller begins to listen for passes that settle. -/
  | arm (caller : Nat) (uri : String)
  | settle (caller : Nat) (uri : String) (generation : Nat) (result : Registry.PassResult)
  /-- A caller tells those who wait that it settled its pass. -/
  | tell (caller : Nat) (uri : String)
  /-- A caller takes a step that changes nothing but itself. -/
  | quiet (caller : Nat)

namespace Event

def actor? : Event → Option Nat
  | giveUp caller _ _ => caller
  | look caller _ _ => some caller
  | arm caller _ => some caller
  | settle caller _ _ _ => some caller
  | tell caller _ => some caller
  | quiet caller => some caller
  | _ => none

def effect (u : String) (x : Option Entry) : Event → Option Entry
  | register uri root => if u = uri then some (x.getD (.fresh root)) else x
  | forget uri => if u = uri then none else x
  | giveUp _ uri scratch => if u = uri then x.map (·.giveUp scratch) else x
  | look _ uri (some _) => if u = uri then x.map Entry.beginPass else x
  | settle _ uri generation result =>
    if u = uri then x.map (·.settlePass generation result) else x
  | _ => x

theorem of_effect_eq_some {u : String} {x : Option Entry} {y : Entry} {e : Event}
    (h : e.effect u x = some y) : (∃ z, x = some z) ∨ ∃ root, e = .register u root := by
  cases x with
  | some z => exact .inl ⟨z, rfl⟩
  | none =>
    unfold effect at h
    split at h
    . split at h
      . next huri => exact .inr ⟨_, by rw [huri]⟩
      . cases h
    all_goals simp at h

theorem of_effect_ready {u : String} {x : Option Entry} {y : Entry} {e : Event} {scratch : Path}
    (h : e.effect u x = some y) (hready : y.state = .ready scratch) :
    (∃ z, x = some z ∧ z.state = .ready scratch)
      ∨ ∃ i generation, e = .settle i u generation (.ok scratch) := by
  cases e with
  | register uri root =>
    simp only [effect] at h
    split at h
    . cases x with
      | none =>
        simp only [Option.getD_none, Option.some.injEq] at h
        rw [← h] at hready
        simp at hready
      | some z =>
        simp only [Option.getD_some] at h
        exact .inl ⟨y, h, hready⟩
    . exact .inl ⟨y, h, hready⟩
  | forget uri =>
    simp only [effect] at h
    split at h
    . simp at h
    . exact .inl ⟨y, h, hready⟩
  | giveUp caller uri given =>
    simp only [effect] at h
    split at h
    . rw [Option.map_eq_some_iff] at h
      obtain ⟨z, hz, hy⟩ := h
      rw [← hy] at hready
      exact .inl ⟨z, hz, Entry.giveUp_state_eq_ready hready⟩
    . exact .inl ⟨y, h, hready⟩
  | look caller uri begun =>
    cases begun with
    | none => exact .inl ⟨y, h, hready⟩
    | some generation =>
      simp only [effect] at h
      split at h
      . rw [Option.map_eq_some_iff] at h
        obtain ⟨z, _, hy⟩ := h
        rw [← hy] at hready
        simp at hready
      . exact .inl ⟨y, h, hready⟩
  | settle caller uri generation result =>
    simp only [effect] at h
    split at h
    . next huri =>
      rw [Option.map_eq_some_iff] at h
      obtain ⟨z, hz, hy⟩ := h
      rw [← hy] at hready
      cases Entry.settlePass_state_eq_ready hready with
      | inl hready => exact .inl ⟨z, hz, hready⟩
      | inr hok => exact .inr ⟨caller, generation, by rw [huri, hok]⟩
    . exact .inl ⟨y, h, hready⟩
  | announce uri => exact .inl ⟨y, h, hready⟩
  | call uri => exact .inl ⟨y, h, hready⟩
  | arm caller uri => exact .inl ⟨y, h, hready⟩
  | tell caller uri => exact .inl ⟨y, h, hready⟩
  | quiet caller => exact .inl ⟨y, h, hready⟩

end Event

namespace Caller

def generation? (c : Caller) : Option Nat :=
  match c.phase with
  | .copying _ generation => some generation
  | _ => none

/-- What is seen of the step that the caller `i` takes without work on files. -/
def event (i : Nat) (c next : Caller) : Event :=
  match c.phase with
  | .looking => .look i c.uri next.generation?
  | .missing scratch => .giveUp (some i) c.uri scratch
  | .arming => .arm i c.uri
  | _ => .quiet i

/-- The steps of the caller `i`, with what they need to find in the registry. -/
inductive Moves (r : Registry) (settles i : Nat) : Caller → Event → Caller → Prop where
  | refused {uri : String} {waited : Bool} (h : r.get? uri = none) :
    Moves r settles i ⟨uri, waited, .looking⟩ (.look i uri none)
      ⟨uri, waited, .done (.error (.notRegistered uri))⟩
  | ready {uri : String} {waited : Bool} {e : Entry} {scratch : Path} (h : r.get? uri = some e)
    (hs : e.state = .ready scratch) :
    Moves r settles i ⟨uri, waited, .looking⟩ (.look i uri none)
      ⟨uri, waited, .checking (e.snapshot uri)⟩
  | wait {uri : String} {e : Entry} (h : r.get? uri = some e) (hs : e.state = .copying) :
    Moves r settles i ⟨uri, false, .looking⟩ (.look i uri none) ⟨uri, false, .arming⟩
  | copy {uri : String} {waited : Bool} {e : Entry} (h : r.get? uri = some e)
    (hs : ∀ scratch, e.state ≠ .ready scratch) (hw : e.state = .copying → waited = true) :
    Moves r settles i ⟨uri, waited, .looking⟩ (.look i uri (some (e.generation + 1)))
      ⟨uri, waited, .copying e.root (e.generation + 1)⟩
  | giveUp {uri : String} {waited : Bool} {scratch : Path} :
    Moves r settles i ⟨uri, waited, .missing scratch⟩ (.giveUp (some i) uri scratch)
      ⟨uri, waited, .looking⟩
  | arm {uri : String} {waited : Bool} :
    Moves r settles i ⟨uri, waited, .arming⟩ (.arm i uri) ⟨uri, waited, .armed settles⟩
  | stay {uri : String} {waited : Bool} {seen : Nat} (h : r.state? uri = some .copying) :
    Moves r settles i ⟨uri, waited, .armed seen⟩ (.quiet i) ⟨uri, waited, .parking seen⟩
  | skip {uri : String} {waited : Bool} {seen : Nat} (h : r.state? uri ≠ some .copying) :
    Moves r settles i ⟨uri, waited, .armed seen⟩ (.quiet i) ⟨uri, true, .looking⟩
  | park {uri : String} {waited : Bool} {seen : Nat} (h : settles ≤ seen) :
    Moves r settles i ⟨uri, waited, .parking seen⟩ (.quiet i) ⟨uri, waited, .parked seen⟩
  | pass {uri : String} {waited : Bool} {seen : Nat} (h : seen < settles) :
    Moves r settles i ⟨uri, waited, .parking seen⟩ (.quiet i) ⟨uri, true, .looking⟩
  | wake {uri : String} {waited : Bool} {seen : Nat} (h : seen < settles) :
    Moves r settles i ⟨uri, waited, .parked seen⟩ (.quiet i) ⟨uri, true, .looking⟩
  | found {uri : String} {waited : Bool} {w : Workspace} :
    Moves r settles i ⟨uri, waited, .checking w⟩ (.quiet i) ⟨uri, waited, .done (.ok w)⟩
  | gone {uri : String} {waited : Bool} {w : Workspace} {scratch : Path}
    (h : w.scratch = some scratch) :
    Moves r settles i ⟨uri, waited, .checking w⟩ (.quiet i) ⟨uri, waited, .missing scratch⟩
  | unready {uri : String} {waited : Bool} {w : Workspace} (h : w.scratch = none) :
    Moves r settles i ⟨uri, waited, .checking w⟩ (.quiet i) ⟨uri, waited, .looking⟩
  | settle {uri : String} {waited : Bool} {root : Path} {generation : Nat}
    (result : Registry.PassResult) :
    Moves r settles i ⟨uri, waited, .copying root generation⟩
      (.settle i uri generation result)
      ⟨uri, waited, .telling (r.commit uri generation result).1⟩
  | tell {uri : String} {waited : Bool} {result : Except CopyError Workspace} :
    Moves r settles i ⟨uri, waited, .telling result⟩ (.tell i uri) ⟨uri, waited, .done result⟩
  | idle {c : Caller} : Moves r settles i c (.quiet i) c

variable {r : Registry} {settles i : Nat}

theorem advance_moves (c : Caller) (r : Registry) (settles i : Nat) :
    Moves r settles i c (c.event i (c.advance r settles).1) (c.advance r settles).1 := by
  rcases c with ⟨uri, waited, phase⟩
  cases phase with
  | looking =>
    simp only [advance, look, event]
    generalize hnext : r.nextStep uri waited = next
    have hd := r.nextStep_decides uri waited
    rw [hnext] at hd
    cases hd with
    | absent h => exact .refused h
    | check h hs => exact .ready h hs
    | wait h hs hw =>
      subst hw
      exact .wait h hs
    | copy h hs hw => exact .copy h hs hw
  | missing scratch => exact .giveUp
  | arming => exact .arm
  | armed seen =>
    simp only [advance, event]
    split
    . next h => exact .stay h
    . next h => exact .skip h
  | parking seen =>
    simp only [advance, event]
    split
    . next h => exact .pass h
    . next h => exact .park (by omega)
  | parked seen =>
    simp only [advance, event]
    split
    . next h => exact .wake h
    . exact .idle
  | checking w => exact .idle
  | copying root generation => exact .idle
  | telling result => exact .idle
  | done result => exact .idle

theorem check_moves {c : Caller} {w : Workspace} (hp : c.phase = .checking w) (found : Bool) :
    Moves r settles i c (.quiet i) (c.check w found) := by
  rcases c with ⟨uri, waited, phase⟩
  dsimp only at hp
  subst hp
  unfold check
  split
  . next h =>
    split
    . exact .found
    . exact .gone h
  . next h => exact .unready h

theorem settle_moves {c : Caller} {root : Path} {generation : Nat}
    (hp : c.phase = .copying root generation) (result : Registry.PassResult) :
    Moves r settles i c (.settle i c.uri generation result) (c.settle generation result r).1 := by
  rcases c with ⟨uri, waited, phase⟩
  dsimp only at hp
  subst hp
  exact .settle result

theorem tell_moves {c : Caller} {result : Except CopyError Workspace}
    (hp : c.phase = .telling result) :
    Moves r settles i c (.tell i c.uri) c.tell := by
  rcases c with ⟨uri, waited, phase⟩
  dsimp only at hp
  subst hp
  exact .tell

theorem Moves.actor?_eq {c c' : Caller} {e : Event} (h : Moves r settles i c e c') :
    e.actor? = some i := by
  cases h <;> rfl

theorem Moves.uri_eq {c c' : Caller} {e : Event} (h : Moves r settles i c e c') :
    c'.uri = c.uri := by
  cases h <;> rfl

theorem Moves.look_inv {c c' : Caller} {begun : Option Nat} {u : String} {j : Nat}
    (h : Moves r settles i c (.look j u begun) c') :
    c.uri = u ∧ c.phase = .looking := by
  cases h <;> simp

theorem Moves.generation?_iff {c c' : Caller} {e : Event} (h : Moves r settles i c e c')
    (u : String) (generation : Nat) :
    (c'.uri = u ∧ c'.generation? = some generation)
      ↔
    ((c.uri = u ∧ c.generation? = some generation)
        ∧ ∀ result, e ≠ .settle i u generation result)
      ∨ e = .look i u (some generation) := by
  cases h with
  | settle result =>
    simp only [generation?, ne_eq, Event.settle.injEq, true_and, reduceCtorEq, and_false, or_false,
      Option.some.injEq, false_iff]
    rintro ⟨⟨huri, hgeneration⟩, hne⟩
    exact hne result ⟨huri, hgeneration, rfl⟩
  | _ => simp [generation?]

theorem advance_get? (c : Caller) (r : Registry) (settles i : Nat) (u : String) :
    (c.advance r settles).2.get? u
      =
    (c.event i (c.advance r settles).1).effect u (r.get? u) := by
  rcases c with ⟨uri, waited, phase⟩
  cases phase with
  | looking =>
    simp only [advance, look, event]
    generalize hnext : r.nextStep uri waited = next
    have hd := r.nextStep_decides uri waited
    rw [hnext] at hd
    cases hd with
    | absent h => rfl
    | check h hs => rfl
    | wait h hs hw => rfl
    | copy h hs hw =>
      simp only [generation?, Event.effect]
      rw [Registry.get?_set]
      split
      . next hu => rw [hu, h, Option.map_some]
      . rfl
  | missing scratch =>
    simp only [advance, giveUp, event, Event.effect]
    apply Registry.get?_markStale
  | armed seen =>
    simp only [advance, event]
    split <;> rfl
  | parking seen =>
    simp only [advance, event]
    split <;> rfl
  | parked seen =>
    simp only [advance, event]
    split <;> rfl
  | arming => rfl
  | checking w => rfl
  | copying root generation => rfl
  | telling result => rfl
  | done result => rfl

end Caller

/-- Those who work on the registry at the same time, and what they share. -/
structure Flight where
  registry : Registry
  /-- How often those who wait were told so far. -/
  settles : Nat
  callers : List Caller
  /-- The workspaces that were forgotten and are still to be announced. -/
  leaving : List String

namespace Flight

/-- Nobody is there yet. -/
def start : Flight :=
  ⟨.empty, 0, [], []⟩

def put (s : Flight) (i : Nat) (p : Caller × Registry) : Flight :=
  { s with callers := s.callers.set i p.1, registry := p.2 }

/-- One step of anyone. -/
inductive Step : Flight → Event → Flight → Prop where
  | register {s : Flight} {uri : String} {root : Path} {w : Workspace} {r : Registry}
    (hroot : Uri.toPath uri = .ok root) (h : s.registry.register uri = .ok (w, r)) :
    Step s (.register uri root) { s with registry := r }
  | forget {s : Flight} {uri : String} (h : (s.registry.get? uri).isSome) :
    Step s (.forget uri)
      { s with registry := s.registry.forget uri, leaving := uri :: s.leaving }
  | announce {s : Flight} {uri : String} (h : uri ∈ s.leaving) :
    Step s (.announce uri)
      { s with leaving := s.leaving.erase uri, settles := s.settles + 1 }
  | giveUp {s : Flight} (uri : String) (scratch : Path) :
    Step s (.giveUp none uri scratch) { s with registry := s.registry.markStale uri scratch }
  | call {s : Flight} (uri : String) :
    Step s (.call uri) { s with callers := s.callers ++ [.start uri] }
  | advance {s : Flight} {i : Nat} {c : Caller} (hc : s.callers[i]? = some c) :
    Step s (c.event i (c.advance s.registry s.settles).1)
      (s.put i (c.advance s.registry s.settles))
  | check {s : Flight} {i : Nat} {c : Caller} {w : Workspace} (hc : s.callers[i]? = some c)
    (hp : c.phase = .checking w) (found : Bool) :
    Step s (.quiet i) (s.put i (c.check w found, s.registry))
  | settle {s : Flight} {i : Nat} {c : Caller} {root : Path} {generation : Nat}
    (hc : s.callers[i]? = some c) (hp : c.phase = .copying root generation)
    (result : Registry.PassResult) :
    Step s (.settle i c.uri generation result) (s.put i (c.settle generation result s.registry))
  | tell {s : Flight} {i : Nat} {c : Caller} {result : Except CopyError Workspace}
    (hc : s.callers[i]? = some c) (hp : c.phase = .telling result) :
    Step s (.tell i c.uri) { s.put i (c.tell, s.registry) with settles := s.settles + 1 }

/-- What a step needs to find that no caller takes. -/
def Allows (s : Flight) : Event → Prop
  | .register uri root => Uri.toPath uri = .ok root
  | .forget uri => (s.registry.get? uri).isSome = true
  | .announce uri => uri ∈ s.leaving
  | _ => True

/-- The events that lead from one state to another, the last one first. -/
inductive Run (s : Flight) : List Event → Flight → Prop where
  | refl : Run s [] s
  | step {t t' : Flight} {e : Event} {es : List Event} (h : Run s es t) (hs : Step t e t') :
    Run s (e :: es) t'

/-- What happened from the beginning, the last event first. -/
abbrev History (es : List Event) (s : Flight) : Prop :=
  Run start es s

/-- The caller `i` carries out a pass over the workspace `u`. -/
def Flies (s : Flight) (i : Nat) (u : String) (generation : Nat) : Prop :=
  ∃ c, s.callers[i]? = some c ∧ c.uri = u ∧ c.generation? = some generation

variable {s t : Flight} {e : Event} {es : List Event} {i j : Nat} {u : String}

theorem put_caller {c : Caller} (hc : s.callers[i]? = some c) (p : Caller × Registry) (j : Nat) :
    (s.put i p).callers[j]? = if j = i then some p.1 else s.callers[j]? := by
  have hi : i < s.callers.length := by
    rw [List.getElem?_eq_some_iff] at hc
    exact hc.1
  unfold put
  dsimp only
  rw [List.getElem?_set]
  split
  . next h => simp [h]
  . next h => rw [if_neg (Ne.symm h)]

theorem Step.get? (h : Step s e t) (u : String) :
    t.registry.get? u = e.effect u (s.registry.get? u) := by
  cases h with
  | register hroot h => apply Registry.get?_register hroot h
  | forget h => apply Registry.get?_forget
  | announce h => rfl
  | giveUp uri scratch => apply Registry.get?_markStale
  | call uri => rfl
  | advance hc => apply Caller.advance_get?
  | check hc hp found => rfl
  | settle hc hp result => apply Registry.get?_commit
  | tell hc hp => rfl

theorem Step.allows (h : Step s e t) : s.Allows e := by
  cases h with
  | register hroot h => exact hroot
  | forget h => exact h
  | announce h => exact h
  | advance hc =>
    unfold Caller.event
    split <;> trivial
  | _ => trivial

theorem Step.moves (h : Step s e t) (hi : e.actor? = some i) :
    ∃ c c', s.callers[i]? = some c ∧ t.callers[i]? = some c'
      ∧ Caller.Moves s.registry s.settles i c e c' := by
  cases h with
  | register hroot h => simp [Event.actor?] at hi
  | forget h => simp [Event.actor?] at hi
  | announce h => simp [Event.actor?] at hi
  | giveUp uri scratch => simp [Event.actor?] at hi
  | call uri => simp [Event.actor?] at hi
  | @advance j c hc =>
    have hm := Caller.advance_moves c s.registry s.settles j
    rw [hm.actor?_eq, Option.some.injEq] at hi
    subst hi
    exact ⟨c, _, hc, by rw [put_caller hc, if_pos rfl], hm⟩
  | @check j c w hc hp found =>
    simp only [Event.actor?, Option.some.injEq] at hi
    subst hi
    exact ⟨c, _, hc, by rw [put_caller hc, if_pos rfl], Caller.check_moves hp found⟩
  | @settle j c root generation hc hp result =>
    simp only [Event.actor?, Option.some.injEq] at hi
    subst hi
    exact ⟨c, _, hc, by rw [put_caller hc, if_pos rfl], Caller.settle_moves hp result⟩
  | @tell j c result hc hp =>
    simp only [Event.actor?, Option.some.injEq] at hi
    subst hi
    exact ⟨c, _, hc, by dsimp only; rw [put_caller hc, if_pos rfl], Caller.tell_moves hp⟩

theorem Step.others (h : Step s e t) (hi : e.actor? ≠ some i) :
    t.callers[i]? = s.callers[i]?
      ∨ ∃ uri, e = .call uri ∧ s.callers[i]? = none ∧ t.callers[i]? = some (.start uri) := by
  cases h with
  | register hroot h => exact .inl rfl
  | forget h => exact .inl rfl
  | announce h => exact .inl rfl
  | giveUp uri scratch => exact .inl rfl
  | call uri =>
    dsimp only
    rw [List.getElem?_append]
    split
    . exact .inl rfl
    . next hlen =>
      cases hd : i - s.callers.length with
      | zero => exact .inr ⟨uri, rfl, by simpa using hlen, rfl⟩
      | succ n => exact .inl (by simpa using hlen)
  | @advance j c hc =>
    rw [(Caller.advance_moves c s.registry s.settles j).actor?_eq] at hi
    rw [put_caller hc, if_neg (by simpa [eq_comm] using hi)]
    exact .inl rfl
  | check hc hp found =>
    rw [put_caller hc, if_neg (by simpa [eq_comm, Event.actor?] using hi)]
    exact .inl rfl
  | settle hc hp result =>
    rw [put_caller hc, if_neg (by simpa [eq_comm, Event.actor?] using hi)]
    exact .inl rfl
  | tell hc hp =>
    dsimp only
    rw [put_caller hc, if_neg (by simpa [eq_comm, Event.actor?] using hi)]
    exact .inl rfl

theorem Step.caller_after {c : Caller} (h : Step s e t) (hc : s.callers[i]? = some c) :
    ∃ c', t.callers[i]? = some c'
      ∧ (c' = c ∨ Caller.Moves s.registry s.settles i c e c') := by
  by_cases hi : e.actor? = some i
  . obtain ⟨d, c', hd, hc', hm⟩ := h.moves hi
    rw [hc, Option.some.injEq] at hd
    subst hd
    exact ⟨c', hc', .inr hm⟩
  . cases h.others hi with
    | inl heq => exact ⟨c, by rw [heq, hc], .inl rfl⟩
    | inr hnew =>
      obtain ⟨uri, _, hnone, _⟩ := hnew
      simp [hc] at hnone

theorem Step.caller_before {c : Caller} (h : Step s e t) (hc : t.callers[i]? = some c) :
    (s.callers[i]? = some c ∧ e.actor? ≠ some i)
      ∨ (∃ b, s.callers[i]? = some b ∧ Caller.Moves s.registry s.settles i b e c)
      ∨ (∃ uri, e = .call uri ∧ c = .start uri) := by
  by_cases hi : e.actor? = some i
  . obtain ⟨b, d, hb, hd, hm⟩ := h.moves hi
    rw [hc, Option.some.injEq] at hd
    subst hd
    exact .inr (.inl ⟨b, hb, hm⟩)
  . cases h.others hi with
    | inl heq => exact .inl ⟨by rw [← heq, hc], hi⟩
    | inr hnew =>
      obtain ⟨uri, he, _, ht⟩ := hnew
      rw [hc, Option.some.injEq] at ht
      exact .inr (.inr ⟨uri, he, ht⟩)

theorem flies_iff {c : Caller} {generation : Nat} (hc : s.callers[i]? = some c) :
    s.Flies i u generation ↔ c.uri = u ∧ c.generation? = some generation := by
  simp [Flies, hc]

theorem Step.flies_iff (h : Step s e t) (i : Nat) (u : String) (generation : Nat) :
    t.Flies i u generation
      ↔
    (s.Flies i u generation ∧ ∀ result, e ≠ .settle i u generation result)
      ∨ e = .look i u (some generation) := by
  by_cases hi : e.actor? = some i
  . obtain ⟨c, c', hc, hc', hm⟩ := h.moves hi
    rw [Flight.flies_iff hc, Flight.flies_iff hc']
    apply hm.generation?_iff
  . have hsettle : ∀ result, e ≠ .settle i u generation result := by
      intro result he
      simp [he, Event.actor?] at hi
    have hlook : e ≠ .look i u (some generation) := by
      intro he
      simp [he, Event.actor?] at hi
    have hsame : t.Flies i u generation ↔ s.Flies i u generation := by
      cases h.others hi with
      | inl heq => simp [Flies, heq]
      | inr hnew =>
        obtain ⟨uri, _, hs, ht⟩ := hnew
        simp [Flies, hs, ht, Caller.start, Caller.generation?]
    simp [hsame, hsettle, hlook]

theorem Step.look_some {generation : Nat} (h : Step s (.look i u (some generation)) t) :
    ∃ c x, s.callers[i]? = some c ∧ c.uri = u ∧ c.phase = .looking
      ∧ s.registry.get? u = some x ∧ generation = x.generation + 1
      ∧ (∀ scratch, x.state ≠ .ready scratch) ∧ (x.state = .copying → c.waited = true) := by
  obtain ⟨c, c', hc, hc', hm⟩ := h.moves rfl
  cases hm with
  | copy hx hs hw => exact ⟨_, _, hc, rfl, rfl, hx, rfl, hs, hw⟩

theorem Step.settle_flies {generation : Nat} {result : Registry.PassResult}
    (h : Step s (.settle i u generation result) t) : s.Flies i u generation := by
  obtain ⟨c, c', hc, hc', hm⟩ := h.moves rfl
  rw [Flight.flies_iff hc]
  cases hm with
  | settle => exact ⟨rfl, rfl⟩

theorem Flies.exists_settle {generation : Nat} (h : s.Flies i u generation)
    (result : Registry.PassResult) : ∃ t, Step s (.settle i u generation result) t := by
  obtain ⟨c, hc, huri, hgeneration⟩ := h
  unfold Caller.generation? at hgeneration
  split at hgeneration
  . next root g hp =>
    rw [Option.some.injEq] at hgeneration
    rw [← huri, ← hgeneration]
    exact ⟨_, .settle hc hp result⟩
  . simp at hgeneration

theorem Run.append {s t v : Flight} {es es' : List Event} (h : Run s es t) (h' : Run t es' v) :
    Run s (es' ++ es) v := by
  induction h' with
  | refl => exact h
  | step _ hs ih => exact .step ih hs

theorem Run.split {s t : Flight} {es es' : List Event} (h : Run s (es' ++ es) t) :
    ∃ m, Run s es m ∧ Run m es' t := by
  induction es' generalizing t with
  | nil => exact ⟨t, h, .refl⟩
  | cons e es' ih =>
    cases h with
    | step h hs =>
      obtain ⟨m, hm, hm'⟩ := ih h
      exact ⟨m, hm, .step hm' hs⟩

end Flight

end InkServer
