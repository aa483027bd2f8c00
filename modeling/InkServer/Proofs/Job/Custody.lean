import InkServer.Proofs.Job.Ready
import InkServer.Proofs.Job.Stretch

/-!
This module contains the passes that jobs have in hand. A pass that is under way is in the hands of a
job, which goes on with it whenever it can and settles it in the end. A job that waits for a pass to
settle has none itself.
-/

namespace InkServer

/-- Passes in someone's hands, each by its workspace and its generation. -/
abbrev Custody := String → Nat → Prop

namespace Custody

/-- No passes. -/
def none : Custody :=
  fun _ _ => False

def or (F G : Custody) : Custody :=
  fun u g => F u g ∨ G u g

theorem assoc (F G H : Custody) : (F.or G).or H = F.or (G.or H) := by
  funext u g
  exact propext or_assoc

theorem left_comm (F G H : Custody) : F.or (G.or H) = G.or (F.or H) := by
  funext u g
  exact propext or_left_comm

theorem or_none (F : Custody) : F.or none = F := by
  funext u g
  exact or_false _

theorem or_of_not {F : Custody} (h : ∀ u g, ¬F u g) (G : Custody) : F.or G = G := by
  funext u g
  exact propext (or_iff_right (h u g))

end Custody

namespace World

variable {F F' F'' G : Custody} {w v x : World} {u : String} {g : Nat}

/-- The pass is under way. -/
def IsCopying (w : World) (u : String) (g : Nat) : Prop :=
  ∃ e, w.registry.get? u = some e ∧ e.state = .copying ∧ e.generation = g

theorem state?_eq_copying_iff : w.registry.state? u = some .copying ↔ ∃ g, w.IsCopying u g := by
  unfold Registry.state? IsCopying
  rw [Option.map_eq_some_iff]
  constructor
  . rintro ⟨e, he, hs⟩
    exact ⟨e.generation, e, he, hs, rfl⟩
  . rintro ⟨_, e, he, hs, _⟩
    exact ⟨e, he, hs⟩

/-- Others went on. As long as nothing was settled, what is copied is still being copied. -/
structure Relies (w v : World) : Prop where
  settles : w.settles ≤ v.settles
  copying : v.settles = w.settles → ∀ u, w.registry.state? u = some .copying →
    v.registry.state? u = some .copying

theorem Relies.refl (w : World) : w.Relies w :=
  ⟨Nat.le_refl _, fun _ _ h => h⟩

theorem Relies.trans (h : w.Relies v) (h' : v.Relies x) : w.Relies x := by
  refine ⟨Nat.le_trans h.settles h'.settles, ?_⟩
  intro heq u hu
  have hle := h.settles
  have hle' := h'.settles
  exact h'.copying (by omega) u (h.copying (by omega) u hu)

theorem Relies.of_eq (hregistry : v.registry = w.registry) (hsettles : v.settles = w.settles) :
    w.Relies v :=
  ⟨Nat.le_of_eq hsettles.symm, fun _ u hu => by rw [hregistry, hu]⟩

/-- Someone who had the passes `F` in hand went on and has the passes `F'`. -/
structure Hands (F F' : Custody) (w v : World) : Prop extends w.Relies v where
  taken : ∀ u g, v.IsCopying u g → F' u g ∨ (w.IsCopying u g ∧ ¬F u g)

theorem Hands.trans (h : Hands F F' w v) (h' : Hands F' F'' v x) : Hands F F'' w x := by
  refine ⟨h.toRelies.trans h'.toRelies, ?_⟩
  intro u g hx
  rcases h'.taken u g hx with hF | ⟨hv, hF⟩
  . exact .inl hF
  . exact .inr ((h.taken u g hv).resolve_left hF)

theorem Hands.of_iff (hsettles : v.settles = w.settles)
    (hiff : ∀ u g, v.IsCopying u g ↔ w.IsCopying u g) (hF : ∀ u g, F u g → F' u g) :
    Hands F F' w v := by
  refine ⟨⟨Nat.le_of_eq hsettles.symm, ?_⟩, ?_⟩
  . intro _ u hu
    obtain ⟨g, hg⟩ := state?_eq_copying_iff.mp hu
    exact state?_eq_copying_iff.mpr ⟨g, (hiff u g).mpr hg⟩
  . intro u g hv
    by_cases h : F u g
    . exact .inl (hF u g h)
    . exact .inr ⟨(hiff u g).mp hv, h⟩

theorem Hands.of_eq (hregistry : v.registry = w.registry) (hsettles : v.settles = w.settles)
    (hF : ∀ u g, F u g → F' u g) : Hands F F' w v := by
  apply Hands.of_iff hsettles _ hF
  intro u g
  rw [IsCopying, IsCopying, hregistry]

theorem isCopying_markStale (w : World) (uri : String) (scratch : Path) (u : String) (g : Nat) :
    IsCopying { w with registry := w.registry.markStale uri scratch } u g ↔ w.IsCopying u g := by
  unfold IsCopying
  rw [Registry.get?_markStale]
  split
  . constructor
    . rintro ⟨e, he, hs, hg⟩
      obtain ⟨e', he', heq⟩ := Option.map_eq_some_iff.mp he
      subst heq
      exact ⟨e', he', (e'.giveUp_state_eq_copying scratch).mp hs,
        (e'.giveUp_generation scratch).symm.trans hg⟩
    . rintro ⟨e, he, hs, hg⟩
      refine ⟨e.giveUp scratch, by rw [he]; rfl, ?_, ?_⟩
      . exact (e.giveUp_state_eq_copying scratch).mpr hs
      . exact (e.giveUp_generation scratch).trans hg
  . rfl

theorem isCopying_register {uri : String} {ws : Workspace} {registry : Registry}
    (h : w.registry.register uri = .ok (ws, registry)) :
    IsCopying { w with registry } u g ↔ w.IsCopying u g := by
  obtain ⟨root, hroot⟩ := Registry.toPath_of_register h
  unfold IsCopying
  rw [Registry.get?_register hroot h]
  split
  . cases w.registry.get? u with
    | some e => rfl
    | none => simp [Entry.fresh]
  . rfl

theorem Alters.hands {gone : List String} (h : w.Alters gone v) : Hands .none .none w v := by
  induction h with
  | refl w => exact .of_eq rfl rfl fun _ _ h => h
  | trans _ _ ih ih' => exact ih.trans ih'
  | emit w he => exact .of_eq rfl rfl fun _ _ h => h
  | keep w disk initial deliveries => exact .of_eq rfl rfl fun _ _ h => h
  | openDocument w hpath => exact .of_eq rfl rfl fun _ _ h => h
  | closeDocument w path => exact .of_eq rfl rfl fun _ _ h => h
  | register w hr => exact .of_iff rfl (fun _ _ => isCopying_register hr) fun _ _ h => h
  | markStale w uri scratch =>
    exact .of_iff rfl (isCopying_markStale w uri scratch) fun _ _ h => h
  | @without w uri hgone =>
    refine ⟨⟨Nat.le_succ _, ?_⟩, ?_⟩
    . intro heq
      exact absurd heq (Nat.succ_ne_self _)
    . rintro u g ⟨e, he, hs⟩
      simp only [World.without, Registry.get?_forget] at he
      split at he
      . cases he
      . exact .inr ⟨⟨e, he, hs⟩, fun h => h⟩

end World

namespace Caller

variable {c : Caller} {cs : List Caller} {w v : World} {u : String} {g : Nat} {G : Custody}

/-- The caller carries out the pass. -/
def Flies (c : Caller) : Custody :=
  fun u g => c.uri = u ∧ ∃ root, c.phase = .copying root g

theorem not_flies (h : ∀ root g, c.phase ≠ .copying root g) : ¬c.Flies u g := by
  rintro ⟨_, root, hp⟩
  exact h root g hp

theorem not_flies_of_not_isWorking (h : c.isWorking = false) : ¬c.Flies u g := by
  apply not_flies
  intro root g hp
  simp [isWorking, hp] at h

/-- A caller that listens does so since a time that has come, and if nothing was settled since it saw
its pass go on, the pass still goes on. -/
def Alert (c : Caller) (w : World) : Prop :=
  match c.phase with
  | .armed seen => seen ≤ w.settles
  | .parking seen | .parked seen =>
    seen ≤ w.settles ∧ (w.settles = seen → w.registry.state? c.uri = some .copying)
  | _ => True

theorem isWorking_of_isFresh (h : c.isFresh = true) : c.isWorking = false := by
  rcases c with ⟨uri, waited, phase⟩
  cases phase with
  | looking | done => rfl
  | _ => cases h

theorem alert_of_isFresh (h : c.isFresh = true) (w : World) : c.Alert w := by
  rcases c with ⟨uri, waited, phase⟩
  cases phase with
  | looking | done => trivial
  | _ => cases h

theorem Alert.relies (h : c.Alert w) (hr : w.Relies v) : c.Alert v := by
  have hle := hr.settles
  rcases c with ⟨uri, waited, phase⟩
  cases phase with
  | armed seen => exact Nat.le_trans h hle
  | parking seen | parked seen =>
    refine ⟨Nat.le_trans h.1 hle, ?_⟩
    intro heq
    have hseen := h.1
    exact hr.copying (by omega) _ (h.2 (by omega))
  | _ => trivial

/-- A caller takes a step and leaves the passes of others alone. -/
theorem hands_advance (G : Custody) (c : Caller) (w : World) :
    World.Hands (c.Flies.or G) ((c.advance w.registry w.settles).1.Flies.or G) w
      { w with registry := (c.advance w.registry w.settles).2 } := by
  have hsame : ∀ c' : Caller, (∀ root g, c.phase ≠ .copying root g) →
      World.Hands (c.Flies.or G) (c'.Flies.or G) w w := by
    intro c' hphase
    refine .of_eq rfl rfl ?_
    rintro u g (h | h)
    . exact absurd h (not_flies hphase)
    . exact .inr h
  rcases c with ⟨uri, waited, phase⟩
  cases phase with
  | looking =>
    have hd := w.registry.nextStep_decides uri waited
    dsimp only [advance, look]
    generalize w.registry.nextStep uri waited = next at hd
    cases hd with
    | absent => exact hsame _ (by simp)
    | check => exact hsame _ (by simp)
    | wait => exact hsame _ (by simp)
    | @copy e he hs hw =>
      -- The pass that begins is in the hands of the caller.
      have hget := fun u => w.registry.get?_set uri u e.beginPass
      refine ⟨⟨Nat.le_refl _, ?_⟩, ?_⟩
      . intro _ u hu
        unfold Registry.state? at hu ⊢
        rw [hget]
        split
        . rfl
        . exact hu
      . rintro u g ⟨e', he', hs', hg'⟩
        dsimp only at he'
        rw [hget] at he'
        split at he'
        . next hu =>
          cases he'
          exact .inl (.inl ⟨hu.symm, e.root, by rw [← hg']; rfl⟩)
        . by_cases hG : G u g
          . exact .inl (.inr hG)
          . refine .inr ⟨⟨e', he', hs', hg'⟩, ?_⟩
            rintro (hF | hF)
            . exact not_flies (by simp) hF
            . exact hG hF
  | missing scratch =>
    refine .of_iff rfl (w.isCopying_markStale uri scratch) ?_
    rintro u g (hF | hF)
    . exact absurd hF (not_flies (by simp))
    . exact .inr hF
  | arming => exact hsame _ (by simp)
  | armed seen =>
    dsimp only [advance]
    split
    . exact hsame _ (by simp)
    . exact hsame _ (by simp)
  | parking seen =>
    dsimp only [advance]
    split
    . exact hsame _ (by simp)
    . exact hsame _ (by simp)
  | parked seen =>
    dsimp only [advance]
    split
    . exact hsame _ (by simp)
    . exact hsame _ (by simp)
  | _ => exact .of_eq rfl rfl fun _ _ h => h

theorem Alert.advance (h : c.Alert w) :
    (c.advance w.registry w.settles).1.Alert
      { w with registry := (c.advance w.registry w.settles).2 } := by
  rcases c with ⟨uri, waited, phase⟩
  cases phase with
  | looking =>
    dsimp only [Caller.advance, look]
    split <;> trivial
  | missing scratch => trivial
  | arming => exact Nat.le_refl _
  | armed seen =>
    dsimp only [Caller.advance]
    split
    . next hs => exact ⟨h, fun _ => hs⟩
    . trivial
  | parking seen =>
    dsimp only [Caller.advance]
    split
    . trivial
    . exact h
  | parked seen =>
    dsimp only [Caller.advance]
    split
    . trivial
    . exact h
  | _ => trivial

/-- A caller is left waiting only if nothing was settled since it listens. -/
theorem le_of_advance_parked {r : Registry} {settles seen : Nat}
    (h : (c.advance r settles).1.phase = .parked seen) : settles ≤ seen := by
  rcases c with ⟨uri, waited, phase⟩
  cases phase with
  | looking =>
    dsimp only [Caller.advance, look] at h
    split at h <;> cases h
  | armed seen =>
    dsimp only [Caller.advance] at h
    split at h <;> cases h
  | parking seen | parked seen =>
    dsimp only [Caller.advance] at h
    split at h
    . cases h
    . next hlt =>
      cases h
      omega
  | _ => cases h

def flown : List Caller → Custody
  | [] => .none
  | c :: cs => c.Flies.or (flown cs)

theorem flown_eq_none (h : ∀ c ∈ cs, c.isWorking = false) : flown cs = .none := by
  induction cs with
  | nil => rfl
  | cons c cs ih =>
    have hnot : ∀ u g, ¬c.Flies u g := fun u g => not_flies_of_not_isWorking (h c (.head _))
    rw [flown, Custody.or_of_not hnot]
    exact ih fun c hc => h c (.tail _ hc)

theorem hands_advances (G : Custody) (n : Nat) (c : Caller) (w : World) :
    World.Hands (c.Flies.or G) ((c.advances w.settles n w.registry).1.Flies.or G) w
      { w with registry := (c.advances w.settles n w.registry).2 } := by
  induction n generalizing c w with
  | zero => exact .of_eq rfl rfl fun _ _ h => h
  | succ n ih =>
    have hfirst := hands_advance G c w
    exact hfirst.trans (ih _ { w with registry := (c.advance w.registry w.settles).2 })

theorem Alert.advances (h : c.Alert w) (n : Nat) :
    (c.advances w.settles n w.registry).1.Alert
      { w with registry := (c.advances w.settles n w.registry).2 } := by
  induction n generalizing c w with
  | zero => exact h
  | succ n ih => exact ih h.advance

theorem le_of_advances_parked {r : Registry} {settles seen n : Nat}
    (h : (c.advances settles (n + 1) r).1.phase = .parked seen) : settles ≤ seen := by
  induction n generalizing c r with
  | zero => exact le_of_advance_parked h
  | succ n ih => exact ih h

theorem hands_moveAll (G : Custody) (cs : List Caller) (w : World) :
    World.Hands ((flown cs).or G) ((flown (moveAll w.settles cs w.registry).1).or G) w
      { w with registry := (moveAll w.settles cs w.registry).2 } := by
  induction cs generalizing G w with
  | nil => exact .of_eq rfl rfl fun _ _ h => h
  | cons c cs ih =>
    have hfirst := hands_advances ((flown cs).or G) 4 c w
    have hrest := ih ((c.advances w.settles 4 w.registry).1.Flies.or G)
      { w with registry := (c.advances w.settles 4 w.registry).2 }
    -- While the first caller goes on the others keep their passes, and so does it while they do.
    rw [Custody.left_comm, Custody.left_comm (flown (moveAll _ _ _).1)] at hrest
    have h := hfirst.trans hrest
    rw [← Custody.assoc, ← Custody.assoc] at h
    exact h

theorem relies_moveAll (cs : List Caller) (w : World) :
    w.Relies { w with registry := (moveAll w.settles cs w.registry).2 } :=
  (hands_moveAll .none cs w).toRelies

theorem alert_moveAll (h : ∀ c ∈ cs, c.Alert w) :
    ∀ c ∈ (moveAll w.settles cs w.registry).1,
      c.Alert { w with registry := (moveAll w.settles cs w.registry).2 } := by
  induction cs generalizing w with
  | nil => simp [moveAll]
  | cons c cs ih =>
    have hmoved := (h c (.head _)).advances 4
    have hrelies := (hands_advances .none 4 c w).toRelies
    have hrest := ih fun c hc => (h c (.tail _ hc)).relies hrelies
    intro d hd
    rcases List.mem_cons.mp hd with rfl | hd
    . exact hmoved.relies (relies_moveAll cs _)
    . exact hrest d hd

theorem le_of_moveAll_parked {r : Registry} {settles seen : Nat} (hc : c ∈ (moveAll settles cs r).1)
    (h : c.phase = .parked seen) : settles ≤ seen := by
  induction cs generalizing r with
  | nil => simp [moveAll] at hc
  | cons d cs ih =>
    rcases List.mem_cons.mp hc with heq | hc
    . rw [heq] at h
      exact @le_of_advances_parked d r settles seen 3 h
    . exact ih hc

end Caller

namespace World

variable {c : Caller} {cs : List Caller} {w v : World}

/-- A caller does its work and leaves the passes of others alone. -/
theorem hands_work (G : Custody) (w : World) (c : Caller) :
    Hands (c.Flies.or G) ((w.work c).2.Flies.or G) w (w.work c).1 := by
  rcases c with ⟨uri, waited, phase⟩
  have hsame : ∀ {v : World} {c' : Caller}, v.settles = w.settles →
      (∀ u g, v.IsCopying u g ↔ w.IsCopying u g) → (∀ root g, phase ≠ .copying root g) →
      Hands (Caller.Flies ⟨uri, waited, phase⟩ |>.or G) (c'.Flies.or G) w v := by
    intro v c' hsettles hiff hphase
    refine .of_iff hsettles hiff ?_
    rintro u g (h | h)
    . exact absurd h (Caller.not_flies hphase)
    . exact .inr h
  cases phase with
  | checking ws =>
    dsimp only [work]
    split
    . exact hsame rfl (w.isCopying_markStale _ _) (by simp)
    . exact hsame rfl (fun _ _ => Iff.rfl) (by simp)
  | copying root generation =>
    refine ⟨⟨Nat.le_succ _, fun heq => absurd heq (Nat.succ_ne_self _)⟩, ?_⟩
    rintro u g ⟨e, he, hs, hg⟩
    -- The pass that is settled is not under way any more.
    have hbefore : w.IsCopying u g ∧ ¬Caller.Flies ⟨uri, waited, .copying root generation⟩ u g := by
      dsimp only [work, copyPass, Caller.settle] at he
      rw [Registry.get?_commit] at he
      split at he
      . next hu =>
        obtain ⟨e', he', heq⟩ := Option.map_eq_some_iff.mp he
        by_cases hgen : e'.generation = generation
        . rw [Entry.settlePass_of_eq hgen] at heq
          rw [← heq] at hs
          exact absurd hs (CopyState.ofResult_ne_copying _)
        . rw [Entry.settlePass_of_ne hgen] at heq
          subst heq
          refine ⟨⟨e', he', hs, hg⟩, ?_⟩
          rintro ⟨_, root', hp⟩
          cases hp
          exact hgen hg
      . next hu =>
        refine ⟨⟨e, he, hs, hg⟩, ?_⟩
        rintro ⟨huri, _⟩
        exact hu huri.symm
    by_cases hG : G u g
    . exact .inl (.inr hG)
    . refine .inr ⟨hbefore.1, ?_⟩
      rintro (hF | hF)
      . exact hbefore.2 hF
      . exact hG hF
  | _ => exact .of_eq rfl rfl fun _ _ h => h

theorem hands_workFirst (w : World) (cs : List Caller) :
    Hands (Caller.flown cs) (Caller.flown (w.workFirst cs).2) w (w.workFirst cs).1 := by
  induction cs with
  | nil => exact .of_eq rfl rfl fun _ _ h => h
  | cons c cs ih =>
    unfold workFirst
    split
    . exact hands_work (Caller.flown cs) w c
    . next hidle =>
      have hnot : ∀ u g, ¬c.Flies u g :=
        fun u g => Caller.not_flies_of_not_isWorking (by simpa using hidle)
      dsimp only [Caller.flown]
      rw [Custody.or_of_not hnot, Custody.or_of_not hnot]
      exact ih

theorem hands_workAll (G : Custody) (w : World) (cs : List Caller) :
    Hands ((Caller.flown cs).or G) ((Caller.flown (w.workAll cs).2).or G) w (w.workAll cs).1 := by
  induction cs generalizing G w with
  | nil => exact .of_eq rfl rfl fun _ _ h => h
  | cons c cs ih =>
    have hfirst := hands_work ((Caller.flown cs).or G) w c
    have hrest := ih ((w.work c).2.Flies.or G) (w.work c).1
    rw [Custody.left_comm, Custody.left_comm (Caller.flown (workAll _ _).2)] at hrest
    have h := hfirst.trans hrest
    rw [← Custody.assoc, ← Custody.assoc] at h
    exact h

theorem flown_workAll (w : World) (cs : List Caller) : Caller.flown (w.workAll cs).2 = .none := by
  apply Caller.flown_eq_none
  induction cs generalizing w with
  | nil => simp [workAll]
  | cons c cs ih =>
    intro d hd
    rcases List.mem_cons.mp hd with rfl | hd
    . exact Job.isWorking_work c w
    . exact ih _ d hd

theorem alert_work (h : c.Alert w) : (w.work c).2.Alert (w.work c).1 := by
  rcases c with ⟨uri, waited, phase⟩
  cases phase with
  | checking ws =>
    dsimp only [work, Caller.check]
    cases ws.scratch with
    | none => trivial
    | some scratch =>
      cases hfolder : (some scratch).any w.disk.isFolder with
      | true => trivial
      | false => trivial
  | copying root generation => trivial
  | _ => exact h

theorem alert_workFirst (h : ∀ c ∈ cs, c.Alert w) :
    ∀ c ∈ (w.workFirst cs).2, c.Alert (w.workFirst cs).1 := by
  induction cs with
  | nil => simp [workFirst]
  | cons c cs ih =>
    intro d hd
    unfold workFirst at hd ⊢
    split at hd
    . next hworking =>
      rw [if_pos hworking]
      rcases List.mem_cons.mp hd with rfl | hd
      . exact alert_work (h c (.head _))
      . exact (h d (.tail _ hd)).relies (w.hands_work .none c).toRelies
    . next hworking =>
      rw [if_neg hworking]
      rcases List.mem_cons.mp hd with rfl | hd
      . exact (h d (.head _)).relies (w.hands_workFirst cs).toRelies
      . exact ih (fun c hc => h c (.tail _ hc)) d hd

end World

/-- A job with the passes in hand may stop for the query. A job that has one stops only to let others
go on, and one that waits for a pass saw one go on. -/
def Query.Suits (F : Custody) (w : World) : Query → Prop
  | rest => True
  | settled seen =>
    F = .none ∧ seen ≤ w.settles
      ∧ (w.settles = seen → ∃ u, w.registry.state? u = some .copying)
  | _ => F = .none

theorem Query.Suits.relies {F : Custody} {w v : World} {q : Query} (h : q.Suits F w)
    (hr : w.Relies v) : q.Suits F v := by
  cases q with
  | settled seen =>
    obtain ⟨hF, hseen, hcopying⟩ := h
    have hle := hr.settles
    refine ⟨hF, Nat.le_trans hseen hle, ?_⟩
    intro heq
    obtain ⟨u, hu⟩ := hcopying (by omega)
    exact ⟨u, hr.copying (by omega) u hu⟩
  | _ => exact h

namespace Step

variable {α β : Type} {F F' : Custody} {w v : World} {t : Step α}

/-- A job that has the passes `F` in hand goes on in `w` and keeps track of its passes to its end,
where it has none. -/
def Tends : Custody → World → Step α → Prop
  | F, w, done v _ => w.Hands F .none v
  | F, w, ask v q k =>
    ∃ F', w.Hands F F' v ∧ q.Suits F' v ∧ ∀ answer u, v.Relies u → Tends F' u (k answer u)

theorem Tends.after (h : w.Hands F F' v) (ht : t.Tends F' v) : t.Tends F w := by
  cases t with
  | done x a => exact h.trans ht
  | ask x q k =>
    obtain ⟨F'', hx, hsuits, hrest⟩ := ht
    exact ⟨F'', h.trans hx, hsuits, hrest⟩

theorem Tends.bind {f : α → World → Step β} (h : t.Tends F w) (hf : ∀ a v, (f a v).Tends .none v) :
    (t.bind f).Tends F w := by
  induction t generalizing F w with
  | done v a => exact .after h (hf a v)
  | ask v q k ih =>
    obtain ⟨F', hv, hsuits, hrest⟩ := h
    exact ⟨F', hv, hsuits, fun answer u hu => ih answer u (hrest answer u hu)⟩

end Step

namespace Job

variable {α : Type} {gone : List String} {job : Job α}

/-- Callers that are let go on carry out the passes that they begin, and wait for those of others. -/
theorem attend_tends (fuel : Nat) {cs : List Caller} {w : World} (h : ∀ c ∈ cs, c.Alert w) :
    (attend fuel cs w).Tends (Caller.flown cs) w := by
  induction fuel generalizing cs w with
  | zero =>
    have hwork := w.hands_workAll .none cs
    rw [World.flown_workAll, Custody.or_none, Custody.or_none] at hwork
    exact hwork
  | succ fuel ih =>
    have hmoved := Caller.hands_moveAll .none cs w
    have halert := Caller.alert_moveAll h
    rw [Custody.or_none, Custody.or_none] at hmoved
    rw [Flight.attend_succ]
    dsimp only
    split
    . refine ⟨_, hmoved, trivial, ?_⟩
      intro answer u hu
      exact .after (u.hands_workFirst _)
        (ih (World.alert_workFirst fun c hc => (halert c hc).relies hu))
    . next hworking =>
      have hnone : Caller.flown (Caller.moveAll w.settles cs w.registry).1 = .none := by
        apply Caller.flown_eq_none
        simpa using hworking
      rw [hnone] at hmoved
      split
      . next hany =>
        obtain ⟨c, hc, hp⟩ := List.any_eq_true.mp hany
        refine ⟨_, hmoved, ⟨rfl, Nat.le_refl _, fun _ => ⟨c.uri, ?_⟩⟩, ?_⟩
        . have hc' := halert c hc
          unfold Caller.isParked at hp
          split at hp
          . next seen hphase =>
            have hle := Caller.le_of_moveAll_parked hc hphase
            rw [Caller.Alert, hphase] at hc'
            exact hc'.2 (Nat.le_antisymm hle hc'.1)
          . cases hp
        . intro answer u hu
          have hrest := ih fun c hc => (halert c hc).relies hu
          rw [hnone] at hrest
          exact hrest
      . exact hmoved

theorem Made.tends (h : job.Made gone) (w : World) : (job w).Tends .none w := by
  have hrefl : ∀ w : World, w.Hands .none .none w := fun w => .of_eq rfl rfl fun _ _ h => h
  induction h generalizing w with
  | pure a => exact hrefl w
  | get => exact hrefl w
  | update hf => exact (hf w).hands
  | query q hq =>
    refine ⟨_, hrefl w, ?_, fun _ u _ => hrefl u⟩
    cases q with
    | settled seen => cases hq
    | rest => trivial
    | _ => rfl
  | @attend f hf hfresh fuel =>
    have htends := attend_tends fuel fun c hc => Caller.alert_of_isFresh (hfresh w c hc) (f w).1
    rw [Caller.flown_eq_none fun c hc => Caller.isWorking_of_isFresh (hfresh w c hc)] at htends
    exact .after (hf w).hands htends
  | bind _ _ ih ihf => exact (ih w).bind ihf

end Job

end InkServer
