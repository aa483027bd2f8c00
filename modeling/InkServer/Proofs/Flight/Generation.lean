import InkServer.Proofs.Flight.Action
import InkServer.Proofs.Flight.Passes
import Mathlib.Data.List.Nodup

/-!
This module contains what the generation of an entry says about the passes that are under way. While
a workspace is not forgotten, its generation names one pass; once it is registered anew, the passes
of its earlier registration may carry the same generation.
-/

namespace InkServer

namespace Flight

variable {s t : Flight} {e : Event} {es es' : List Event} {i j generation : Nat} {u : String}
  {x : Entry}

theorem state?_eq : s.registry.state? u = (s.registry.get? u).map Entry.state := rfl

theorem state?_of_get? (hx : s.registry.get? u = some x) :
    s.registry.state? u = some x.state := by
  rw [state?_eq, hx]
  rfl

theorem Step.copying_iff (h : Step s e t) (hf : e.forgets u = false) (hp : e.pass? u = none)
    (hs : ∀ i generation result, e ≠ .settle i u generation result) :
    t.registry.state? u = some .copying ↔ s.registry.state? u = some .copying := by
  rw [state?_eq, state?_eq, h.get?]
  cases e with
  | register uri root =>
    simp only [Event.effect]
    split
    . cases s.registry.get? u <;> simp
    . rfl
  | forget uri =>
    have hu : u ≠ uri := by simpa [Event.forgets, eq_comm] using hf
    rw [Event.effect, if_neg hu]
  | giveUp caller uri scratch =>
    simp only [Event.effect]
    split
    . cases s.registry.get? u <;> simp [Entry.giveUp_state_eq_copying]
    . rfl
  | look caller uri begun =>
    cases begun with
    | none => rfl
    | some generation =>
      have hu : u ≠ uri := by simpa [Event.pass?, eq_comm] using hp
      rw [Event.effect, if_neg hu]
  | settle caller uri generation result =>
    have hu : u ≠ uri := by
      intro hu
      exact hs caller generation result (by rw [hu])
    rw [Event.effect, if_neg hu]
  | announce uri => rfl
  | call uri => rfl
  | arm caller uri => rfl
  | tell caller uri => rfl
  | quiet caller => rfl

theorem Step.state?_of_settle {result : Registry.PassResult}
    (h : Step s (.settle i u generation result) t) :
    t.registry.state? u
      =
    if s.generation u = generation then
      (s.registry.get? u).map fun _ => .ofResult result
    else
      s.registry.state? u := by
  rw [state?_eq, state?_eq, h.get?]
  simp only [Event.effect, if_true]
  cases hx : s.registry.get? u with
  | none => simp
  | some x =>
    rw [generation_of_get? hx]
    split
    . next hg => simp [Entry.settlePass_of_eq hg]
    . next hg => simp [Entry.settlePass_of_ne hg]

theorem Step.not_copying_of_settle {result : Registry.PassResult}
    (h : Step s (.settle i u (s.generation u) result) t) :
    t.registry.state? u ≠ some .copying := by
  rw [h.state?_of_settle, if_pos rfl]
  cases s.registry.get? u with
  | none => simp
  | some x => simpa using CopyState.ofResult_ne_copying result

theorem Step.copying_of_pass {p : Nat × Nat} (h : Step s e t) (hp : e.pass? u = some p) :
    t.registry.state? u = some .copying := by
  have he := Event.pass?_eq_some hp
  subst he
  obtain ⟨c, x, _, _, _, hx, _, _, _⟩ := h.look_some
  rw [state?_eq, h.get?, hx]
  simp [Event.effect]

/-- What a step does to the passes over the workspace `u`. -/
inductive PassStep (s t : Flight) (u : String) : Event → Prop where
  | forget (hstate : t.registry.state? u = none) : PassStep s t u (.forget u)
  | start {i : Nat} (hgeneration : t.generation u = s.generation u + 1)
    (hstate : t.registry.state? u = some .copying)
    (hflies : ∀ j generation, t.Flies j u generation
      ↔ s.Flies j u generation ∨ (j = i ∧ generation = s.generation u + 1)) :
    PassStep s t u (.look i u (some (s.generation u + 1)))
  | settle {i generation : Nat} {result : Registry.PassResult}
    (hfly : s.Flies i u generation) (hgeneration : t.generation u = s.generation u)
    (hstate : s.generation u ≠ generation → t.registry.state? u = s.registry.state? u)
    (hsettled : s.generation u = generation → t.registry.state? u ≠ some .copying)
    (hflies : ∀ j generation', t.Flies j u generation'
      ↔ s.Flies j u generation' ∧ ¬(j = i ∧ generation' = generation)) :
    PassStep s t u (.settle i u generation result)
  | other {e : Event} (hgeneration : t.generation u = s.generation u)
    (hstate : t.registry.state? u = some .copying ↔ s.registry.state? u = some .copying)
    (hflies : ∀ j generation, t.Flies j u generation ↔ s.Flies j u generation) :
    PassStep s t u e

theorem Step.passStep_of_settle {result : Registry.PassResult}
    (h : Step s (.settle i u generation result) t) :
    PassStep s t u (.settle i u generation result) := by
  apply PassStep.settle h.settle_flies (h.generation_of_none rfl rfl)
  . intro hne
    rw [h.state?_of_settle, if_neg hne]
  . intro heq
    rw [← heq] at h
    exact h.not_copying_of_settle
  . intro j generation'
    rw [h.flies_iff]
    simp only [ne_eq, Event.settle.injEq, true_and, reduceCtorEq, or_false]
    apply and_congr_right
    intro _
    constructor
    . rintro hne ⟨hj, hg⟩
      exact hne result ⟨hj.symm, hg.symm, rfl⟩
    . rintro hne result' ⟨hj, hg, _⟩
      exact hne ⟨hj.symm, hg.symm⟩

theorem Step.passStep (h : Step s e t) (u : String) : PassStep s t u e := by
  cases hf : e.forgets u with
  | true =>
    rw [Event.forgets_iff.mp hf] at h ⊢
    apply PassStep.forget
    rw [state?_eq, h.get?]
    simp [Event.effect]
  | false =>
    cases hp : e.pass? u with
    | some p =>
      obtain ⟨hnext, hgeneration⟩ := h.generation_of_some hp
      have hcopying := h.copying_of_pass hp
      rw [Event.pass?_eq_some hp, hgeneration] at h ⊢
      apply PassStep.start hnext hcopying
      intro j generation
      rw [h.flies_iff]
      simp [eq_comm]
    | none =>
      by_cases hs : ∃ i generation result, e = .settle i u generation result
      . obtain ⟨i, generation, result, he⟩ := hs
        rw [he] at h ⊢
        exact h.passStep_of_settle
      . have hne (i generation : Nat) (result : Registry.PassResult) :
            e ≠ .settle i u generation result := by
          intro he
          exact hs ⟨i, generation, result, he⟩
        apply PassStep.other (h.generation_of_none hf hp) (h.copying_iff hf hp hne)
        intro j generation
        have hlook : e ≠ .look j u (some generation) := by
          intro he
          simp [he, Event.pass?] at hp
        rw [h.flies_iff]
        simp [hlook, hne j generation]

theorem Step.copying_flies (h : Step s e t)
    (ih : s.registry.state? u = some .copying → ∃ i, s.Flies i u (s.generation u)) :
    t.registry.state? u = some .copying → ∃ i, t.Flies i u (t.generation u) := by
  intro hcopying
  cases h.passStep u with
  | forget hstate =>
    rw [hstate] at hcopying
    cases hcopying
  | @start i hgeneration _ hflies =>
    refine ⟨i, ?_⟩
    rw [hgeneration, hflies]
    exact .inr ⟨rfl, rfl⟩
  | settle _ hgeneration hstate hsettled hflies =>
    -- The pass that settles is not the last one, so the last one is still under way.
    have hne := fun heq => hsettled heq hcopying
    rw [hstate hne] at hcopying
    obtain ⟨j, hj⟩ := ih hcopying
    refine ⟨j, ?_⟩
    rw [hgeneration, hflies]
    exact ⟨hj, fun heq => hne heq.2⟩
  | other hgeneration hstate hflies =>
    obtain ⟨j, hj⟩ := ih (hstate.mp hcopying)
    refine ⟨j, ?_⟩
    rw [hgeneration, hflies]
    exact hj

theorem copying_flies (h : History es s) (u : String) :
    s.registry.state? u = some .copying → ∃ i, s.Flies i u (s.generation u) := by
  induction h with
  | refl =>
    intro hcopying
    cases hcopying
  | step _ hs ih => exact hs.copying_flies ih

theorem generation_pos (h : History es s) (hb : .look i u (some generation) ∈ es) :
    0 < generation := by
  induction h with
  | refl => simp at hb
  | step _ hs ih =>
    cases hb with
    | head =>
      obtain ⟨_, _, _, _, _, _, hgeneration, _, _⟩ := hs.look_some
      omega
    | tail _ hb => exact ih hb

theorem Flies.begun (h : History es s) (hf : s.Flies i u generation) :
    .look i u (some generation) ∈ es := by
  induction h with
  | refl =>
    obtain ⟨c, hc, _⟩ := hf
    simp [start] at hc
  | step _ hs ih =>
    rw [hs.flies_iff] at hf
    cases hf with
    | inl hf => exact .tail _ (ih hf.1)
    | inr he =>
      rw [he]
      exact .head _

theorem generations_nodup (h : History es s) (hu : .forget u ∉ es) :
    ((passes u es).map Prod.snd).Nodup := by
  have heq := generations_eq h u
  rw [since_eq_self hu] at heq
  rw [heq, List.nodup_reverse]
  exact List.nodup_range'

theorem Flies.eq_of_generation_eq (h : History es s) (hu : .forget u ∉ es)
    (hi : s.Flies i u generation) (hj : s.Flies j u generation) : i = j := by
  have heq : (i, generation) = (j, generation) := by
    apply List.inj_on_of_nodup_map (generations_nodup h hu)
    . exact mem_passes.mpr (hi.begun h)
    . exact mem_passes.mpr (hj.begun h)
    . rfl
  rw [Prod.mk.injEq] at heq
  exact heq.1

theorem Step.copying_of_flies (h : Step s e t) (hist : History es s) (hu : .forget u ∉ e :: es)
    (ih : ∀ i, s.Flies i u (s.generation u) → s.registry.state? u = some .copying) :
    t.Flies j u (t.generation u) → t.registry.state? u = some .copying := by
  intro hj
  rw [List.mem_cons, not_or] at hu
  cases h.passStep u with
  | forget => exact absurd rfl hu.1
  | start _ hstate _ => exact hstate
  | settle hfly hgeneration hstate _ hflies =>
    rw [hgeneration, hflies] at hj
    rw [hstate]
    . exact ih j hj.1
    . -- The last pass does not settle here, since the caller that carries it out does not.
      intro heq
      rw [← heq] at hfly
      exact hj.2 ⟨hj.1.eq_of_generation_eq hist hu.2 hfly, heq⟩
  | other hgeneration hstate hflies =>
    rw [hgeneration, hflies] at hj
    exact hstate.mpr (ih j hj)

theorem Flies.copying (h : History es s) (hu : .forget u ∉ es) :
    s.Flies i u (s.generation u) → s.registry.state? u = some .copying := by
  induction h generalizing i with
  | refl =>
    rintro ⟨c, hc, _⟩
    simp [start] at hc
  | step h hs ih =>
    apply hs.copying_of_flies h hu
    intro j
    exact ih fun hmem => hu (.tail _ hmem)

theorem copying_iff_existsUnique (h : History es s) (hu : .forget u ∉ es)
    (hx : s.registry.get? u = some x) :
    x.state = .copying ↔ ∃! i, s.Flies i u x.generation := by
  rw [← generation_of_get? hx]
  constructor
  . intro hcopying
    obtain ⟨i, hi⟩ := copying_flies h u (by rw [state?_of_get? hx, hcopying])
    refine ⟨i, hi, ?_⟩
    intro j hj
    exact hj.eq_of_generation_eq h hu hi
  . rintro ⟨i, hi, _⟩
    have hcopying := hi.copying h hu
    rw [state?_of_get? hx, Option.some.injEq] at hcopying
    exact hcopying

theorem Step.get?_of_ready {scratch : Path} (h : Step s e t) (hist : History es s)
    (hu : .forget u ∉ es) (hx : s.registry.get? u = some x) (hready : x.state = .ready scratch)
    (hf : e ≠ .forget u) (hg : ∀ i, e ≠ .giveUp i u scratch) :
    t.registry.get? u = some x := by
  rw [h.get?, hx]
  cases e with
  | register uri root => simp [Event.effect]
  | forget uri =>
    have hne : u ≠ uri := by
      intro hne
      exact hf (by rw [hne])
    rw [Event.effect, if_neg hne]
  | giveUp caller uri scratch' =>
    simp only [Event.effect]
    split
    . next huri =>
      have hne : x.state ≠ .ready scratch' := by
        intro heq
        rw [hready, CopyState.ready.injEq] at heq
        exact hg caller (by rw [huri, heq])
      rw [Option.map_some, Entry.giveUp_of_ne hne]
    . rfl
  | look caller uri begun =>
    cases begun with
    | none => rfl
    | some generation =>
      simp only [Event.effect]
      split
      . next huri =>
        subst huri
        obtain ⟨_, y, _, _, _, hy, _, hnot, _⟩ := h.look_some
        rw [hx, Option.some.injEq] at hy
        subst hy
        exact absurd hready (hnot scratch)
      . rfl
  | settle caller uri generation result =>
    simp only [Event.effect]
    split
    . next huri =>
      subst huri
      have hne : x.generation ≠ generation := by
        intro heq
        have hfly := h.settle_flies
        rw [← heq, ← generation_of_get? hx] at hfly
        have hcopying := hfly.copying hist hu
        rw [state?_of_get? hx, hready] at hcopying
        simp at hcopying
      rw [Option.map_some, Entry.settlePass_of_ne hne]
    . rfl
  | announce uri => rfl
  | call uri => rfl
  | arm caller uri => rfl
  | tell caller uri => rfl
  | quiet caller => rfl

theorem Run.get?_of_ready {scratch : Path} (h : Run s es' t) (hist : History es s)
    (hu : .forget u ∉ es) (hx : s.registry.get? u = some x) (hready : x.state = .ready scratch)
    (hf : .forget u ∉ es') (hg : ∀ i, .giveUp i u scratch ∉ es') :
    t.registry.get? u = some x := by
  induction h with
  | refl => exact hx
  | @step t t' e es' h hs ih =>
    rw [List.mem_cons, not_or] at hf
    have hg' (i : Option Nat) : e ≠ .giveUp i u scratch ∧ .giveUp i u scratch ∉ es' := by
      have hne := hg i
      rw [List.mem_cons, not_or] at hne
      exact ⟨Ne.symm hne.1, hne.2⟩
    have hkept := ih hf.2 fun i => (hg' i).2
    have hu' : .forget u ∉ es' ++ es := by
      rw [List.mem_append, not_or]
      exact ⟨hf.2, hu⟩
    exact hs.get?_of_ready (.append hist h) hu' hkept hready (Ne.symm hf.1) fun i => (hg' i).1

/-- While a workspace is not forgotten, its copy is being made exactly if one pass of the generation
of its entry is under way, no two passes carry the same generation, and a copy that is ready stays
until it is given up. -/
theorem last_pass_unique_and_ready_stays (h : History es s) (hu : .forget u ∉ es) :
    ((passes u es).map Prod.snd).Nodup
      ∧ ∀ x, s.registry.get? u = some x →
        (x.state = .copying ↔ ∃! i, s.Flies i u x.generation)
          ∧ ∀ scratch, x.state = .ready scratch →
            (∀ es' t, Run s es' t → .forget u ∉ es' → (∀ i, .giveUp i u scratch ∉ es') →
              t.registry.get? u = some x)
              ∧ ∀ i t, Step s (.giveUp i u scratch) t → t.registry.state? u = some .absent := by
  refine ⟨generations_nodup h hu, ?_⟩
  intro x hx
  refine ⟨copying_iff_existsUnique h hu hx, ?_⟩
  intro scratch hready
  constructor
  . intro es' t hrun hf hg
    exact hrun.get?_of_ready h hu hx hready hf hg
  . intro i t hs
    rw [state?_eq, hs.get?, hx]
    simp [Event.effect, Entry.giveUp, hready]

/-- A pass over a workspace was overtaken by a second one: its caller waited for the first one and
was woken by a pass over another workspace. -/
def overtaken : Flight :=
  let v := (Path.ofString "/v").normalize
  let w := (Path.ofString "/w").normalize
  ⟨⟨[("/v", ⟨v, .ready (.ofString "/s"), 1⟩), ("/w", ⟨w, .copying, 2⟩)]⟩, 1,
    [⟨"/v", false, .done (.ok ⟨"/v", v, some (.ofString "/s")⟩)⟩,
      ⟨"/w", false, .copying w 1⟩, ⟨"/w", true, .copying w 2⟩], []⟩

def overtaking : List Event :=
  [.look 2 "/w" (some 2), .quiet 2, .tell 0 "/v", .settle 0 "/v" 1 (.ok (.ofString "/s")),
    .quiet 2, .arm 2 "/w", .look 2 "/w" none, .call "/w", .look 1 "/w" (some 1), .call "/w",
    .look 0 "/v" (some 1), .call "/v", .register "/w" (.ofString "/w"),
    .register "/v" (.ofString "/v")]

theorem history_overtaken : History overtaking overtaken := by
  apply history_of_acts?
    [.register "/v", .register "/w", .call "/v", .advance 0, .call "/w", .advance 1, .call "/w",
      .advance 2, .advance 2, .advance 2, .settle 0 (.ok (.ofString "/s")), .tell 0, .advance 2,
      .advance 2] .refl
  rfl

theorem last_pass_unique_overtaken :
    (∃! i, overtaken.Flies i "/w" 2)
      ∧ ∀ es' t, Run overtaken es' t → .forget "/v" ∉ es' →
        (∀ i, .giveUp i "/v" (.ofString "/s") ∉ es') →
        t.registry.state? "/v" = some (.ready (.ofString "/s")) := by
  have hw := last_pass_unique_and_ready_stays history_overtaken (u := "/w") (by simp [overtaking])
  have hv := last_pass_unique_and_ready_stays history_overtaken (u := "/v") (by simp [overtaking])
  refine ⟨(hw.2 _ rfl).1.mp rfl, ?_⟩
  intro es' t hrun hf hg
  rw [state?_of_get? (((hv.2 _ rfl).2 _ rfl).1 es' t hrun hf hg)]

theorem head?_passes (h : History es s) (u : String) :
    (passes u (since u es)).head?.map Prod.snd
      =
    if s.generation u = 0 then none else some (s.generation u) := by
  rw [← List.head?_map, generations_eq h]
  cases s.generation u with
  | zero => rfl
  | succ n => simp [List.range'_1_concat, Nat.add_comm]

theorem head?_passes_iff (h : History es s) (hx : s.registry.get? u = some x)
    (hpos : 0 < generation) :
    (∃ j, (passes u (since u es)).head? = some (j, generation)) ↔ x.generation = generation := by
  have hhead := head?_passes h u
  rw [generation_of_get? hx] at hhead
  constructor
  . rintro ⟨j, hj⟩
    rw [hj] at hhead
    split at hhead
    . simp at hhead
    . simpa [eq_comm] using hhead
  . intro hg
    rw [hg, if_neg (by omega), Option.map_eq_some_iff] at hhead
    obtain ⟨p, hp, hpg⟩ := hhead
    exact ⟨p.1, by rw [hp, ← hpg]⟩

theorem ne_of_begun_before (h : History (es' ++ .forget u :: es) s)
    (hb : .look i u (some generation) ∈ es) {p : Nat × Nat}
    (hp : (passes u (since u es')).head? = some p) : p.1 ≠ i := by
  intro heq
  -- Both passes stand in the history, and no caller begins two.
  have hmem := List.mem_of_mem_head? hp
  have hlook := since_subset (mem_passes.mp hmem)
  have hnodup := begun_nodup h
  unfold begun at hnodup
  rw [List.filterMap_append, List.nodup_append] at hnodup
  apply hnodup.2.2 p.1 (mem_begun hlook) i
  . rw [List.filterMap_cons]
    exact mem_begun hb
  . exact heq

theorem Flies.keeps_iff (hf : s.Flies i u generation) (hx : s.registry.get? u = some x) :
    (∀ result t, Step s (.settle i u generation result) t → t.registry.get? u = some x)
      ↔
    x.generation ≠ generation := by
  have hget {result : Registry.PassResult} {t : Flight}
      (hs : Step s (.settle i u generation result) t) :
      t.registry.get? u = some (x.settlePass generation result) := by
    rw [hs.get?, hx]
    simp [Event.effect]
  constructor
  . intro hkeeps hg
    -- A scratch folder and a failure cannot both leave the entry as it is.
    have hstate (result : Registry.PassResult) : x.state = .ofResult result := by
      obtain ⟨t, hs⟩ := hf.exists_settle result
      have heq := hkeeps result t hs
      rw [hget hs, Entry.settlePass_of_eq hg, Option.some.injEq] at heq
      rw [← heq]
    have hready := hstate (.ok ⟨[]⟩)
    rw [hstate (.error (.notRegistered u))] at hready
    simp [CopyState.ofResult] at hready
  . intro hg result t hs
    rw [hget hs, Entry.settlePass_of_ne hg]

/-- A pass that was begun before its workspace was forgotten leaves the entry of a later
registration as it is, whatever its result, exactly if the last pass since then, which is another
caller's, does not carry the same generation. -/
theorem forgotten_pass_keeps_entry_iff (h : History (es' ++ .forget u :: es) s)
    (hb : .look i u (some generation) ∈ es) (hf : s.Flies i u generation)
    (hx : s.registry.get? u = some x) :
    (∀ result t, Step s (.settle i u generation result) t → t.registry.get? u = some x)
      ↔
    ¬∃ j, j ≠ i ∧ (passes u (since u es')).head? = some (j, generation) := by
  have hpos : 0 < generation := by
    apply generation_pos h
    exact List.mem_append_right _ (.tail _ hb)
  have hhead := head?_passes_iff h hx hpos
  rw [since_append_forget] at hhead
  rw [hf.keeps_iff hx, ne_eq, ← hhead]
  apply not_congr
  constructor
  . rintro ⟨j, hj⟩
    exact ⟨j, ne_of_begun_before h hb hj, hj⟩
  . rintro ⟨j, _, hj⟩
    exact ⟨j, hj⟩

/-- A workspace was registered anew while its first pass was under way. -/
def renewed : Flight :=
  let root := (Path.ofString "/w").normalize
  ⟨⟨[("/w", .fresh root)]⟩, 1, [⟨"/w", false, .copying root 1⟩], []⟩

theorem history_renewed :
    History ([.register "/w" (.ofString "/w"), .announce "/w"] ++ .forget "/w" ::
      [.look 0 "/w" (some 1), .call "/w", .register "/w" (.ofString "/w")]) renewed := by
  apply history_of_acts?
    [.register "/w", .call "/w", .advance 0, .forget "/w", .announce "/w", .register "/w"] .refl
  rfl

theorem forgotten_pass_keeps_entry_renewed :
    renewed.Flies 0 "/w" 1
      ∧ ∀ result t, Step renewed (.settle 0 "/w" 1 result) t →
        t.registry.get? "/w" = some (.fresh (Path.ofString "/w").normalize) := by
  have hf : renewed.Flies 0 "/w" 1 := ⟨_, rfl, rfl, rfl⟩
  refine ⟨hf, ?_⟩
  apply (forgotten_pass_keeps_entry_iff history_renewed (.head _) hf rfl).mpr
  rintro ⟨j, _, hj⟩
  cases hj

/-- The workspace was registered anew, and the first pass since then is under way as well. -/
def twins : Flight :=
  let root := (Path.ofString "/w").normalize
  let c : Caller := ⟨"/w", false, .copying root 1⟩
  ⟨⟨[("/w", ⟨root, .copying, 1⟩)]⟩, 1, [c, c], []⟩

theorem history_twins :
    History ([.look 1 "/w" (some 1), .call "/w", .register "/w" (.ofString "/w"), .announce "/w"]
      ++ .forget "/w" :: [.look 0 "/w" (some 1), .call "/w", .register "/w" (.ofString "/w")])
      twins := by
  apply history_of_acts?
    [.register "/w", .call "/w", .advance 0, .forget "/w", .announce "/w", .register "/w",
      .call "/w", .advance 1] .refl
  rfl

/-- A pass from before the workspace was forgotten makes the entry of its new registration ready. -/
theorem forgotten_pass_settles_entry :
    ∃ es es' s t, History (es' ++ .forget "/w" :: es) s
      ∧ .look 0 "/w" (some 1) ∈ es
      ∧ Step s (.settle 0 "/w" 1 (.ok (.ofString "/s"))) t
      ∧ s.registry.state? "/w" = some .copying
      ∧ t.registry.state? "/w" = some (.ready (.ofString "/s")) := by
  refine ⟨_, _, twins, _, history_twins, .head _, .settle (i := 0) (c := twins.callers[0]) rfl rfl _,
    rfl, ?_⟩
  rfl

end Flight

end InkServer
