import InkServer.Proofs.Flight.Listening

/-!
This module contains the exact condition under which a workspace is copied only once while nothing
goes wrong: no caller that waits for its pass may be told of another workspace's pass and look again
before its own pass was settled.
-/

namespace InkServer

/-- Nothing goes wrong: no workspace is forgotten, no copy is given up and no pass fails. -/
def Event.isCalm : Event → Bool
  | forget _ => false
  | giveUp _ _ _ => false
  | settle _ _ _ (.error _) => false
  | _ => true

/-- Nothing went wrong so far. -/
def Calm (es : List Event) : Prop :=
  ∀ e ∈ es, e.isCalm = true

/-- A caller that listens for a pass over the workspace `u` was told that another workspace's pass
was settled, and looked again while no pass over `u` had been settled. -/
def Interrupted (u : String) (es : List Event) : Prop :=
  ∃ i j v begun before after,
    es = after ++ .look i u begun :: before
      ∧ v ≠ u
      ∧ List.Sublist [.tell j v, .arm i u] before
      ∧ ∀ k generation result, .settle k u generation result ∉ before

section

variable {e : Event} {es : List Event} {u : String}

theorem Calm.of_cons (h : Calm (e :: es)) : e.isCalm = true ∧ Calm es :=
  List.forall_mem_cons.mp h

theorem Calm.not_forget (h : Calm es) (u : String) : .forget u ∉ es := by
  intro hmem
  simpa [Event.isCalm] using h _ hmem

theorem Calm.settle_ok {i generation : Nat} {result : Registry.PassResult} (h : Calm es)
    (hmem : .settle i u generation result ∈ es) : ∃ scratch, result = .ok scratch := by
  cases result with
  | ok scratch => exact ⟨scratch, rfl⟩
  | error cause => simpa [Event.isCalm] using h _ hmem

theorem Interrupted.cons (h : Interrupted u es) : Interrupted u (e :: es) := by
  obtain ⟨i, j, v, begun, before, after, heq, hrest⟩ := h
  exact ⟨i, j, v, begun, before, e :: after, by rw [heq, List.cons_append], hrest⟩

theorem length_passes_cons_le : (passes u es).length ≤ (passes u (e :: es)).length := by
  cases hp : e.pass? u with
  | none => simp [passes_cons_of_none hp]
  | some p => simp [passes_cons_of_some hp]

end

namespace Caller

/-- What the caller comes to an end with, unless the scratch folder turns out to be gone. -/
def outcome? (c : Caller) : Option (Except CopyError Workspace) :=
  match c.phase with
  | .checking w => some (.ok w)
  | .telling result => some result
  | .done result => some result
  | _ => none

theorem Moves.of_outcome? {r : Registry} {settles i : Nat} {c c' : Caller} {e : Event}
    {result : Except CopyError Workspace} (h : Moves r settles i c e c')
    (ho : c'.outcome? = some result) :
    c.outcome? = some result
      ∨ result = .error (.notRegistered c.uri)
      ∨ (∃ x scratch, r.get? c.uri = some x ∧ x.state = .ready scratch
          ∧ result = .ok (x.snapshot c.uri))
      ∨ ∃ generation pass, e = .settle i c.uri generation pass
          ∧ result = (r.commit c.uri generation pass).1 := by
  cases h with
  | refused hx =>
    simp only [outcome?, Option.some.injEq] at ho
    exact .inr (.inl ho.symm)
  | ready hx hs =>
    simp only [outcome?, Option.some.injEq] at ho
    exact .inr (.inr (.inl ⟨_, _, hx, hs, ho.symm⟩))
  | settle pass =>
    simp only [outcome?, Option.some.injEq] at ho
    exact .inr (.inr (.inr ⟨_, pass, rfl, ho.symm⟩))
  | found => exact .inl ho
  | tell => exact .inl ho
  | idle => exact .inl ho
  | _ => simp [outcome?] at ho

end Caller

namespace Flight

variable {s t : Flight} {e : Event} {es : List Event} {i generation : Nat} {u : String}
  {c : Caller} {x : Entry} {scratch : Path}

theorem copying_of_unsettled (h : History es s) (hu : .forget u ∉ es)
    (hs : ∀ k generation result, .settle k u generation result ∉ es) (hp : passes u es ≠ []) :
    s.registry.state? u = some .copying := by
  induction h with
  | refl => simp [passes] at hp
  | @step t t' e es h hstep ih =>
    rw [List.mem_cons, not_or] at hu
    have hs' (k generation : Nat) (result : Registry.PassResult) :
        .settle k u generation result ∉ es := by
      intro hmem
      exact hs k generation result (.tail _ hmem)
    cases hpass : e.pass? u with
    | some p => exact hstep.copying_of_pass hpass
    | none =>
      rw [passes_cons_of_none hpass] at hp
      have hcopying := ih hu.2 hs' hp
      cases hstep.passStep u with
      | forget => exact absurd rfl hu.1
      | start _ hstate _ => exact hstate
      | settle => exact absurd (.head _) (hs _ _ _)
      | other _ hstate _ => exact hstate.mpr hcopying

theorem told_of_waited (h : History es s) (hu : .forget u ∉ es)
    (hs : ∀ k generation result, .settle k u generation result ∉ es)
    (hc : s.callers[i]? = some c) (huri : c.uri = u) (hw : c.waited = true) :
    ∃ e, e.tells = true ∧ List.Sublist [e, .arm i u] es := by
  induction h generalizing c with
  | refl => simp [start] at hc
  | @step t t' e es h hstep ih =>
    rw [List.mem_cons, not_or] at hu
    have hs (k generation : Nat) (result : Registry.PassResult) :
        .settle k u generation result ∉ es := by
      intro hmem
      exact hs k generation result (.tail _ hmem)
    suffices htold : ∃ e, e.tells = true ∧ List.Sublist [e, .arm i u] es by
      obtain ⟨e', he', hsub⟩ := htold
      exact ⟨e', he', hsub.cons e⟩
    rcases hstep.caller_before hc with ⟨hsame, _⟩ | ⟨b, hb, hm⟩ | ⟨uri, _, hstart⟩
    . exact ih hu.2 hs hsame huri hw
    . rw [hm.uri_eq] at huri
      rcases hm.of_waited hw with hbw | ⟨seen, hseen, hlt⟩ | ⟨hl, hnot⟩
      . exact ih hu.2 hs hb huri hbw
      . obtain ⟨_, htold⟩ := armed_and_told h hb hseen
        rw [huri] at htold
        exact htold hlt
      . -- The pass that the caller listens for has not been settled, so it goes on.
        rw [huri] at hnot
        have hp := passes_ne_nil_of_isListening h hb hl
        rw [huri] at hp
        exact absurd (copying_of_unsettled h hu.2 hs hp) hnot
    . rw [hstart] at hw
      simp [Caller.start] at hw

theorem two_passes_of_interrupted (h : History es s) (hcalm : Calm es)
    (hi : Interrupted u es) : 2 ≤ (passes u es).length := by
  obtain ⟨i, j, v, begun, before, after, heq, _, hsub, hsettle⟩ := hi
  subst heq
  have harm : .arm i u ∈ before := hsub.subset (.tail _ (.head _))
  obtain ⟨m', hm', _⟩ := h.split
  cases hm' with
  | @step m _ _ _ hbefore hlook =>
    have hu : .forget u ∉ before := by
      intro hmem
      exact hcalm.not_forget u (List.mem_append_right _ (.tail _ hmem))
    have hp := passes_ne_nil_of_arm hbefore harm
    have hcopying := copying_of_unsettled hbefore hu hsettle hp
    obtain ⟨d, hd, hwaited⟩ := waited_or_seen?_of_arm hbefore harm
    obtain ⟨c, c', hc, _, hm⟩ := hlook.moves rfl
    rw [hd, Option.some.injEq] at hc
    subst hc
    -- The caller waited, and the pass still goes on, so it begins a second one.
    have hsome : ∃ generation, begun = some generation := by
      cases hm with
      | refused hx => simp [state?_eq, hx] at hcopying
      | ready hx hs => simp [state?_eq, hx, hs] at hcopying
      | wait hx hs => simp [Caller.seen?] at hwaited
      | copy hx hs hw => exact ⟨_, rfl⟩
    obtain ⟨generation, hbegun⟩ := hsome
    have hpos := List.length_pos_iff.mpr hp
    unfold passes at hpos ⊢
    simp only [List.filterMap_append, List.filterMap_cons, hbegun, Event.pass?, if_true,
      List.length_append, List.length_cons]
    omega

theorem Flies.generation_eq (h : History es s) (hu : .forget u ∉ es)
    (hone : (passes u es).length ≤ 1) (hf : s.Flies i u generation) :
    s.generation u = generation := by
  have heq := generations_eq h u
  rw [since_eq_self hu] at heq
  have hlen := congrArg List.length heq
  have hmem := List.mem_map_of_mem (f := Prod.snd) (mem_passes.mpr (hf.begun h))
  -- There is one number at most, and the pass has one of them.
  rw [heq, List.mem_reverse, List.mem_range'_1] at hmem
  simp only [List.length_map, List.length_reverse, List.length_range'] at hlen
  dsimp only at hmem
  omega

theorem Flies.exists_entry (h : History es s) (hf : s.Flies i u (s.generation u)) :
    ∃ x, s.registry.get? u = some x := by
  have hpos := generation_pos h (hf.begun h)
  unfold generation at hpos
  cases hx : s.registry.get? u with
  | none => simp [hx] at hpos
  | some x => exact ⟨x, rfl⟩

theorem Step.settle_of_single (h : Step s (.settle i u generation (.ok scratch)) t)
    (hist : History es s) (hu : .forget u ∉ es) (hone : (passes u es).length ≤ 1) :
    ∃ x, x.state = .ready scratch ∧ t.registry.get? u = some x
      ∧ (s.registry.commit u generation (.ok scratch)).1 = .ok (x.snapshot u) := by
  have hf := h.settle_flies
  have hg := hf.generation_eq hist hu hone
  subst hg
  obtain ⟨x, hx⟩ := hf.exists_entry hist
  have hgx := generation_of_get? hx
  refine ⟨{ x with state := .ready scratch }, rfl, ?_, ?_⟩
  . rw [h.get?, hx]
    simp [Event.effect, Entry.settlePass, hgx, CopyState.ofResult]
  . simp [Registry.commit, hx, hgx]

theorem Step.get?_of_ready_of_calm (h : Step s e t) (hist : History es s)
    (hcalm : Calm (e :: es)) (hx : s.registry.get? u = some x)
    (hready : x.state = .ready scratch) : t.registry.get? u = some x := by
  obtain ⟨he, hes⟩ := hcalm.of_cons
  apply h.get?_of_ready hist (hes.not_forget u) hx hready
  . intro heq
    simp [heq, Event.isCalm] at he
  . intro i heq
    simp [heq, Event.isCalm] at he

theorem ready_of_settled {result : Registry.PassResult} (h : History es s) (hcalm : Calm es)
    (hone : (passes u es).length ≤ 1) (hs : .settle i u generation result ∈ es) :
    ∃ x scratch, s.registry.get? u = some x ∧ x.state = .ready scratch := by
  induction h with
  | refl => simp at hs
  | @step t t' e es h hstep ih =>
    have hone := Nat.le_trans length_passes_cons_le hone
    obtain ⟨_, hes⟩ := hcalm.of_cons
    cases hs with
    | head =>
      obtain ⟨scratch, hok⟩ := hcalm.settle_ok (.head _)
      subst hok
      obtain ⟨x, hready, hx, _⟩ := hstep.settle_of_single h (hes.not_forget u) hone
      exact ⟨x, scratch, hx, hready⟩
    | tail _ hs =>
      obtain ⟨x, scratch, hx, hready⟩ := ih hes hone hs
      exact ⟨x, scratch, hstep.get?_of_ready_of_calm h hcalm hx hready, hready⟩

theorem tell_of_tells (h : History es s) (hcalm : Calm es) (he : e ∈ es)
    (htells : e.tells = true) : ∃ j v, e = .tell j v := by
  cases e with
  | tell j v => exact ⟨j, v, rfl⟩
  | announce v => exact absurd (forgotten_of_announce h he) (hcalm.not_forget v)
  | _ => simp [Event.tells] at htells

theorem Step.interrupted_of_pass {p : Nat × Nat} (h : Step s e t) (hist : History es s)
    (hcalm : Calm es) (hone : (passes u es).length = 1) (hp : e.pass? u = some p) :
    Interrupted u (e :: es) := by
  have he := Event.pass?_eq_some hp
  subst he
  obtain ⟨c, x, hc, huri, _, hx, _, hnot, hwaits⟩ := h.look_some
  have hu := hcalm.not_forget u
  have hs (k generation : Nat) (result : Registry.PassResult) :
      .settle k u generation result ∉ es := by
    intro hmem
    obtain ⟨y, scratch, hy, hready⟩ := ready_of_settled hist hcalm (by omega) hmem
    rw [hx, Option.some.injEq] at hy
    rw [← hy] at hready
    exact hnot scratch hready
  have hcopying : x.state = .copying := by
    have hcopying := copying_of_unsettled hist hu hs (List.ne_nil_of_length_pos (by omega))
    rw [state?_of_get? hx, Option.some.injEq] at hcopying
    exact hcopying
  obtain ⟨e, htells, hsub⟩ := told_of_waited hist hu hs hc huri (hwaits hcopying)
  obtain ⟨j, v, he⟩ := tell_of_tells hist hcalm (hsub.subset (.head _)) htells
  subst he
  refine ⟨p.1, j, v, _, es, [], rfl, ?_, hsub, hs⟩
  intro hv
  obtain ⟨generation, result, hmem⟩ := settled_of_tell hist (hsub.subset (.head _))
  rw [hv] at hmem
  exact hs j generation result hmem

theorem interrupted_of_two_passes (h : History es s) (hcalm : Calm es)
    (htwo : 2 ≤ (passes u es).length) : Interrupted u es := by
  induction h with
  | refl => simp [passes] at htwo
  | @step t t' e es h hs ih =>
    obtain ⟨_, hes⟩ := hcalm.of_cons
    by_cases hbefore : 2 ≤ (passes u es).length
    . exact (ih hes hbefore).cons
    . cases hp : e.pass? u with
      | none =>
        rw [passes_cons_of_none hp] at htwo
        exact absurd htwo hbefore
      | some p =>
        rw [passes_cons_of_some hp, List.length_cons] at htwo
        exact hs.interrupted_of_pass h hes (by omega) hp

/-- The workspace `w` is what a pass over the workspace `u` made, and what its entry shows. -/
def Made (s : Flight) (es : List Event) (u : String) (w : Workspace) : Prop :=
  ∃ x scratch i generation, s.registry.get? u = some x ∧ x.state = .ready scratch
    ∧ .settle i u generation (.ok scratch) ∈ es ∧ w = x.snapshot u

theorem Step.made {w : Workspace} (h : Step s e t) (hist : History es s) (hcalm : Calm (e :: es))
    (hw : s.Made es u w) : t.Made (e :: es) u w := by
  obtain ⟨x, scratch, i, generation, hx, hready, hmem, heq⟩ := hw
  have hx := h.get?_of_ready_of_calm hist hcalm hx hready
  exact ⟨x, scratch, i, generation, hx, hready, .tail _ hmem, heq⟩

theorem settled_of_ready (h : History es s) (hx : s.registry.get? u = some x)
    (hready : x.state = .ready scratch) :
    ∃ i generation, .settle i u generation (.ok scratch) ∈ es := by
  induction h generalizing x with
  | refl => cases hx
  | @step t t' e es h hs ih =>
    rw [hs.get?] at hx
    cases Event.of_effect_ready hx hready with
    | inl hbefore =>
      obtain ⟨y, hy, hyready⟩ := hbefore
      obtain ⟨i, generation, hmem⟩ := ih hy hyready
      exact ⟨i, generation, .tail _ hmem⟩
    | inr he =>
      obtain ⟨i, generation, he⟩ := he
      exact ⟨i, generation, by rw [he]; exact .head _⟩

theorem Step.made_of_settle {pass : Registry.PassResult} (h : Step s (.settle i u generation pass) t)
    (hist : History es s) (hcalm : Calm (.settle i u generation pass :: es))
    (hone : (passes u es).length ≤ 1) :
    ∃ w, (s.registry.commit u generation pass).1 = .ok w
      ∧ t.Made (.settle i u generation pass :: es) u w := by
  obtain ⟨scratch, hok⟩ := hcalm.settle_ok (.head _)
  subst hok
  obtain ⟨x, hready, hx, hcommit⟩ :=
    h.settle_of_single hist (hcalm.of_cons.2.not_forget u) hone
  exact ⟨_, hcommit, x, scratch, i, generation, hx, hready, .head _, rfl⟩

theorem outcome_made {result : Except CopyError Workspace} (h : History es s) (hcalm : Calm es)
    (hone : (passes u es).length ≤ 1) (hc : s.callers[i]? = some c) (huri : c.uri = u)
    (ho : c.outcome? = some result) :
    result = .error (.notRegistered u) ∨ ∃ w, result = .ok w ∧ s.Made es u w := by
  induction h generalizing c with
  | refl => simp [start] at hc
  | @step t t' e es h hs ih =>
    have hone := Nat.le_trans length_passes_cons_le hone
    obtain ⟨_, hes⟩ := hcalm.of_cons
    have hkept {b : Caller} (hb : t.callers[i]? = some b) (hburi : b.uri = u)
        (hbo : b.outcome? = some result) :
        result = .error (.notRegistered u) ∨ ∃ w, result = .ok w ∧ t'.Made (e :: es) u w := by
      cases ih hes hone hb hburi hbo with
      | inl hrefused => exact .inl hrefused
      | inr hmade =>
        obtain ⟨w, hok, hw⟩ := hmade
        exact .inr ⟨w, hok, hs.made h hcalm hw⟩
    rcases hs.caller_before hc with ⟨hsame, _⟩ | ⟨b, hb, hm⟩ | ⟨uri, _, hstart⟩
    . exact hkept hsame huri ho
    . rw [hm.uri_eq] at huri
      rcases hm.of_outcome? ho with
        hbo | hrefused | ⟨x, scratch, hx, hready, hok⟩ | ⟨generation, pass, he, hok⟩
      . exact hkept hb huri hbo
      . rw [huri] at hrefused
        exact .inl hrefused
      . rw [huri] at hx hok
        obtain ⟨j, generation, hmem⟩ := settled_of_ready h hx hready
        refine .inr ⟨_, hok, hs.made h hcalm ?_⟩
        exact ⟨x, scratch, j, generation, hx, hready, hmem, rfl⟩
      . rw [huri] at he hok
        subst he
        obtain ⟨w, hcommit, hw⟩ := hs.made_of_settle h hcalm hone
        exact .inr ⟨w, by rw [hok, hcommit], hw⟩
    . rw [hstart] at ho
      simp [Caller.start, Caller.outcome?] at ho

/-- While nothing goes wrong, a workspace is passed over at most once exactly if no caller that waits
for its pass is interrupted, and then every caller that comes to an end has what that pass made,
unless it came before the workspace was registered. -/
theorem single_pass_iff_not_interrupted (h : History es s) (hcalm : Calm es) (u : String) :
    ((passes u es).length ≤ 1 ↔ ¬Interrupted u es)
      ∧ (¬Interrupted u es → ∀ (i : Nat) (c : Caller) result, s.callers[i]? = some c → c.uri = u →
        c.phase = .done result →
        result = .error (.notRegistered u) ∨ ∃ w, result = .ok w ∧ s.Made es u w) := by
  have hiff : (passes u es).length ≤ 1 ↔ ¬Interrupted u es := by
    constructor
    . intro hone hi
      have htwo := two_passes_of_interrupted h hcalm hi
      omega
    . intro hi
      apply Nat.le_of_not_lt
      intro htwo
      exact hi (interrupted_of_two_passes h hcalm htwo)
  refine ⟨hiff, ?_⟩
  intro hi j c result hc huri hphase
  apply outcome_made h hcalm (hiff.mpr hi) hc huri
  simp [Caller.outcome?, hphase]

/-- A caller waited for the pass of another one and has what it made. -/
def shared : Flight :=
  let root := (Path.ofString "/w").normalize
  let w : Workspace := ⟨"/w", root, some (.ofString "/s")⟩
  ⟨⟨[("/w", ⟨root, .ready (.ofString "/s"), 1⟩)]⟩, 1,
    [⟨"/w", false, .done (.ok w)⟩, ⟨"/w", true, .done (.ok w)⟩], []⟩

/-- What happened until the second caller had what the first one made. -/
def sharing : List Event :=
  [.quiet 1, .look 1 "/w" none, .quiet 1, .tell 0 "/w",
    .settle 0 "/w" 1 (.ok (.ofString "/s")), .quiet 1, .quiet 1, .arm 1 "/w", .look 1 "/w" none,
    .call "/w", .look 0 "/w" (some 1), .call "/w", .register "/w" (.ofString "/w")]

theorem history_shared : History sharing shared := by
  apply history_of_acts?
    [.register "/w", .call "/w", .advance 0, .call "/w", .advance 1, .advance 1, .advance 1,
      .advance 1, .settle 0 (.ok (.ofString "/s")), .tell 0, .advance 1, .advance 1,
      .check 1 true] .refl
  rfl

theorem single_pass_shared :
    Calm sharing ∧ ¬Interrupted "/w" sharing
      ∧ ∃ w, shared.callers[1]? = some ⟨"/w", true, .done (.ok w)⟩
        ∧ shared.Made sharing "/w" w := by
  have hcalm : Calm sharing := by simp [Calm, sharing, Event.isCalm]
  obtain ⟨hiff, hreuse⟩ := single_pass_iff_not_interrupted history_shared hcalm "/w"
  have hnot : ¬Interrupted "/w" sharing := by
    apply hiff.mp
    decide
  refine ⟨hcalm, hnot, _, rfl, ?_⟩
  cases hreuse hnot 1 _ _ rfl rfl rfl with
  | inl hrefused => simp at hrefused
  | inr hmade =>
    obtain ⟨w, hw, hmade⟩ := hmade
    rw [Except.ok.injEq] at hw
    rw [hw]
    exact hmade

/-- A workspace is copied twice although nothing went wrong, and a caller is told that it was
superseded. -/
theorem two_passes_overtaken :
    ∃ es s, History es s ∧ Calm es ∧ (passes "/w" es).length = 2
      ∧ s.callers[1]? = some ⟨"/w", false, .done (.error (.superseded "/w"))⟩ := by
  refine ⟨_, _, history_of_acts? [.settle 1 (.ok (.ofString "/r")), .tell 1] history_overtaken rfl,
    ?_, ?_, rfl⟩
  . simp [Calm, overtaking, Event.isCalm]
  . rfl

end Flight

end InkServer
