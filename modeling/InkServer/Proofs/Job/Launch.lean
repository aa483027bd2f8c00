import InkServer.Proofs.Job.Gates

/-!
This module contains the calls of the runner. A run that passed all the gates calls it for one request,
and a run that did not calls nothing. The user is told once about a run that does not come about.
-/

namespace InkServer

/-- The calls of the runner for a request. A run to play ends the current one first. -/
def RunRequest.calls (request : RunRequest) : Mode → List Effect
  | .compile => [.start .compile request]
  | .play => [.stop, .start .play request]

def RunError.told : RunError → Trigger → List Effect
  | .toolUnavailable, .edit => []
  | e, _ => [.message e.level e.userMessage]

namespace Job

variable {uri : Option String} {mode : Mode} {trigger : Trigger} {w v z : World} {xs ys : List Stay}
  {ready : Workspace} {request : RunRequest}

def enter (ready : Workspace) (mode : Mode) (request : RunRequest) : Job (Except RunError Started) :=
  fun w =>
    .ask (w.emit (.start mode request)) (.start mode request) fun answer u =>
      match answer with
      | .error e => .done u (.error (.start e))
      | .ok generation =>
        .done { u with deliveries := u.deliveries ++ [(generation, Delivery.start ready mode)] }
          (.ok ⟨generation, mode⟩)

theorem enter_eq (ready : Workspace) (mode : Mode) (request : RunRequest) (w : World) :
    ((startRun mode request w).bind fun answer u =>
      (match answer with
        | .error e => (pure (.error (.start e)) : Job (Except RunError Started))
        | .ok generation => do
          modify fun w =>
            { w with deliveries := w.deliveries ++ [(generation, Delivery.start ready mode)] }
          pure (.ok ⟨generation, mode⟩)) u)
      =
    enter ready mode request w := by
  refine congrArg (Step.ask _ _) ?_
  funext answer u
  cases answer with
  | error e => rfl
  | ok generation => rfl

theorem launch_compile (ready : Workspace) (request : RunRequest) (w : World) :
    launch ready .compile request w = enter ready .compile request w :=
  enter_eq ready .compile request w

theorem launch_play (ready : Workspace) (request : RunRequest) (w : World) :
    launch ready .play request w = .ask (w.emit .stop) .stop fun _ u => enter ready .play request u := by
  refine congrArg (Step.ask _ _) ?_
  funext _ u
  exact enter_eq ready .play request u

theorem enter_adds (ready : Workspace) (mode : Mode) (request : RunRequest) (w : World) :
    (enter ready mode request w).Spans (World.Adds fun _ => True) w := by
  refine ⟨.emit w trivial, fun answer u => ?_⟩
  cases answer with
  | error e => exact World.Adds.refl u
  | ok generation => exact .of_eq rfl

theorem launch_adds (ready : Workspace) (mode : Mode) (request : RunRequest) (w : World) :
    (launch ready mode request w).Spans (World.Adds fun _ => True) w := by
  cases mode with
  | compile =>
    rw [launch_compile]
    exact enter_adds ready .compile request w
  | play =>
    rw [launch_play]
    exact ⟨.emit w trivial, fun _ u => enter_adds ready .play request u⟩

theorem account_enter {t : Step (Except RunError Started)}
    (h : (enter ready mode request w).Follows xs t) :
    account w xs t.world = [.start mode request]
      ∧ ∀ u e, t = .done u (.error e) → e ≠ .toolUnavailable := by
  cases h with
  | refl =>
    refine ⟨w.since_emit _, ?_⟩
    intro u e ht
    cases ht
  | @resume _ u _ _ answer _ _ h =>
    cases answer with
    | error e =>
      obtain ⟨hnil, hdone⟩ := h.of_done
      rw [hnil, hdone, account_cons]
      refine ⟨?_, fun u' e' ht => ?_⟩
      . exact (congrArg (· ++ _) (w.since_emit _)).trans (congrArg (_ :: ·) (World.since_self rfl))
      . injection ht with _ hr
        injection hr with hr
        rw [← hr]
        simp
    | ok generation =>
      obtain ⟨hnil, hdone⟩ := h.of_done
      rw [hnil, hdone, account_cons]
      refine ⟨?_, fun u' e' ht => ?_⟩
      . exact (congrArg (· ++ _) (w.since_emit _)).trans (congrArg (_ :: ·) (World.since_self rfl))
      . injection ht with _ hr
        cases hr

/-- What is recorded while the runner is called: the calls for the request, one after the other. -/
theorem account_launch {t : Step (Except RunError Started)}
    (h : (launch ready mode request w).Follows xs t) :
    account w xs t.world ≠ [] ∧ account w xs t.world <+: request.calls mode
      ∧ (∀ u r, t = .done u r → account w xs t.world = request.calls mode)
      ∧ ∀ u e, t = .done u (.error e) → e ≠ .toolUnavailable := by
  cases mode with
  | compile =>
    rw [launch_compile] at h
    obtain ⟨haccount, herror⟩ := account_enter h
    rw [haccount]
    exact ⟨by simp, List.prefix_refl _, fun _ _ _ => rfl, herror⟩
  | play =>
    rw [launch_play] at h
    cases h with
    | refl =>
      have haccount : account w [] (Step.world (.ask (w.emit .stop) .stop
          fun _ u => enter ready .play request u)) = [.stop] := w.since_emit _
      rw [haccount]
      refine ⟨by simp, ⟨[.start .play request], rfl⟩, ?_, ?_⟩
      . intro _ _ ht
        cases ht
      . intro _ _ ht
        cases ht
    | resume h =>
      obtain ⟨haccount, herror⟩ := account_enter h
      rw [account_cons, haccount]
      have hcalls : w.since (w.emit .stop) ++ [.start .play request] = request.calls .play :=
        congrArg (· ++ _) (w.since_emit _)
      dsimp only
      rw [hcalls]
      exact ⟨by simp [RunRequest.calls], List.prefix_refl _, fun _ _ _ => rfl, herror⟩

/-- Tell the user what came of a run. -/
def report (trigger : Trigger) : Except RunError Started → Job (Option Started)
  | .ok started, w => .done w (some started)
  | .error e, w => .done (w.emitAll (e.told trigger)) none

theorem startFor_eq (uri : Option String) (mode : Mode) (trigger : Trigger) (w : World) :
    startFor uri mode trigger w
      =
    (gates uri w).bind fun r v => (callRunner mode r v).bind fun r v => report trigger r v := by
  refine Eq.trans ?_ (Step.bind_bind (gates uri w) (fun r v => callRunner mode r v)
    fun r v => report trigger r v)
  rw [← tryRun_eq_gates]
  refine congrArg ((tryRun uri mode w).bind ·) ?_
  funext r v
  cases r with
  | ok started => rfl
  | error e =>
    cases trigger with
    | command => cases e <;> rfl
    | edit =>
      cases e with
      | toolUnavailable => exact congrArg (Step.done · none) (by simp [World.emitAll, RunError.told])
      | _ => rfl

theorem report_adds (trigger : Trigger) (r : Except RunError Started) (w : World) :
    (report trigger r w).Spans (World.Adds fun _ => True) w := by
  cases r with
  | ok started => exact World.Adds.refl w
  | error e => exact ⟨_, rfl, fun _ _ => trivial⟩

/-- Where a run has come to, and what it recorded besides questions. -/
inductive Stands (uri : Option String) (mode : Mode) (trigger : Trigger) (w : World) (xs : List Stay) :
    Step (Option Started) → List Effect → Prop where
  /-- It stands before a gate. -/
  | before {v : World} {q : Query} {k : q.Answer → World → Step (Except RunError (Workspace × RunRequest))}
    {k' : q.Answer → World → Step (Option Started)} (h : (gates uri w).Follows xs (.ask v q k)) :
    Stands uri mode trigger w xs (.ask v q k') []
  /-- It was turned away. -/
  | turnedAway {v z : World} {e : RunError} (h : (gates uri w).Follows xs (.done v (.error e))) :
    Stands uri mode trigger w xs (.done z none) (e.told trigger)
  /-- It is calling the runner. -/
  | calling {v z : World} {q : Query} {k : q.Answer → World → Step (Option Started)} {ys : List Stay}
    {es : List Effect} {ready : Workspace} {request : RunRequest} (hfirst : ys <+: xs)
    (h : (gates uri w).Follows ys (.done v (.ok (ready, request)))) (hne : es ≠ [])
    (hes : es <+: request.calls mode) : Stands uri mode trigger w xs (.ask z q k) es
  /-- The runner refused. -/
  | refused {v z : World} {ys : List Stay} {ready : Workspace} {request : RunRequest} {e : RunError}
    (hfirst : ys <+: xs) (h : (gates uri w).Follows ys (.done v (.ok (ready, request))))
    (he : e ≠ .toolUnavailable) :
    Stands uri mode trigger w xs (.done z none) (request.calls mode ++ e.told trigger)
  /-- The run is under way. -/
  | started {v z : World} {ys : List Stay} {ready : Workspace} {request : RunRequest}
    {started : Started} (hfirst : ys <+: xs)
    (h : (gates uri w).Follows ys (.done v (.ok (ready, request)))) :
    Stands uri mode trigger w xs (.done z (some started)) (request.calls mode)

theorem stands_of_passed {t : Step (Option Started)}
    (hgates : (gates uri w).Follows xs (.done v (.ok (ready, request))))
    (h : ((launch ready mode request v).bind fun r z => report trigger r z).Follows ys t) :
    Stands uri mode trigger w (xs ++ ys) t (account v ys t.world) := by
  have hfirst : xs <+: xs ++ ys := List.prefix_append _ _
  rcases h.bind_cases with ⟨z, q, k, hlaunch, ht⟩ | ⟨ys₁, ys₂, z, r, hys, hlaunch, hreport⟩
  . obtain ⟨hne, hcalls, _⟩ := account_launch hlaunch
    rw [ht]
    exact .calling hfirst hgates hne hcalls
  . obtain ⟨_, _, hcalls, herror⟩ := account_launch hlaunch
    have hsplit := hlaunch.account_append (launch_adds ready mode request v) hreport
      (report_adds trigger r z)
    have hcalls : account v ys₁ z = request.calls mode := hcalls z r rfl
    rw [← hys, hcalls] at hsplit
    rw [hsplit]
    cases r with
    | ok started =>
      obtain ⟨hnil, ht⟩ := hreport.of_done
      have hnone : account z ys₂ t.world = [] := by
        rw [hnil, ht]
        exact World.since_self rfl
      rw [hnone, List.append_nil, ht]
      exact .started hfirst hgates
    | error e =>
      obtain ⟨hnil, ht⟩ := hreport.of_done
      have htold : account z ys₂ t.world = e.told trigger := by
        rw [hnil, ht]
        exact World.since_eq rfl
      rw [htold, ht]
      exact .refused hfirst hgates (herror z e rfl)

theorem stands_of_follows {t : Step (Option Started)}
    (h : (startFor uri mode trigger w).Follows xs t) :
    ∃ asked es, account w xs t.world = asked ++ es ∧ (∀ e ∈ asked, e.isQuestion = true)
      ∧ Stands uri mode trigger w xs t es := by
  rw [startFor_eq] at h
  rcases h.bind_cases with ⟨v, q, k, hgates, ht⟩ | ⟨xs₁, xs₂, v, r, hxs, hgates, hrest⟩
  . refine ⟨account w xs t.world, [], by rw [List.append_nil], ?_, ?_⟩
    . rw [ht]
      exact hgates.forall_account (gates_adds uri w)
    . rw [ht]
      exact .before hgates
  . have hasked := hgates.forall_account (gates_adds uri w)
    have hspans : ((callRunner mode r v).bind fun r z => report trigger r z).Spans
        (World.Adds fun _ => True) v := by
      refine .bind .trans ?_ (report_adds trigger)
      rcases r with e | ⟨ready, request⟩
      . exact World.Adds.refl v
      . exact launch_adds ready mode request v
    refine ⟨account w xs₁ v, account v xs₂ t.world, ?_, hasked, ?_⟩
    . rw [hxs]
      exact hgates.account_append (gates_adds uri w) hrest hspans
    . rcases r with e | ⟨ready, request⟩
      . obtain ⟨hnil, ht⟩ := hrest.of_done
        rw [hxs, hnil, List.append_nil, ht]
        have htold : account v [] (v.emitAll (e.told trigger)) = e.told trigger := World.since_eq rfl
        change Stands _ _ _ _ _ _ (account v [] (v.emitAll (e.told trigger)))
        rw [htold]
        exact .turnedAway hgates
      . rw [hxs]
        exact stands_of_passed hgates hrest

/-- A run passed all the gates on its way. -/
def Passed (w : World) (uri : Option String) (xs : List Stay) (ready : Workspace)
    (request : RunRequest) : Prop :=
  ∃ ys, ys <+: xs ∧ Passes w uri ys ready request

theorem filter_calls {es : List Effect} (h : es <+: request.calls mode) :
    es.filter Effect.isRunnerCall = es := by
  rw [List.filter_eq_self]
  intro e he
  have hmem := h.subset he
  cases mode with
  | compile =>
    rw [List.mem_singleton.mp hmem]
    rfl
  | play =>
    rcases List.mem_cons.mp hmem with he | he
    . rw [he]
      rfl
    . rw [List.mem_singleton.mp he]
      rfl

theorem filter_told (e : RunError) (trigger : Trigger) :
    (e.told trigger).filter Effect.isRunnerCall = [] := by
  cases trigger with
  | command => cases e <;> rfl
  | edit => cases e <;> rfl

theorem countP_calls (request : RunRequest) (mode : Mode) :
    (request.calls mode).countP Effect.isMessage = 0 := by
  cases mode with
  | compile => rfl
  | play => rfl

theorem countP_told {e : RunError} (h : trigger = .edit → e ≠ .toolUnavailable) :
    (e.told trigger).countP Effect.isMessage = 1 := by
  cases trigger with
  | command => cases e <;> rfl
  | edit =>
    cases e with
    | toolUnavailable => exact absurd rfl (h rfl)
    | _ => rfl

section

variable {t : Step (Option Started)} {es : List Effect}

theorem Passed.of_follows {ready' : Workspace} {request' : RunRequest}
    (h : Passed w uri xs ready request) (hfirst : ys <+: xs)
    (hgates : (gates uri w).Follows ys (.done v (.ok (ready', request')))) : request' = request := by
  obtain ⟨ys', hfirst', hpasses⟩ := h
  obtain ⟨z, hfollows⟩ := hpasses.follows
  have hsame := hfollows.done_unique hgates hfirst' hfirst
  injection hsame with hsame
  injection hsame with _ hsame
  exact hsame.symm

theorem Passed.done_of_follows {s : Step (Except RunError (Workspace × RunRequest))}
    (h : Passed w uri xs ready request) (hgates : (gates uri w).Follows xs s) :
    ∃ z, s = .done z (.ok (ready, request)) := by
  obtain ⟨ys, hfirst, hpasses⟩ := h
  obtain ⟨z, hfollows⟩ := hpasses.follows
  exact ⟨z, (hfollows.end_unique hfirst hgates).2⟩

theorem Stands.calls_of_passed (h : Stands uri mode trigger w xs t es)
    (hpassed : Passed w uri xs ready request) :
    es.filter Effect.isRunnerCall ≠ [] ∧ es.filter Effect.isRunnerCall <+: request.calls mode
      ∧ ∀ z r, t = .done z r → es.filter Effect.isRunnerCall = request.calls mode := by
  have hne : request.calls mode ≠ [] := by
    cases mode with
    | compile => exact List.cons_ne_nil _ _
    | play => exact List.cons_ne_nil _ _
  cases h with
  | before h =>
    obtain ⟨z, hdone⟩ := hpassed.done_of_follows h
    cases hdone
  | turnedAway h =>
    obtain ⟨z, hdone⟩ := hpassed.done_of_follows h
    injection hdone with _ hr
    cases hr
  | calling hfirst h hes hcalls =>
    obtain rfl := hpassed.of_follows hfirst h
    rw [filter_calls hcalls]
    refine ⟨hes, hcalls, ?_⟩
    intro _ _ ht
    cases ht
  | refused hfirst h he =>
    obtain rfl := hpassed.of_follows hfirst h
    rw [List.filter_append, filter_calls (List.prefix_refl _), filter_told, List.append_nil]
    exact ⟨hne, List.prefix_refl _, fun _ _ _ => rfl⟩
  | started hfirst h =>
    obtain rfl := hpassed.of_follows hfirst h
    rw [filter_calls (List.prefix_refl _)]
    exact ⟨hne, List.prefix_refl _, fun _ _ _ => rfl⟩

theorem passed_of_follows (hfirst : ys <+: xs)
    (h : (gates uri w).Follows ys (.done v (.ok (ready, request)))) :
    Passed w uri xs ready request := by
  rcases gates_cases h with ⟨e, hr, _⟩ | ⟨ready', request', hr, hpasses⟩
  . cases hr
  . injection hr with hr
    injection hr with hready hrequest
    rw [hready, hrequest]
    exact ⟨ys, hfirst, hpasses⟩

theorem Stands.calls_of_not_passed (h : Stands uri mode trigger w xs t es)
    (hnot : ∀ ready request, ¬Passed w uri xs ready request) :
    es.filter Effect.isRunnerCall = [] := by
  cases h with
  | before h => rfl
  | turnedAway h => exact filter_told _ _
  | calling hfirst h _ _ => exact absurd (passed_of_follows hfirst h) (hnot _ _)
  | refused hfirst h _ => exact absurd (passed_of_follows hfirst h) (hnot _ _)
  | started hfirst h => exact absurd (passed_of_follows hfirst h) (hnot _ _)

theorem Stands.messages_of_none (h : Stands uri mode trigger w xs (.done z none) es) :
    (trigger = .edit ∧ Lacks w uri xs → es.countP Effect.isMessage = 0)
      ∧ (¬(trigger = .edit ∧ Lacks w uri xs) → es.countP Effect.isMessage = 1) := by
  cases h with
  | @turnedAway _ _ e h =>
    constructor
    . rintro ⟨rfl, hlacks⟩
      obtain ⟨_, hfollows⟩ := hlacks.follows
      injection (hfollows.end_unique (List.prefix_refl _) h).2 with _ hr
      injection hr with hr
      rw [hr]
      rfl
    . intro hnot
      apply countP_told
      intro hedit he
      rcases gates_cases h with ⟨e', hr, hlacks⟩ | ⟨_, _, hr, _⟩
      . injection hr with hr
        exact hnot ⟨hedit, hlacks (hr.symm.trans he)⟩
      . cases hr
  | refused hfirst h he =>
    rw [List.countP_append, countP_calls, Nat.zero_add]
    refine ⟨?_, fun _ => countP_told fun _ => he⟩
    rintro ⟨_, hlacks⟩
    -- A run that lacks the compiler did not pass the gates.
    obtain ⟨_, hfollows⟩ := hlacks.follows
    have hsame := hfollows.done_unique h (List.prefix_refl _) hfirst
    cases hsame

theorem Stands.messages_of_some {started : Started}
    (h : Stands uri mode trigger w xs (.done z (some started)) es) :
    es.countP Effect.isMessage = 0 := by
  cases h with
  | started => exact countP_calls _ _

/-- A request that passed the gates is for the main story: its names follow the root in the workspace
and the scratch folder in the copy. -/
theorem Passed.exists_names (h : Passed w uri xs ready request)
    (habs : ready.root.isAbsolute = true) :
    ∃ scratch ns, ready.scratch = some scratch ∧ ns ≠ [] ∧ (∀ n ∈ ns, IsName n)
      ∧ request.realMain = ready.root.normalize.inside ns ∧ request.scratchMain = scratch.inside ns := by
  obtain ⟨_, _, hpasses⟩ := h
  cases hpasses with
  | mk _ _ _ _ hscratch hinside =>
    obtain ⟨ns, hne, hns, hmain, hrel⟩ := Path.exists_inside_of_isAbsolute habs hinside
    rw [Path.normalize_normalize] at hmain
    refine ⟨_, ns, hscratch, hne, hns, hmain, ?_⟩
    rw [hrel]
    exact Path.join_ofComponents _ hne hns

/-- Wherever a run has come to, the runner was called only if the run passed all the gates. The calls
are then the first of those for its request, to play the end of the current run before the new one,
and at the end of the run all of them. About a run that does not come about the user is told once, or
not at all when the compiler is missing after an edit. -/
theorem startFor_through_gates (h : (startFor uri mode trigger w).Follows xs t) :
    (∀ ready request, Passed w uri xs ready request →
        (account w xs t.world).filter Effect.isRunnerCall ≠ []
        ∧ (account w xs t.world).filter Effect.isRunnerCall <+: request.calls mode
        ∧ (ready.root.isAbsolute = true →
          ∃ scratch ns, ready.scratch = some scratch ∧ ns ≠ [] ∧ (∀ n ∈ ns, IsName n)
            ∧ request.realMain = ready.root.normalize.inside ns
            ∧ request.scratchMain = scratch.inside ns))
      ∧ ((∀ ready request, ¬Passed w uri xs ready request) →
        (account w xs t.world).filter Effect.isRunnerCall = [])
      ∧ (∀ z started, t = .done z started → ∀ ready request, Passed w uri xs ready request →
        (account w xs t.world).filter Effect.isRunnerCall = request.calls mode)
      ∧ (∀ z, t = .done z none →
        (trigger = .edit ∧ Lacks w uri xs → (account w xs t.world).countP Effect.isMessage = 0)
        ∧ (¬(trigger = .edit ∧ Lacks w uri xs) → (account w xs t.world).countP Effect.isMessage = 1))
      ∧ ∀ z started, t = .done z (some started) →
        (account w xs t.world).countP Effect.isMessage = 0 := by
  obtain ⟨asked, es, haccount, hasked, hstands⟩ := stands_of_follows h
  have hcalls : asked.filter Effect.isRunnerCall = [] := by
    rw [List.filter_eq_nil_iff]
    intro e he
    have hquestion := hasked e he
    cases e <;> simp_all [Effect.isQuestion, Effect.isRunnerCall]
  have hmessages : asked.countP Effect.isMessage = 0 := by
    rw [List.countP_eq_zero]
    intro e he
    have hquestion := hasked e he
    cases e <;> simp_all [Effect.isQuestion, Effect.isMessage]
  rw [haccount, List.filter_append, hcalls, List.nil_append, List.countP_append, hmessages,
    Nat.zero_add]
  refine ⟨?_, hstands.calls_of_not_passed, ?_, ?_, ?_⟩
  . intro ready request hpassed
    obtain ⟨hne, hfirst, _⟩ := hstands.calls_of_passed hpassed
    exact ⟨hne, hfirst, hpassed.exists_names⟩
  . intro z started ht ready request hpassed
    exact (hstands.calls_of_passed hpassed).2.2 z started ht
  . intro z ht
    rw [ht] at hstands
    exact hstands.messages_of_none
  . intro z started ht
    rw [ht] at hstands
    exact hstands.messages_of_some

end

/-- A run that passed the gates comes about when the runner takes it. -/
theorem Passes.startFor_follows (h : Passes w uri xs ready request) (mode : Mode) (trigger : Trigger)
    (generation : Nat) :
    ∃ ys z, (startFor uri mode trigger w).Follows (xs ++ ys) (.done z (some ⟨generation, mode⟩)) := by
  obtain ⟨v, hgates⟩ := h.follows
  have henter : ∃ z, (enter ready mode request v).Follows
      [⟨⟨v.emit (.start mode request), .start mode request, v⟩, .ok generation⟩]
      (.done z (.ok ⟨generation, mode⟩)) := ⟨_, .resume (.refl _)⟩
  obtain ⟨z, henter⟩ := henter
  have hlaunch : ∃ ys, (launch ready mode request v).Follows ys (.done z (.ok ⟨generation, mode⟩)) := by
    cases mode with
    | compile =>
      rw [launch_compile]
      exact ⟨_, henter⟩
    | play =>
      rw [launch_play]
      exact ⟨_, @Step.Follows.resume _ _ v _ _ true _ _ henter⟩
  obtain ⟨ys, hlaunch⟩ := hlaunch
  refine ⟨ys, z, ?_⟩
  rw [startFor_eq]
  exact (hgates.bind _).append (hlaunch.bind _)

theorem storyWorld_passes :
    ∃ xs request, Passes storyWorld (some "/v/a.ink") xs storyWorkspace request := by
  have hpath : Uri.toPath "/v/a.ink" = .ok (.ofString "/v/a.ink") := by rfl
  have hfound : storyWorld.registry.findOwner? (Path.ofString "/v/a.ink").normalize
      = some storyWorkspace := by decide +kernel
  have hfolder : storyWorld.disk.isFolder (storyRules.scratchOf 0) = true := by decide +kernel
  have hready : ∃ xs, (readyWorkspace storyWorkspace "/v/a.ink" storyWorld).Follows xs
      (.done storyWorld (.ok storyWorkspace)) := by
    obtain ⟨k, hjob, hk⟩ := @readyWorkspace_of_ready storyWorld storyWorkspace _ _ rfl rfl "/v/a.ink"
    have hdone : k () storyWorld = .done storyWorld (.ok storyWorkspace) := hk () storyWorld hfolder
    refine ⟨[⟨⟨storyWorld, @Query.rest .upkeep, storyWorld⟩, ()⟩], ?_⟩
    rw [hjob, ← hdone]
    exact .resume (.refl _)
  have hinside : (storyWorkspace.root.join (.ofString "a.ink")).normalize.relativeTo?
      storyWorkspace.root = some (.ofString "a.ink") := by decide +kernel
  obtain ⟨xs, hready⟩ := hready
  exact ⟨_, _, @Passes.mk storyWorld (some "/v/a.ink") [] xs storyWorld storyWorld storyWorld storyWorld
    storyWorkspace storyWorkspace "/v/a.ink" none ⟨"a.ink", "inklecate", none⟩ _ _
    (.owner hpath hfound) (by rfl) hready rfl rfl hinside⟩

/-- A run to play the story passes the gates: the current run is ended, then the story is played, and
the user is told nothing. -/
theorem startFor_through_gates_story :
    ∃ xs request z, Passed storyWorld (some "/v/a.ink") xs storyWorkspace request
      ∧ (startFor (some "/v/a.ink") .play .command storyWorld).Follows xs
        (.done z (some ⟨7, .play⟩))
      ∧ (account storyWorld xs z).filter Effect.isRunnerCall = [.stop, .start .play request]
      ∧ (account storyWorld xs z).countP Effect.isMessage = 0 := by
  obtain ⟨xs, request, hpasses⟩ := storyWorld_passes
  obtain ⟨ys, z, hfollows⟩ := hpasses.startFor_follows .play .command 7
  have hpassed : Passed storyWorld (some "/v/a.ink") (xs ++ ys) storyWorkspace request :=
    ⟨xs, List.prefix_append _ _, hpasses⟩
  obtain ⟨_, _, hcalls, _, hmessages⟩ := startFor_through_gates hfollows
  exact ⟨xs ++ ys, request, z, hpassed, hfollows, hcalls z _ rfl _ _ hpassed, hmessages z _ rfl⟩

end Job

end InkServer
