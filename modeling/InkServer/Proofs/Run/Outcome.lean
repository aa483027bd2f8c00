import InkServer.Proofs.Publication.History

/-!
This module contains what the editor is told about a run: it depends on the events of the run and not
on the place of its exit among them.
-/

namespace InkServer

namespace RunEvent

def notice? : RunEvent → Option Notice
  | play e => some e.notice
  | _ => none

def isToolError : RunEvent → Bool
  | toolError _ => true
  | _ => false

def finished? : RunEvent → Option (List Diagnostic × Option Path)
  | finished diagnostics artifact => some (diagnostics, artifact)
  | _ => none

def exit? : RunEvent → Option (Option Int × Bool)
  | exited code killed => some (code, killed)
  | _ => none

/-- The last end of output. -/
def lastFinished? (es : List RunEvent) : Option (List Diagnostic × Option Path) :=
  (es.filterMap finished?).getLast?

/-- The last end of the process. -/
def lastExit? (es : List RunEvent) : Option (Option Int × Bool) :=
  (es.filterMap exit?).getLast?

/-- The same events, the exits perhaps at other places among those of the other kinds. -/
structure SameButExits (es es' : List RunEvent) : Prop where
  exits : es'.filterMap exit? = es.filterMap exit?
  others : es'.filter (·.exit?.isNone) = es.filter (·.exit?.isNone)

theorem sameButExits_move {as bs cs : List RunEvent} {code : Option Int} {killed : Bool}
    (h : ∀ e ∈ bs, e.exit? = none) :
    SameButExits (as ++ .exited code killed :: bs ++ cs) (as ++ bs ++ .exited code killed :: cs) := by
  have hbs : bs.filterMap exit? = [] := List.filterMap_eq_nil_iff.mpr h
  constructor
  . simp [List.filterMap_append, List.filterMap_cons, hbs]
  . simp [List.filter_append, exit?]

theorem SameButExits.lastFinished? {es es' : List RunEvent} (h : SameButExits es es') :
    lastFinished? es' = lastFinished? es := by
  have hskip : ∀ es : List RunEvent,
      es.filterMap finished? = (es.filter (·.exit?.isNone)).filterMap finished? := by
    intro es
    rw [List.filterMap_filter]
    congr 1
    funext e
    cases e <;> rfl
  unfold RunEvent.lastFinished?
  rw [hskip es', h.others, ← hskip es]

end RunEvent

namespace Effect

def notice? : Effect → Option Notice
  | notify notice => some notice
  | _ => none

def message? : Effect → Option (MessageLevel × String)
  | message level text => some (level, text)
  | _ => none

end Effect

/-- What the editor is told while events come in, if it was told of an error before or not. -/
def toldWhile (reported : Bool) : List RunEvent → List Effect
  | [] => []
  | .play e :: es => .notify e.notice :: toldWhile reported es
  | .toolError _ :: es =>
    if reported then toldWhile true es
    else .message .error toolErrorMessage :: toldWhile true es
  | .finished _ _ :: es => toldWhile reported es
  | .exited _ _ :: es => toldWhile reported es

section

variable {reported : Bool} {es es' : List RunEvent}

theorem toldWhile_append (reported : Bool) (es es' : List RunEvent) :
    toldWhile reported (es ++ es')
      =
    toldWhile reported es ++ toldWhile (reported || es.any RunEvent.isToolError) es' := by
  induction es generalizing reported with
  | nil => simp [toldWhile]
  | cons e es ih =>
    cases e with
    | play e => simp [toldWhile, ih, RunEvent.isToolError]
    | toolError text => cases reported <;> simp [toldWhile, ih, RunEvent.isToolError]
    | finished diagnostics artifact => simp [toldWhile, ih, RunEvent.isToolError]
    | exited code killed => simp [toldWhile, ih, RunEvent.isToolError]

theorem filterMap_notice?_toldWhile :
    (toldWhile reported es).filterMap Effect.notice? = es.filterMap RunEvent.notice? := by
  induction es generalizing reported with
  | nil => rfl
  | cons e es ih =>
    rw [List.filterMap_cons]
    cases e with
    | play e => simp [toldWhile, ih, Effect.notice?, RunEvent.notice?]
    | toolError text =>
      cases reported <;> simp [toldWhile, ih, List.filterMap_cons, Effect.notice?, RunEvent.notice?]
    | finished diagnostics artifact => simp [toldWhile, ih, RunEvent.notice?]
    | exited code killed => simp [toldWhile, ih, RunEvent.notice?]

theorem filterMap_message?_toldWhile :
    (toldWhile reported es).filterMap Effect.message?
      =
    if !reported && es.any RunEvent.isToolError then [(.error, toolErrorMessage)] else [] := by
  induction es generalizing reported with
  | nil => simp [toldWhile]
  | cons e es ih =>
    rw [List.any_cons]
    cases e with
    | play e =>
      rw [toldWhile, List.filterMap_cons, ih]
      rfl
    | toolError text =>
      cases reported with
      | false =>
        rw [toldWhile, if_neg Bool.false_ne_true, List.filterMap_cons, ih]
        rfl
      | true =>
        rw [toldWhile, if_pos rfl, ih]
        rfl
    | finished diagnostics artifact => exact ih
    | exited code killed => exact ih

theorem notice_or_message_of_mem_toldWhile {e : Effect} (h : e ∈ toldWhile reported es) :
    e.notice?.isSome ∨ e.message?.isSome := by
  induction es generalizing reported with
  | nil => cases h
  | cons event es ih =>
    cases event with
    | play event =>
      rcases List.mem_cons.mp h with rfl | h
      . exact .inl rfl
      . exact ih h
    | toolError text =>
      unfold toldWhile at h
      split at h
      . exact ih h
      . rcases List.mem_cons.mp h with rfl | h
        . exact .inr rfl
        . exact ih h
    | finished diagnostics artifact => exact ih h
    | exited code killed => exact ih h

theorem toldWhile_filter :
    toldWhile reported (es.filter (·.exit?.isNone)) = toldWhile reported es := by
  induction es generalizing reported with
  | nil => rfl
  | cons e es ih =>
    cases e with
    | play e => rw [List.filter_cons_of_pos rfl, toldWhile, toldWhile, ih]
    | toolError text => rw [List.filter_cons_of_pos rfl, toldWhile, toldWhile, ih]
    | finished ds artifact => rw [List.filter_cons_of_pos rfl, toldWhile, toldWhile, ih]
    | exited code killed => exact ih

theorem RunEvent.SameButExits.toldWhile (h : SameButExits es es') :
    toldWhile reported es' = toldWhile reported es := by
  rw [← toldWhile_filter, h.others, toldWhile_filter]

end

namespace Delivery

variable {ws : Workspace} {mode : Mode} {d : Delivery} {es : List RunEvent}

/-- What is known after the events. -/
def after (ws : Workspace) (mode : Mode) (es : List RunEvent) : Delivery :=
  ⟨ws, mode, es.any RunEvent.isToolError, RunEvent.lastFinished? es, RunEvent.lastExit? es⟩

theorem receive_after (ws : Workspace) (mode : Mode) (es : List RunEvent) (e : RunEvent) :
    (after ws mode es).receive e
      =
    (toldWhile (es.any RunEvent.isToolError) [e], after ws mode (es ++ [e])) := by
  cases e with
  | play e =>
    simp [receive, after, toldWhile, RunEvent.isToolError, RunEvent.lastFinished?,
      RunEvent.lastExit?, RunEvent.finished?, RunEvent.exit?]
  | toolError text =>
    cases h : es.any RunEvent.isToolError with
    | false =>
      simp [receive, after, toldWhile, RunEvent.isToolError, RunEvent.lastFinished?,
        RunEvent.lastExit?, RunEvent.finished?, RunEvent.exit?, h]
    | true =>
      simp [receive, after, toldWhile, RunEvent.isToolError, RunEvent.lastFinished?,
        RunEvent.lastExit?, RunEvent.finished?, RunEvent.exit?, h]
  | finished diagnostics artifact =>
    simp [receive, after, toldWhile, RunEvent.isToolError, RunEvent.lastFinished?,
      RunEvent.lastExit?, RunEvent.finished?, RunEvent.exit?]
  | exited code killed =>
    simp [receive, after, toldWhile, RunEvent.isToolError, RunEvent.lastFinished?,
      RunEvent.lastExit?, RunEvent.finished?, RunEvent.exit?]

theorem announcement?_eq_some_iff {notice : Notice} :
    d.announcement? = some notice
      ↔
    d.mode = .compile ∧ d.exit = some (some 0, false) ∧ ∃ artifact story,
      d.finished = some ([], some artifact) ∧ Uri.ofPath? artifact = some story
        ∧ notice = .compiled d.workspace.uri story := by
  unfold announcement? succeeded
  split
  . next artifact hmode hfinished =>
    by_cases hexit : d.exit = some (some 0, false)
    . simp only [hexit, decide_true, if_true, Option.map_eq_some_iff, hmode, true_and, hfinished]
      constructor
      . rintro ⟨story, hstory, hnotice⟩
        exact ⟨artifact, story, rfl, hstory, hnotice.symm⟩
      . rintro ⟨_, story, hpath, hstory, hnotice⟩
        cases hpath
        exact ⟨story, hstory, hnotice.symm⟩
    . simp [hexit]
  . next hnot =>
    constructor
    . intro h
      cases h
    . rintro ⟨hmode, _, artifact, _, hfinished, _⟩
      exact absurd hfinished (hnot artifact hmode)

end Delivery

theorem PlayEvent.method_ne (e : PlayEvent) : e.notice.method ≠ "didCompileStory" := by
  cases e <;> simp [notice, method]

namespace World

variable {w v w' v' : World} {g : Nat} {es es' : List RunEvent} {out out' : List Effect}
  {ws : Workspace} {mode : Mode}

/-- Events of a run come in from one state to another, and the editor is told something about them.
Meanwhile others may do what they like, as long as the delivery of the run is left to it. -/
inductive Hears (g : Nat) (w : World) : List RunEvent → List Effect → World → Prop where
  | refl : Hears g w [] [] w
  | event {es : List RunEvent} {out new : List Effect} {v : World} (h : Hears g w es out v)
    (e : RunEvent) (hnew : (v.receive g e).trace = v.trace ++ new) :
    Hears g w (es ++ [e]) (out ++ new) (v.receive g e)
  | others {es : List RunEvent} {out : List Effect} {v u : World} (h : Hears g w es out v)
    (hu : u.deliveries.lookup g = v.deliveries.lookup g) : Hears g w es out u

theorem Hears.after (h : Hears g w es out v)
    (hstart : w.deliveries.lookup g = some (.start ws mode)) :
    v.deliveries.lookup g = some (.after ws mode es) ∧ out = toldWhile false es := by
  induction h with
  | refl => exact ⟨hstart, rfl⟩
  | @event es out new v _ e hnew ih =>
    obtain ⟨hlookup, hout⟩ := ih
    simp only [receive, hlookup, Delivery.receive_after, emitAll, List.append_cancel_left_eq] at hnew ⊢
    refine ⟨?_, ?_⟩
    . rw [lookup_setKey, if_pos rfl]
    . rw [toldWhile_append, hout, ← hnew, Bool.false_or]
  | others _ hu ih =>
    rw [hu]
    exact ih

theorem eq_nil_of_mem_renew {uri : String} {ds : List EditorDiagnostic}
    (h : (uri, ds) ∈ (w.renew ws []).2) : ds = [] := by
  have hlookup := lookup_of_mem (w.sorted_renew ws []) h
  rw [lookup_renew] at hlookup
  split at hlookup
  . exact (Option.some.inj hlookup).symm
  . split at hlookup
    . exact (Option.some.inj hlookup).symm
    . cases hlookup

theorem Hears.endRun_of_none (h : Hears g w es out v)
    (hstart : w.deliveries.lookup g = some (.start ws mode))
    (hnone : RunEvent.lastFinished? es = none) :
    (v.endRun g).2 = [] ∧ (v.endRun g).1.published = v.published := by
  unfold World.endRun
  rw [(h.after hstart).1]
  dsimp only [Delivery.after, conclude]
  rw [hnone]
  exact ⟨rfl, rfl⟩

theorem Hears.endRun_of_some {ds : List Diagnostic} {artifact : Option Path} (h : Hears g w es out v)
    (hstart : w.deliveries.lookup g = some (.start ws mode))
    (hsome : RunEvent.lastFinished? es = some (ds, artifact)) :
    (v.endRun g).2
        = (v.renew ws ds).2.messages
          ++ (Delivery.after ws mode es).announcement?.toList.map .notify
      ∧ (v.endRun g).1.published = (v.renew ws ds).1.published := by
  unfold World.endRun
  rw [(h.after hstart).1]
  have hfinished : (Delivery.after ws mode es).finished = some (ds, artifact) := hsome
  dsimp only [conclude]
  rw [hfinished]
  exact ⟨rfl, rfl⟩

theorem message?_of_mem_endRun {e : Effect} (h : e ∈ (v.endRun g).2) : e.message? = none := by
  unfold World.endRun at h
  split at h
  . cases h
  . unfold conclude at h
    split at h
    . cases h
    . rcases List.mem_append.mp h with h | h
      . obtain ⟨_, _, heq⟩ := List.mem_map.mp h
        rw [← heq]
        rfl
      . obtain ⟨_, _, heq⟩ := List.mem_map.mp h
        rw [← heq]
        rfl

theorem filter_isPublish_told (lists : Lists) (notices : List Notice) :
    (lists.messages ++ notices.map Effect.notify).filter Effect.isPublish = lists.messages := by
  rw [List.filter_append, List.filter_eq_self.mpr, List.filter_eq_nil_iff.mpr, List.append_nil]
  . intro e he
    obtain ⟨notice, _, hn⟩ := List.mem_map.mp he
    rw [← hn]
    exact Bool.false_ne_true
  . intro e he
    obtain ⟨a, _, ha⟩ := List.mem_map.mp he
    rw [← ha]
    rfl

theorem filterMap_notice?_messages (lists : Lists) :
    lists.messages.filterMap Effect.notice? = [] := by
  unfold Lists.messages
  rw [List.filterMap_map, List.filterMap_eq_nil_iff]
  intro a _
  rfl

/-- The notices that a story was compiled. -/
def announcements (es : List Effect) : List Notice :=
  (es.filterMap Effect.notice?).filter (·.method = "didCompileStory")

theorem announcements_toldWhile (reported : Bool) (es : List RunEvent) :
    announcements (toldWhile reported es) = [] := by
  unfold announcements
  rw [filterMap_notice?_toldWhile, List.filter_eq_nil_iff]
  intro notice hmem
  obtain ⟨e, _, he⟩ := List.mem_filterMap.mp hmem
  cases e with
  | play e =>
    rw [← Option.some.inj he]
    simpa using e.method_ne
  | toolError text => cases he
  | finished diagnostics artifact => cases he
  | exited code killed => cases he

theorem Hears.announcements_eq (h : Hears g w es out v)
    (hstart : w.deliveries.lookup g = some (.start ws mode)) :
    announcements (out ++ (v.endRun g).2) = (Delivery.after ws mode es).announcement?.toList := by
  have hout : announcements out = [] := by
    rw [(h.after hstart).2]
    exact announcements_toldWhile false es
  unfold announcements at hout ⊢
  rw [List.filterMap_append, List.filter_append, hout, List.nil_append]
  cases hann : (Delivery.after ws mode es).announcement? with
  | none =>
    cases hfinished : RunEvent.lastFinished? es with
    | none =>
      rw [(h.endRun_of_none hstart hfinished).1]
      rfl
    | some finished =>
      rw [(h.endRun_of_some hstart hfinished).1, hann]
      simp [filterMap_notice?_messages]
  | some notice =>
    obtain ⟨_, _, artifact, story, hfinished, _, hnotice⟩ := Delivery.announcement?_eq_some_iff.mp hann
    rw [(h.endRun_of_some hstart hfinished).1, hann]
    simp [filterMap_notice?_messages, Effect.notice?, hnotice, Notice.compiled]

/-- A compiled story is announced only if there is nothing to show. -/
theorem Hears.eq_nil_of_announcement {uri : String} {ds : List EditorDiagnostic} {notice : Notice}
    (h : Hears g w es out v) (hstart : w.deliveries.lookup g = some (.start ws mode))
    (hann : (Delivery.after ws mode es).announcement? = some notice)
    (hmem : .publish uri ds ∈ out ++ (v.endRun g).2) : ds = [] := by
  obtain ⟨_, _, artifact, story, hfinished, _⟩ := Delivery.announcement?_eq_some_iff.mp hann
  rw [(h.after hstart).2, (h.endRun_of_some hstart hfinished).1] at hmem
  rcases List.mem_append.mp hmem with hmem | hmem
  . rcases notice_or_message_of_mem_toldWhile hmem with hnot | hnot
    . cases hnot
    . cases hnot
  . rcases List.mem_append.mp hmem with hmem | hmem
    . obtain ⟨a, ha, heq⟩ := List.mem_map.mp hmem
      cases heq
      exact eq_nil_of_mem_renew ha
    . obtain ⟨_, _, heq⟩ := List.mem_map.mp hmem
      cases heq

/-- What is told and recorded does not depend on the places of the exits. -/
theorem Hears.eq_of_sameButExits (h : Hears g w es out v) (h' : Hears g w' es' out' v')
    (hstart : w.deliveries.lookup g = some (.start ws mode))
    (hstart' : w'.deliveries.lookup g = some (.start ws mode)) (hsame : RunEvent.SameButExits es es')
    (hdocuments : v'.documents = v.documents) (hpublished : v'.published = v.published) :
    out' = out ∧ (v'.endRun g).2 = (v.endRun g).2
      ∧ (v'.endRun g).1.published = (v.endRun g).1.published := by
  have hfinished := hsame.lastFinished?
  have hexit : RunEvent.lastExit? es' = RunEvent.lastExit? es := congrArg List.getLast? hsame.exits
  refine ⟨?_, ?_⟩
  . rw [(h.after hstart).2, (h'.after hstart').2, hsame.toldWhile]
  have hann : (Delivery.after ws mode es').announcement?
      = (Delivery.after ws mode es).announcement? := by
    apply Option.ext
    intro notice
    simp only [Delivery.announcement?_eq_some_iff, Delivery.after, hfinished, hexit]
  cases hlast : RunEvent.lastFinished? es with
  | none =>
    obtain ⟨htold, hrecord⟩ := h.endRun_of_none hstart hlast
    obtain ⟨htold', hrecord'⟩ := h'.endRun_of_none hstart' (hfinished.trans hlast)
    exact ⟨htold'.trans htold.symm, by rw [hrecord', hrecord, hpublished]⟩
  | some finished =>
    obtain ⟨htold, hrecord⟩ := h.endRun_of_some hstart hlast
    obtain ⟨htold', hrecord'⟩ := h'.endRun_of_some hstart' (hfinished.trans hlast)
    rw [htold, htold', hrecord, hrecord', hann]
    simp only [renew, hdocuments, hpublished, and_self]

/-- All that the editor is told about a run, whatever others do meanwhile. -/
theorem Hears.told_by_events (h : Hears g w es out v)
    (hstart : w.deliveries.lookup g = some (.start ws mode)) :
    out.filterMap Effect.notice? = es.filterMap RunEvent.notice?
      ∧ out.filterMap Effect.message?
        = (if es.any RunEvent.isToolError then [(.error, toolErrorMessage)] else [])
      ∧ (∀ e ∈ out, e.notice?.isSome ∨ e.message?.isSome)
      ∧ (∀ e ∈ (v.endRun g).2, e.message? = none)
      ∧ (RunEvent.lastFinished? es = none →
        (v.endRun g).2 = [] ∧ (v.endRun g).1.published = v.published)
      ∧ (∀ ds artifact, RunEvent.lastFinished? es = some (ds, artifact) →
        (v.endRun g).2.filter Effect.isPublish = (v.renew ws ds).2.messages
          ∧ (v.endRun g).1.published = (v.renew ws ds).1.published)
      ∧ (∃ announced : Option Notice,
        announcements (out ++ (v.endRun g).2) = announced.toList
          ∧ (∀ notice, announced = some notice ↔
            mode = .compile ∧ RunEvent.lastExit? es = some (some 0, false) ∧ ∃ artifact story,
              RunEvent.lastFinished? es = some ([], some artifact)
                ∧ Uri.ofPath? artifact = some story ∧ notice = .compiled ws.uri story)
          ∧ ∀ uri ds, .publish uri ds ∈ out ++ (v.endRun g).2 → ds ≠ [] → announced = none)
      ∧ ∀ w' v' es' out', Hears g w' es' out' v' →
        w'.deliveries.lookup g = some (.start ws mode) → RunEvent.SameButExits es es' →
        v'.documents = v.documents → v'.published = v.published →
          out' = out ∧ (v'.endRun g).2 = (v.endRun g).2
            ∧ (v'.endRun g).1.published = (v.endRun g).1.published := by
  have hout := (h.after hstart).2
  refine ⟨?_, ?_, ?_, ?_, ?_, ?_, ?_, ?_⟩
  . rw [hout, filterMap_notice?_toldWhile]
  . rw [hout, filterMap_message?_toldWhile]
    rfl
  . rw [hout]
    exact fun e => notice_or_message_of_mem_toldWhile
  . exact fun e he => message?_of_mem_endRun he
  . exact h.endRun_of_none hstart
  . intro ds artifact hsome
    obtain ⟨htold, hrecord⟩ := h.endRun_of_some hstart hsome
    rw [htold]
    exact ⟨filter_isPublish_told _ _, hrecord⟩
  . refine ⟨_, h.announcements_eq hstart, fun notice => Delivery.announcement?_eq_some_iff, ?_⟩
    intro uri ds hmem hne
    rw [Option.eq_none_iff_forall_ne_some]
    intro notice hann
    exact hne (h.eq_nil_of_announcement hstart hann hmem)
  . intro w' v' es' out' h' hstart'
    exact h.eq_of_sameButExits h' hstart hstart'

theorem Hears.receive (h : Hears g w es out v) (e : RunEvent) :
    ∃ new, Hears g w (es ++ [e]) (out ++ new) (v.receive g e) := by
  have htrace : ∃ new, (v.receive g e).trace = v.trace ++ new := by
    unfold World.receive
    split
    . exact ⟨[], (List.append_nil _).symm⟩
    . exact ⟨_, rfl⟩
  obtain ⟨new, hnew⟩ := htrace
  exact ⟨new, .event h e hnew⟩

def compilingWorld : World :=
  { World.start ⟨[], []⟩ ⟨.ofString "/s", .standard⟩ ⟨"a.ink", "inklecate", none⟩ with
    deliveries := [(1, .start ⟨"/v", .ofString "/v", none⟩ .compile)] }

/-- What such a run reports before or after its process ends. -/
def compilingEvents : List RunEvent :=
  [.toolError "x", .finished [] (some (.ofString "/s/a.ink.json"))]

theorem told_by_events_compiling :
    ∃ out v, Hears 1 compilingWorld (.exited (some 0) false :: compilingEvents) out v
      ∧ out.filterMap Effect.message? = [(.error, toolErrorMessage)]
      ∧ announcements (out ++ (v.endRun 1).2) = [.compiled "/v" "file:///s/a.ink.json"]
      ∧ ∀ out' v', Hears 1 compilingWorld (compilingEvents ++ [.exited (some 0) false]) out' v' →
        v'.documents = v.documents → v'.published = v.published →
          out' = out ∧ (v'.endRun 1).2 = (v.endRun 1).2 := by
  have hstory : Uri.ofPath? (.ofString "/s/a.ink.json") = some "file:///s/a.ink.json" := by rfl
  obtain ⟨_, hexited⟩ := (Hears.refl (g := 1) (w := compilingWorld)).receive (.exited (some 0) false)
  obtain ⟨_, herror⟩ := hexited.receive (.toolError "x")
  obtain ⟨_, h⟩ := herror.receive (.finished [] (some (.ofString "/s/a.ink.json")))
  obtain ⟨_, hmessage, _, _, _, _, ⟨announced, htold, hiff, _⟩, hmoved⟩ := h.told_by_events rfl
  refine ⟨_, _, h, hmessage, ?_, ?_⟩
  . have hannounced := (hiff _).mpr ⟨rfl, rfl, _, _, rfl, hstory, rfl⟩
    rw [htold, hannounced]
    rfl
  . intro out' v' h' hdocuments hpublished
    have hsame := @RunEvent.sameButExits_move [] compilingEvents [] (some 0) false (by decide)
    obtain ⟨hout, hend, _⟩ := hmoved _ v' _ out' h' rfl hsame hdocuments hpublished
    exact ⟨hout, hend⟩

end World

end InkServer
