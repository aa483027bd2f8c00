import InkServer.Proofs.Publication.History
import InkServer.Session.Turn
import Mathlib.Data.List.Induction

/-!
This module contains publish calls for one workspace that overlap. Each call records what it is about
to publish in one step and sends its messages one by one later. A diagnostic that is shown but not
recorded will not be cleared, and this comes about exactly when a message is overtaken.
-/

namespace InkServer

namespace World

variable {w : World} {ws : Workspace} {diagnostics : List Diagnostic} {uri : String}
  {list : List EditorDiagnostic}

/-- What the editor shows under a URI. -/
def showing (w : World) (uri : String) : List EditorDiagnostic :=
  (lastList? uri w.trace).getD []

theorem mem_recorded_renew :
    uri ∈ (w.renew ws diagnostics).1.recorded ws.uri ↔ w.shownBy (ws, diagnostics) uri ≠ [] := by
  rw [recorded]
  dsimp only [renew]
  rw [lookup_setKey, if_pos rfl, Option.getD_some]
  exact mem_nonEmpty_listsOf

theorem shownBy_ne_nil_iff (h : (w.renew ws diagnostics).2.lookup uri = some list) :
    w.shownBy (ws, diagnostics) uri ≠ [] ↔ list ≠ [] := by
  rw [lookup_renew] at h
  split at h
  . rw [Option.some.inj h]
  . next hnot =>
    split at h
    . simp_all
    . cases h

/-- A URI without a list had no faults before either. -/
theorem of_lookup_renew_eq_none (h : (w.renew ws diagnostics).2.lookup uri = none) :
    w.shownBy (ws, diagnostics) uri = [] ∧ uri ∉ w.recorded ws.uri := by
  rw [lookup_renew] at h
  split at h
  . cases h
  . next hnot =>
    split at h
    . cases h
    . next hfresh => exact ⟨by simp_all, hfresh⟩

end World

/-- A message that was sent: the number of its call, and the list that it shows. -/
structure Sending where
  call : Nat
  uri : String
  list : List EditorDiagnostic

/-- Publish calls for a workspace, from the state `w₀` on. The lists of each call stand in the order
in which the calls recorded them, and the messages in the order in which they were sent. -/
inductive Overlap (ws : Workspace) (w₀ : World) : List Lists → List Sending → World → Prop where
  | start : Overlap ws w₀ [] [] w₀
  /-- A call records what it is about to publish. -/
  | record {calls : List Lists} {sent : List Sending} {w : World} (h : Overlap ws w₀ calls sent w)
    (diagnostics : List Diagnostic) :
    Overlap ws w₀ (calls ++ [(w.renew ws diagnostics).2]) sent (w.renew ws diagnostics).1
  /-- Any call sends any message that it has not sent yet. -/
  | send {calls : List Lists} {sent : List Sending} {w : World} {call : Nat} {lists : Lists}
    {uri : String} {list : List EditorDiagnostic} (h : Overlap ws w₀ calls sent w)
    (hcall : calls[call]? = some lists) (hmem : (uri, list) ∈ lists)
    (hnew : ⟨call, uri, list⟩ ∉ sent) :
    Overlap ws w₀ calls (sent ++ [⟨call, uri, list⟩]) (w.emit (.publish uri list))
  /-- Something else happens that neither publishes anything nor removes the workspace. -/
  | elsewhere {calls : List Lists} {sent : List Sending} {w u : World} {gone : List String}
    (h : Overlap ws w₀ calls sent w) (hquiet : Unpublished gone w u) (hkept : ws.uri ∉ gone) :
    Overlap ws w₀ calls sent u

/-- All calls have sent all their messages. -/
def Completed (calls : List Lists) (sent : List Sending) : Prop :=
  ∀ call lists, calls[call]? = some lists →
    ∀ uri list, (uri, list) ∈ lists → ⟨call, uri, list⟩ ∈ sent

def lastSending? (uri : String) (sent : List Sending) : Option Sending :=
  sent.reverse.find? fun s => s.uri = uri

/-- The call with the given number has the given list for a URI, and no call after it has any. -/
def NamesLast (calls : List Lists) (uri : String) (call : Nat) (list : List EditorDiagnostic) : Prop :=
  (∃ lists, calls[call]? = some lists ∧ lists.lookup uri = some list)
    ∧ ∀ later lists, call < later → calls[later]? = some lists → lists.lookup uri = none

/-- Some faults are the last that was sent for a URI, and the call that sent them was overtaken: the
last call with a list for the URI is a later one, and finds no faults. -/
def Overtaken (calls : List Lists) (sent : List Sending) (uri : String) : Prop :=
  ∃ s call, lastSending? uri sent = some s ∧ s.list ≠ [] ∧ s.call < call
    ∧ NamesLast calls uri call []

/-- The messages for each URI are sent in the order in which their calls recorded them. -/
def InOrder (sent : List Sending) : Prop :=
  sent.Pairwise fun a b => a.uri = b.uri → a.call < b.call

section

variable {calls : List Lists} {sent : List Sending} {uri : String} {call : Nat}
  {list : List EditorDiagnostic} {s : Sending} {lists : Lists}

theorem lastSending?_concat :
    lastSending? uri (sent ++ [s]) = if s.uri = uri then some s else lastSending? uri sent := by
  simp only [lastSending?, List.reverse_append, List.reverse_singleton, List.singleton_append,
    List.find?_cons]
  split
  . next h => rw [if_pos (by simpa using h)]
  . next h => rw [if_neg (by simpa using h)]

theorem of_lastSending? (h : lastSending? uri sent = some s) : s ∈ sent ∧ s.uri = uri := by
  have hmem := List.mem_of_find?_eq_some h
  have huri := List.find?_some h
  exact ⟨by simpa using hmem, by simpa using huri⟩

theorem lastSending?_ne_none (hs : s ∈ sent) (huri : s.uri = uri) : lastSending? uri sent ≠ none := by
  intro hnone
  have hall := List.find?_eq_none.mp hnone s (by simpa using hs)
  simp [huri] at hall

theorem InOrder.call_le (h : InOrder sent) {last : Sending} (hlast : lastSending? uri sent = some last)
    (hs : s ∈ sent) (huri : s.uri = uri) : s.call ≤ last.call := by
  induction sent using List.reverseRecOn with
  | nil => simp at hs
  | append_singleton sent final ih =>
    obtain ⟨horder, _, hbefore⟩ := List.pairwise_append.mp h
    rw [lastSending?_concat] at hlast
    split at hlast
    . next hfinal =>
      obtain rfl : final = last := by simpa using hlast
      cases List.mem_append.mp hs with
      | inl hs =>
        have := hbefore s hs final (by simp) (by rw [huri, hfinal])
        omega
      | inr hs =>
        obtain rfl : s = final := by simpa using hs
        omega
    . next hfinal =>
      apply ih horder hlast
      cases List.mem_append.mp hs with
      | inl hs => exact hs
      | inr hs =>
        obtain rfl : s = final := by simpa using hs
        exact absurd huri hfinal

theorem of_getElem?_concat {lists' : Lists} (h : (calls ++ [lists])[call]? = some lists') :
    calls[call]? = some lists' ∨ lists' = lists := by
  rw [List.getElem?_append] at h
  split at h
  . exact .inl h
  . have hmem := List.mem_of_getElem? h
    exact .inr (by simpa using hmem)

theorem NamesLast.concat_of_some (h : lists.lookup uri = some list) :
    NamesLast (calls ++ [lists]) uri calls.length list := by
  refine ⟨⟨lists, List.getElem?_concat_length, h⟩, ?_⟩
  intro later lists' hlater hlists
  have hbound := (List.getElem?_eq_some_iff.mp hlists).1
  rw [List.length_append, List.length_singleton] at hbound
  omega

theorem NamesLast.concat_of_none (h : NamesLast calls uri call list) (hnone : lists.lookup uri = none) :
    NamesLast (calls ++ [lists]) uri call list := by
  obtain ⟨⟨named, hcall, hnamed⟩, hlater⟩ := h
  have hbound := (List.getElem?_eq_some_iff.mp hcall).1
  refine ⟨⟨named, by rw [List.getElem?_append_left hbound, hcall], hnamed⟩, ?_⟩
  intro later lists' hlt hlists
  cases of_getElem?_concat hlists with
  | inl hlists => exact hlater later lists' hlt hlists
  | inr heq => rw [heq, hnone]

/-- Whether any call has a list for the URI, and which is the last one. -/
theorem exists_namesLast (calls : List Lists) (uri : String) :
    (∃ call list, NamesLast calls uri call list)
      ∨ ∀ lists ∈ calls, lists.lookup uri = none := by
  induction calls using List.reverseRecOn with
  | nil => exact .inr (by simp)
  | append_singleton calls lists ih =>
    cases hlookup : lists.lookup uri with
    | some list => exact .inl ⟨_, _, .concat_of_some hlookup⟩
    | none =>
      cases ih with
      | inl h =>
        obtain ⟨call, list, h⟩ := h
        exact .inl ⟨call, list, h.concat_of_none hlookup⟩
      | inr h =>
        right
        intro lists' hmem
        cases List.mem_append.mp hmem with
        | inl hmem => exact h lists' hmem
        | inr hmem => rw [List.mem_singleton.mp hmem, hlookup]

theorem NamesLast.unique {call' : Nat} {list' : List EditorDiagnostic}
    (h : NamesLast calls uri call list) (h' : NamesLast calls uri call' list') :
    call = call' ∧ list = list' := by
  obtain ⟨⟨lists, hcall, hlist⟩, hlater⟩ := h
  obtain ⟨⟨lists', hcall', hlist'⟩, hlater'⟩ := h'
  rcases Nat.lt_trichotomy call call' with hlt | heq | hgt
  . rw [hlater _ _ hlt hcall'] at hlist'
    cases hlist'
  . subst heq
    rw [hcall, Option.some.injEq] at hcall'
    rw [← hcall', hlist, Option.some.injEq] at hlist'
    exact ⟨rfl, hlist'⟩
  . rw [hlater' _ _ hgt hcall] at hlist
    cases hlist

end

namespace Overlap

variable {ws : Workspace} {w₀ w : World} {calls : List Lists} {sent : List Sending} {uri : String}

theorem sorted (h : Overlap ws w₀ calls sent w) : ∀ lists ∈ calls, lists.Sorted := by
  induction h with
  | start => simp
  | record h diagnostics ih =>
    intro lists hmem
    cases List.mem_append.mp hmem with
    | inl hmem => exact ih lists hmem
    | inr hmem =>
      rw [List.mem_singleton.mp hmem]
      apply World.sorted_renew
  | send _ _ _ _ ih => exact ih
  | elsewhere _ _ _ ih => exact ih

theorem lookup_of_mem_sent (h : Overlap ws w₀ calls sent w) :
    ∀ s ∈ sent, ∃ lists, calls[s.call]? = some lists ∧ lists.lookup s.uri = some s.list := by
  induction h with
  | start => simp
  | record h diagnostics ih =>
    intro s hs
    obtain ⟨lists, hcall, hlist⟩ := ih s hs
    have hbound := (List.getElem?_eq_some_iff.mp hcall).1
    exact ⟨lists, by rw [List.getElem?_append_left hbound, hcall], hlist⟩
  | send h hcall hmem _ ih =>
    intro s hs
    cases List.mem_append.mp hs with
    | inl hs => exact ih s hs
    | inr hs =>
      rw [List.mem_singleton.mp hs]
      have hsorted := h.sorted _ (List.mem_of_getElem? hcall)
      exact ⟨_, hcall, lookup_of_mem hsorted hmem⟩
  | elsewhere _ _ _ ih => exact ih

/-- What was published last for a URI is the last message for it. -/
theorem lastList?_eq (h : Overlap ws w₀ calls sent w) (uri : String) :
    lastList? uri w.trace
      =
    ((lastSending? uri sent).map Sending.list).or (lastList? uri w₀.trace) := by
  induction h with
  | start => rfl
  | record _ _ ih => exact ih
  | send _ _ _ _ ih =>
    rw [World.emit, lastList?_append, ih, lastSending?_concat]
    simp only [lastList?, List.reverse_singleton, List.findSome?_singleton, Effect.listFor?]
    split
    . rfl
    . rfl
  | elsewhere _ hquiet _ ih =>
    obtain ⟨es, htrace, hes⟩ := hquiet.trace
    rw [htrace, lastList?_append, lastList?_eq_none, Option.none_or, ih]
    intro e he
    have hpublish := hes e he
    cases e with
    | publish => cases hpublish
    | _ => rfl

/-- What is recorded is what the last call with a list for the URI has for it. -/
theorem mem_recorded_iff (h : Overlap ws w₀ calls sent w) (uri : String) :
    (∀ call list, NamesLast calls uri call list → (uri ∈ w.recorded ws.uri ↔ list ≠ []))
      ∧ ((∀ lists ∈ calls, lists.lookup uri = none) →
        (uri ∈ w.recorded ws.uri ↔ uri ∈ w₀.recorded ws.uri)) := by
  induction h with
  | start =>
    refine ⟨?_, fun _ => Iff.rfl⟩
    intro call list hnames
    obtain ⟨⟨lists, hcall, _⟩, _⟩ := hnames
    simp at hcall
  | @record calls sent w h diagnostics ih =>
    rw [World.mem_recorded_renew]
    cases hnamed : (w.renew ws diagnostics).2.lookup uri with
    | some list =>
      refine ⟨?_, ?_⟩
      . intro call list' hnames
        rw [World.shownBy_ne_nil_iff hnamed, ((NamesLast.concat_of_some hnamed).unique hnames).2]
      . intro hall
        rw [hall _ (by simp)] at hnamed
        cases hnamed
    | none =>
      -- The call leaves the URI out, so what was recorded before was that there are no faults.
      obtain ⟨hempty, hfresh⟩ := World.of_lookup_renew_eq_none hnamed
      refine ⟨?_, ?_⟩
      . intro call list hnames
        obtain ⟨call', list', h⟩ := (exists_namesLast calls uri).resolve_right (by
          intro hall
          obtain ⟨⟨lists, hcall, hlist⟩, _⟩ := hnames
          cases of_getElem?_concat hcall with
          | inl hcall => simp [hall lists (List.mem_of_getElem? hcall)] at hlist
          | inr heq => simp [heq, hnamed] at hlist)
        rw [← ((h.concat_of_none hnamed).unique hnames).2, ← ih.1 call' list' h]
        simp [hempty, hfresh]
      . intro hall
        rw [← ih.2 fun lists hmem => hall lists (List.mem_append_left _ hmem)]
        simp [hempty, hfresh]
  | send _ _ _ _ ih => exact ih
  | @elsewhere calls sent w u gone _ hquiet hkept ih =>
    have hrecorded : u.recorded ws.uri = w.recorded ws.uri := by
      unfold World.recorded
      cases hquiet.published ws.uri with
      | inl heq => rw [heq]
      | inr hgone => exact absurd hgone.1 hkept
    rw [hrecorded]
    exact ih

theorem sendAll {call : Nat} {lists before rest : Lists} (h : Overlap ws w₀ calls sent w)
    (hcall : calls[call]? = some lists) (hlists : lists = before ++ rest)
    (hnew : ∀ uri list, (uri, list) ∈ rest → ⟨call, uri, list⟩ ∉ sent) :
    Overlap ws w₀ calls (sent ++ rest.map fun (uri, list) => ⟨call, uri, list⟩)
      (w.emitAll (Lists.messages rest)) := by
  induction rest generalizing before sent w with
  | nil => simpa [World.emitAll, Lists.messages] using h
  | cons entry rest ih =>
    rcases entry with ⟨uri, list⟩
    have hsorted := h.sorted lists (List.mem_of_getElem? hcall)
    rw [hlists] at hsorted
    have hkeys := (List.pairwise_cons.mp (List.pairwise_append.mp hsorted).2.1).1
    have hsend := h.send hcall (by simp [hlists]) (hnew uri list (.head _))
    have hrest := ih hsend (by rw [hlists, ← List.append_cons]) (by
      intro uri' list' hmem
      have hlt : uri < uri' := hkeys _ hmem
      have hne : uri' ≠ uri := by
        rintro rfl
        exact String.lt_irrefl uri' hlt
      simp [hnew uri' list' (.tail _ hmem), hne])
    simpa [World.emitAll, World.emit, Lists.messages] using hrest

/-- A publish call by itself is one that sends all its messages at once. -/
theorem publish (h : Overlap ws w₀ calls sent w) (diagnostics : List Diagnostic) :
    Overlap ws w₀ (calls ++ [(w.renew ws diagnostics).2])
      (sent ++ (w.renew ws diagnostics).2.map fun (uri, list) => ⟨calls.length, uri, list⟩)
      (w.publish ws diagnostics) := by
  apply (h.record diagnostics).sendAll List.getElem?_concat_length (List.nil_append _).symm
  intro uri list _ hmem
  obtain ⟨lists, hcall, _⟩ := h.lookup_of_mem_sent _ hmem
  have hbound := (List.getElem?_eq_some_iff.mp hcall).1
  simp at hbound

theorem not_recorded_of_overtaken (h : Overlap ws w₀ calls sent w) (hovertaken : Overtaken calls sent uri) :
    w.showing uri ≠ [] ∧ uri ∉ w.recorded ws.uri := by
  obtain ⟨s, call, hlast, hfaults, _, hnames⟩ := hovertaken
  constructor
  . rw [World.showing, h.lastList?_eq, hlast]
    exact hfaults
  . rw [(h.mem_recorded_iff uri).1 call [] hnames]
    simp

theorem recorded_of_not_overtaken (h : Overlap ws w₀ calls sent w) (hdone : Completed calls sent)
    (h₀ : w₀.showing uri ≠ [] → uri ∈ w₀.recorded ws.uri) (hnot : ¬ Overtaken calls sent uri)
    (hshown : w.showing uri ≠ []) : uri ∈ w.recorded ws.uri := by
  rw [World.showing, h.lastList?_eq] at hshown
  cases exists_namesLast calls uri with
  | inl hnamed =>
    obtain ⟨call, list, hnames⟩ := hnamed
    rw [(h.mem_recorded_iff uri).1 call list hnames]
    obtain ⟨lists, hcall, hlist⟩ := hnames.1
    have hlater := hnames.2
    rintro rfl
    have hsent := hdone call lists hcall uri [] (mem_of_lookup hlist)
    cases hlast : lastSending? uri sent with
    | none => exact lastSending?_ne_none hsent rfl hlast
    | some s =>
      rw [hlast] at hshown
      obtain ⟨hs, huri⟩ := of_lastSending? hlast
      obtain ⟨lists', hcall', hlist'⟩ := h.lookup_of_mem_sent s hs
      apply hnot
      refine ⟨s, call, hlast, hshown, ?_, hnames⟩
      rcases Nat.lt_trichotomy s.call call with hlt | heq | hgt
      . exact hlt
      . rw [heq, hcall, Option.some.injEq] at hcall'
        rw [← hcall', huri, hlist, Option.some.injEq] at hlist'
        exact absurd hlist'.symm hshown
      . rw [huri, hlater _ _ hgt hcall'] at hlist'
        cases hlist'
  | inr hall =>
    -- No call has a list for the URI, so everything is as it was at the start.
    rw [(h.mem_recorded_iff uri).2 hall]
    apply h₀
    cases hlast : lastSending? uri sent with
    | none =>
      rw [hlast] at hshown
      exact hshown
    | some s =>
      obtain ⟨hs, huri⟩ := of_lastSending? hlast
      obtain ⟨lists, hcall, hlist⟩ := h.lookup_of_mem_sent s hs
      rw [huri, hall lists (List.mem_of_getElem? hcall)] at hlist
      cases hlist

end Overlap

theorem InOrder.not_overtaken {calls : List Lists} {sent : List Sending} {uri : String}
    (h : InOrder sent) (hdone : Completed calls sent) : ¬ Overtaken calls sent uri := by
  rintro ⟨s, call, hlast, _, hlt, ⟨⟨lists, hcall, hlist⟩, _⟩⟩
  have hsent := hdone call lists hcall uri [] (mem_of_lookup hlist)
  have hle : call ≤ s.call := h.call_le hlast hsent rfl
  omega

/-- When all calls have sent their messages, every URI under which faults are shown is recorded exactly
if no message was overtaken. So it is if the messages for each URI are sent in order. -/
theorem Overlap.recorded_iff_not_overtaken {ws : Workspace} {w₀ w : World} {calls : List Lists}
    {sent : List Sending} (h : Overlap ws w₀ calls sent w) (hdone : Completed calls sent)
    (h₀ : ∀ uri, w₀.showing uri ≠ [] → uri ∈ w₀.recorded ws.uri) :
    ((∀ uri, w.showing uri ≠ [] → uri ∈ w.recorded ws.uri) ↔ ∀ uri, ¬ Overtaken calls sent uri)
      ∧ (InOrder sent → ∀ uri, w.showing uri ≠ [] → uri ∈ w.recorded ws.uri) := by
  refine ⟨⟨?_, ?_⟩, ?_⟩
  . intro hrecorded uri hovertaken
    obtain ⟨hshown, hnot⟩ := h.not_recorded_of_overtaken hovertaken
    exact hnot (hrecorded uri hshown)
  . intro hnot uri
    exact h.recorded_of_not_overtaken hdone (h₀ uri) (hnot uri)
  . intro horder uri
    exact h.recorded_of_not_overtaken hdone (h₀ uri) (horder.not_overtaken hdone)

namespace Session

variable {σ : Type}

theorem ready_start_none (effects : List Effect) :
    (Posting.start none effects).ready = (effects, []) := by
  induction effects with
  | nil => rfl
  | cons e effects ih =>
    have hturns : e.turns none = 0 := by cases e <;> rfl
    rw [Posting.start, List.map_cons, hturns, Posting.ready]
    rw [Posting.start] at ih
    rw [ih]

/-- Where messages are made at once, no run is overtaken: its end is one step. -/
theorem post_endRun (s : Session σ) (generation : Nat) :
    post [.start none (s.world.endRun generation).2]
        { s with world := (s.world.endRun generation).1 }
      =
    { s with world := s.world.closeRun generation } := by
  simp only [post, ready_start_none]
  rfl

end Session

/-- The results of two runs of a story are about to be shown. The first found a fault, the second
none. -/
def overlapWorld : World :=
  { spellingWorld with
    deliveries := [(1, spellingDelivery), (2, { spellingDelivery with finished := some ([], none) })] }

def overlapCalls : List Lists :=
  [[("file:///v/a.ink", [.ofDiagnostic spellingFault])], [("file:///v/a.ink", [])]]

/-- The second run is recorded after the first, and its message is sent before. -/
def overlapSent : List Sending :=
  [⟨1, "file:///v/a.ink", []⟩, ⟨0, "file:///v/a.ink", [.ofDiagnostic spellingFault]⟩]

def overlapRecorded : World :=
  ((overlapWorld.renew spellingDelivery.workspace [spellingFault]).1.renew
    spellingDelivery.workspace []).1

def overlapEnd : World :=
  (overlapRecorded.emit (.publish "file:///v/a.ink" [])).emit
    (.publish "file:///v/a.ink" [.ofDiagnostic spellingFault])

theorem overlap_overlapEnd :
    Overlap spellingDelivery.workspace overlapWorld overlapCalls overlapSent overlapEnd := by
  have hrecorded : Overlap spellingDelivery.workspace overlapWorld overlapCalls [] overlapRecorded :=
    .record (.record .start [spellingFault]) []
  have hcleared : Overlap spellingDelivery.workspace overlapWorld overlapCalls
      [⟨1, "file:///v/a.ink", []⟩] (overlapRecorded.emit (.publish "file:///v/a.ink" [])) :=
    .send hrecorded rfl (.head _) (by simp)
  exact .send hcleared rfl (.head _) (by simp)

theorem completed_overlapCalls : Completed overlapCalls overlapSent := by
  intro call lists hcall uri list hmem
  rcases call with _ | _ | call
  . obtain rfl := Option.some.inj hcall
    simp_all [overlapSent]
  . obtain rfl := Option.some.inj hcall
    simp_all [overlapSent]
  . cases hcall

theorem overtaken_overlapCalls : Overtaken overlapCalls overlapSent "file:///v/a.ink" := by
  refine ⟨_, 1, rfl, by simp, by simp, ⟨_, rfl, rfl⟩, ?_⟩
  intro later lists hlater hlists
  have hbound := (List.getElem?_eq_some_iff.mp hlists).1
  simp [overlapCalls] at hbound
  omega

theorem recorded_iff_not_overtaken_overlapEnd :
    Overlap spellingDelivery.workspace overlapWorld overlapCalls overlapSent overlapEnd
      ∧ Completed overlapCalls overlapSent
      ∧ ¬ ∀ uri, overlapEnd.showing uri ≠ [] → uri ∈ overlapEnd.recorded "/v" := by
  refine ⟨overlap_overlapEnd, completed_overlapCalls, ?_⟩
  have hstart : ∀ uri, overlapWorld.showing uri ≠ [] → uri ∈ overlapWorld.recorded "/v" := by
    intro uri hshown
    exact absurd rfl hshown
  obtain ⟨hiff, _⟩ := overlap_overlapEnd.recorded_iff_not_overtaken completed_overlapCalls hstart
  intro hrecorded
  exact hiff.mp hrecorded _ overtaken_overlapCalls

/-- All calls are at their end, and a fault is shown that will not be cleared. -/
theorem overlapEnd_shows_unrecorded :
    Overlap spellingDelivery.workspace overlapWorld overlapCalls overlapSent overlapEnd
      ∧ Completed overlapCalls overlapSent
      ∧ overlapEnd.showing "file:///v/a.ink" = [.ofDiagnostic spellingFault]
      ∧ overlapEnd.recorded "/v" = [] := by
  refine ⟨overlap_overlapEnd, completed_overlapCalls, ?_, ?_⟩
  . rfl
  . rfl

end InkServer
