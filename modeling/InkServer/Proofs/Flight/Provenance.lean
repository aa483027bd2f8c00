import InkServer.Proofs.Copy.Scratch
import InkServer.Proofs.Flight.Action
import InkServer.Proofs.Flight.SingleFlight
import InkServer.Proofs.Ownership

/-!
This module contains the way that scratch folders take to the entries and the callers: each was
filled by a pass over the very workspace that it belongs to.
-/

namespace InkServer

/-- The copying in one pass: who carries it out over which workspace, the number that was drawn for
the scratch folder, and what the disk holds. -/
structure Copying where
  caller : Nat
  uri : String
  generation : Nat
  root : Path
  draw : Nat
  disk : Disk

namespace Copying

/-- What the pass finds out. -/
def result (rules : CopyRules) (k : Copying) : Registry.PassResult :=
  (rules.createCopy (scratchName k.draw) k.root k.disk).2

end Copying

/-- The path is the normal form of the one that the URI stands for. -/
def RootOf (uri : String) (p : Path) : Prop :=
  ∃ root, Uri.toPath uri = .ok root ∧ p = root.normalize

namespace Event

def isSettle : Event → Bool
  | settle _ _ _ _ => true
  | _ => false

theorem of_effect_root {u : String} {x : Option Entry} {y : Entry} {e : Event}
    (h : e.effect u x = some y) :
    (∃ z, x = some z ∧ z.root = y.root) ∨ ∃ root, e = .register u root ∧ y.root = root.normalize := by
  cases e with
  | register uri root =>
    simp only [effect] at h
    split at h
    . next hu =>
      cases x with
      | none =>
        rw [Option.getD_none, Option.some.injEq] at h
        exact .inr ⟨root, by rw [hu], by rw [← h]; rfl⟩
      | some z =>
        rw [Option.getD_some, Option.some.injEq] at h
        exact .inl ⟨z, rfl, by rw [h]⟩
    . exact .inl ⟨y, h, rfl⟩
  | forget uri =>
    simp only [effect] at h
    split at h
    . simp at h
    . exact .inl ⟨y, h, rfl⟩
  | giveUp caller uri scratch =>
    simp only [effect] at h
    split at h
    . obtain ⟨z, hz, hy⟩ := Option.map_eq_some_iff.mp h
      refine .inl ⟨z, hz, ?_⟩
      rw [← hy, Entry.giveUp]
      split <;> rfl
    . exact .inl ⟨y, h, rfl⟩
  | look caller uri begun =>
    cases begun with
    | none => exact .inl ⟨y, h, rfl⟩
    | some generation =>
      simp only [effect] at h
      split at h
      . obtain ⟨z, hz, hy⟩ := Option.map_eq_some_iff.mp h
        exact .inl ⟨z, hz, by rw [← hy]; rfl⟩
      . exact .inl ⟨y, h, rfl⟩
  | settle caller uri generation result =>
    simp only [effect] at h
    split at h
    . obtain ⟨z, hz, hy⟩ := Option.map_eq_some_iff.mp h
      refine .inl ⟨z, hz, ?_⟩
      rw [← hy, Entry.settlePass]
      split <;> rfl
    . exact .inl ⟨y, h, rfl⟩
  | announce uri => exact .inl ⟨y, h, rfl⟩
  | call uri => exact .inl ⟨y, h, rfl⟩
  | arm caller uri => exact .inl ⟨y, h, rfl⟩
  | tell caller uri => exact .inl ⟨y, h, rfl⟩
  | quiet caller => exact .inl ⟨y, h, rfl⟩

end Event

theorem Registry.commit_eq_ok {r : Registry} {uri : String} {generation : Nat}
    {result : PassResult} {w : Workspace} (h : (r.commit uri generation result).1 = .ok w) :
    ∃ x scratch, r.get? uri = some x ∧ (x.settlePass generation result).state = .ready scratch
      ∧ w = (x.settlePass generation result).snapshot uri := by
  unfold commit at h
  split at h
  . simp at h
  . next x hx =>
    refine ⟨x, ?_⟩
    split at h
    . next hg =>
      rw [Entry.settlePass_of_eq hg]
      split at h
      . next scratch =>
        rw [Except.ok.injEq] at h
        exact ⟨scratch, hx, rfl, h.symm⟩
      . simp at h
    . next hg =>
      rw [Entry.settlePass_of_ne hg]
      split at h
      . next scratch hready =>
        rw [Except.ok.injEq] at h
        exact ⟨scratch, hx, hready, h.symm⟩
      . simp at h

theorem Caller.Moves.of_copying {r : Registry} {settles i generation : Nat} {c c' : Caller}
    {e : Event} {root : Path} (h : Moves r settles i c e c')
    (hp : c'.phase = .copying root generation) :
    c.phase = .copying root generation ∨ ∃ x, r.get? c.uri = some x ∧ root = x.root := by
  cases h with
  | copy hx =>
    simp only [Phase.copying.injEq] at hp
    exact .inr ⟨_, hx, hp.1.symm⟩
  | idle => exact .inl hp
  | _ => simp at hp

theorem Caller.ordered_advance {r : Registry} (h : r.Ordered) (c : Caller) (settles : Nat) :
    (c.advance r settles).2.Ordered := by
  unfold advance
  split
  . unfold look
    have hdecides := r.nextStep_decides c.uri c.waited
    generalize r.nextStep c.uri c.waited = result at hdecides
    cases hdecides with
    | absent => exact h
    | check => exact h
    | wait => exact h
    | copy => exact h.set c.uri _
  . exact h.markStale c.uri _
  . exact h
  . split
    . exact h
    . exact h
  . split
    . exact h
    . exact h
  . split
    . exact h
    . exact h
  . exact h

namespace Flight

variable {s t : Flight} {e : Event} {es : List Event} {i generation : Nat} {u : String}
  {c : Caller} {x : Entry} {root scratch : Path}

theorem Step.ordered (hs : Step s e t) (h : s.registry.Ordered) : t.registry.Ordered := by
  cases hs with
  | register _ hr => exact h.register hr
  | forget => exact h.forget _
  | announce => exact h
  | giveUp uri scratch => exact h.markStale uri scratch
  | call => exact h
  | advance => exact Caller.ordered_advance h _ _
  | check => exact h
  | settle _ _ result => exact h.commit _ _ result
  | tell => exact h

theorem ordered (h : History es s) : s.registry.Ordered := by
  induction h with
  | refl => exact .nil
  | step _ hs ih => exact hs.ordered ih

theorem rootOf_of_get? (h : History es s) (hx : s.registry.get? u = some x) : RootOf u x.root := by
  induction h generalizing x with
  | refl => cases hx
  | step _ hs ih =>
    rw [hs.get?] at hx
    rcases Event.of_effect_root hx with ⟨z, hz, hroot⟩ | ⟨root, he, hroot⟩
    . rw [← hroot]
      exact ih hz
    . subst he
      exact ⟨root, hs.allows, hroot⟩

theorem rootOf_of_copying (h : History es s) (hc : s.callers[i]? = some c)
    (hp : c.phase = .copying root generation) : RootOf c.uri root := by
  induction h generalizing c with
  | refl => simp [start] at hc
  | step h hs ih =>
    rcases hs.caller_before hc with ⟨hsame, _⟩ | ⟨b, hb, hm⟩ | ⟨uri, _, hstart⟩
    . exact ih hsame hp
    . rw [hm.uri_eq]
      rcases hm.of_copying hp with hbp | ⟨x, hx, hroot⟩
      . exact ih hb hbp
      . rw [hroot]
        exact rootOf_of_get? h hx
    . rw [hstart] at hp
      simp [Caller.start] at hp

end Flight

/-- A history in which every pass copies the root that its caller was given into the scratch folder
of a number drawn for it, with the copyings, the last one first. The disk may hold anything. -/
inductive Voyage (rules : CopyRules) : List Event → List Copying → Flight → Prop where
  | start : Voyage rules [] [] .start
  | step {es : List Event} {ks : List Copying} {s t : Flight} {e : Event}
    (h : Voyage rules es ks s) (hs : Flight.Step s e t) (he : e.isSettle = false) :
    Voyage rules (e :: es) ks t
  | copy {es : List Event} {ks : List Copying} {s t : Flight} {k : Copying} {c : Caller}
    (h : Voyage rules es ks s) (hc : s.callers[k.caller]? = some c) (huri : c.uri = k.uri)
    (hp : c.phase = .copying k.root k.generation)
    (hs : Flight.Step s (.settle k.caller k.uri k.generation (k.result rules)) t) :
    Voyage rules (.settle k.caller k.uri k.generation (k.result rules) :: es) (k :: ks) t

namespace Voyage

open Flight

variable {rules : CopyRules} {es : List Event} {ks : List Copying} {s t : Flight} {e : Event}
  {i generation : Nat} {u v : String} {c : Caller} {x : Entry} {scratch : Path} {k : Copying}
  {w : Workspace}

theorem history (h : Voyage rules es ks s) : History es s := by
  induction h with
  | start => exact .refl
  | step _ hs _ ih => exact .step ih hs
  | copy _ _ _ _ hs ih => exact .step ih hs

theorem mem_of_settle {result : Registry.PassResult} (h : Voyage rules es ks s)
    (hsettle : .settle i u generation result ∈ es) :
    ∃ k ∈ ks, k.uri = u ∧ k.result rules = result := by
  induction h with
  | start => simp at hsettle
  | step _ _ he ih =>
    cases hsettle with
    | head => simp [Event.isSettle] at he
    | tail _ hsettle => exact ih hsettle
  | @copy _ _ _ _ k _ _ _ _ _ _ ih =>
    cases hsettle with
    | head => exact ⟨k, .head _, rfl, rfl⟩
    | tail _ hsettle =>
      obtain ⟨k', hk, hrest⟩ := ih hsettle
      exact ⟨k', .tail _ hk, hrest⟩

theorem rootOf_of_mem (h : Voyage rules es ks s) (hk : k ∈ ks) : RootOf k.uri k.root := by
  induction h with
  | start => simp at hk
  | step _ _ _ ih => exact ih hk
  | copy h hc huri hp _ ih =>
    cases hk with
    | head =>
      rw [← huri]
      exact rootOf_of_copying h.history hc hp
    | tail _ hk => exact ih hk

theorem begun_of_mem (h : Voyage rules es ks s) (hk : k ∈ ks) :
    .look k.caller k.uri (some k.generation) ∈ es := by
  induction h with
  | start => simp at hk
  | step _ _ _ ih => exact .tail _ (ih hk)
  | copy h _ _ _ hs ih =>
    cases hk with
    | head => exact .tail _ (hs.settle_flies.begun h.history)
    | tail _ hk => exact .tail _ (ih hk)

end Voyage

/-- The scratch folder was filled by a pass that was begun for the workspace `u` and copied its
root, and it lies directly in the folder where scratch folders are made. -/
def Filled (rules : CopyRules) (es : List Event) (ks : List Copying) (u : String)
    (scratch : Path) : Prop :=
  ∃ k ∈ ks, k.uri = u ∧ .look k.caller u (some k.generation) ∈ es ∧ RootOf u k.root
    ∧ k.result rules = .ok scratch
    ∧ scratch.components = rules.scratchBase.components ++ [.name (scratchName k.draw)]

namespace Voyage

open Flight Text

variable {rules : CopyRules} {es : List Event} {ks : List Copying} {s t : Flight} {e : Event}
  {i generation : Nat} {u v : String} {c : Caller} {x y : Entry} {scratch scratch' : Path}
  {w : Workspace}

theorem filled_of_ready (h : Voyage rules es ks s) (hx : s.registry.get? u = some x)
    (hready : x.state = .ready scratch) : Filled rules es ks u scratch := by
  obtain ⟨i, generation, hsettle⟩ := settled_of_ready h.history hx hready
  obtain ⟨k, hk, huri, hresult⟩ := h.mem_of_settle hsettle
  have hroot := h.rootOf_of_mem hk
  have hbegun := h.begun_of_mem hk
  rw [huri] at hroot hbegun
  refine ⟨k, hk, huri, hbegun, hroot, hresult, ?_⟩
  rw [CopyRules.createCopy_eq_ok hresult]
  apply rules.components_scratchOf

theorem sound (h : Voyage rules es ks s) : s.registry.Sound rules := by
  refine ⟨Flight.ordered h.history, ?_, ?_⟩
  . intro u x hx
    obtain ⟨root, _, hroot⟩ := rootOf_of_get? h.history hx
    rw [hroot, Path.normalize_normalize]
  . intro u x scratch hx hready
    obtain ⟨root, hpath, hroot⟩ := rootOf_of_get? h.history hx
    obtain ⟨k, _, _, _, ⟨root', hpath', hroot'⟩, hresult, _⟩ := h.filled_of_ready hx hready
    rw [hpath, Except.ok.injEq] at hpath'
    refine ⟨k.draw, k.disk, ?_⟩
    rw [hroot, hpath', ← hroot']
    exact hresult

theorem uri_eq_of_sameSteps (h : Voyage rules es ks s)
    (hfresh : (ks.map fun k => scratchName k.draw).Nodup) (hx : s.registry.get? u = some x)
    (hy : s.registry.get? v = some y) (hready : x.state = .ready scratch)
    (hready' : y.state = .ready scratch') (hsame : scratch.sameSteps scratch') : u = v := by
  obtain ⟨k, hk, huri, _, _, _, hscratch⟩ := h.filled_of_ready hx hready
  obtain ⟨k', hk', huri', _, _, _, hscratch'⟩ := h.filled_of_ready hy hready'
  have hname : scratchName k.draw = scratchName k'.draw := by
    rw [Path.sameSteps, decide_eq_true_eq, hscratch, hscratch'] at hsame
    simpa using hsame
  rw [← huri, ← huri', List.inj_on_of_nodup_map hfresh hk hk' hname]

/-- What the workspace is that a caller of `u` comes to an end with. -/
def Serves (rules : CopyRules) (es : List Event) (ks : List Copying) (u : String)
    (w : Workspace) : Prop :=
  w.uri = u ∧ RootOf u w.root ∧ ∃ scratch, w.scratch = some scratch ∧ Filled rules es ks u scratch

theorem serves_snapshot (h : Voyage rules es ks s) (hx : s.registry.get? u = some x)
    (hready : x.state = .ready scratch) : Serves rules es ks u (x.snapshot u) :=
  ⟨rfl, rootOf_of_get? h.history hx, scratch, Entry.snapshot_scratch_iff.mpr hready,
    h.filled_of_ready hx hready⟩

theorem Serves.mono {es' : List Event} {ks' : List Copying} (hes : es ⊆ es') (hks : ks ⊆ ks')
    (h : Serves rules es ks u w) : Serves rules es' ks' u w := by
  obtain ⟨huri, hroot, scratch, hscratch, k, hk, hkuri, hbegun, hrest⟩ := h
  exact ⟨huri, hroot, scratch, hscratch, k, hks hk, hkuri, hes hbegun, hrest⟩

theorem serves_of_step {ks' : List Copying} (h : Voyage rules es ks s) (hs : Flight.Step s e t)
    (h' : Voyage rules (e :: es) ks' t) (hks : ks ⊆ ks')
    (ih : ∀ b w, s.callers[i]? = some b → b.outcome? = some (.ok w) → Serves rules es ks b.uri w)
    (hc : t.callers[i]? = some c) (ho : c.outcome? = some (.ok w)) :
    Serves rules (e :: es) ks' c.uri w := by
  rcases hs.caller_before hc with ⟨hsame, _⟩ | ⟨b, hb, hm⟩ | ⟨uri, _, hstart⟩
  . exact (ih c w hsame ho).mono (List.subset_cons_self _ _) hks
  . rw [hm.uri_eq]
    rcases hm.of_outcome? ho with
      hbo | hrefused | ⟨x, scratch, hx, hready, hok⟩ | ⟨generation, pass, he, hok⟩
    . exact (ih b w hb hbo).mono (List.subset_cons_self _ _) hks
    . simp at hrefused
    . rw [Except.ok.injEq] at hok
      rw [hok]
      exact (h.serves_snapshot hx hready).mono (List.subset_cons_self _ _) hks
    . -- The pass ended with what the entry shows once it is settled.
      obtain ⟨x, scratch, hx, hready, hw⟩ := Registry.commit_eq_ok hok.symm
      rw [hw]
      apply h'.serves_snapshot _ hready
      rw [hs.get?, he, Event.effect, if_pos rfl, hx, Option.map_some]
  . rw [hstart] at ho
    simp [Caller.start, Caller.outcome?] at ho

theorem serves_of_outcome? (h : Voyage rules es ks s) (hc : s.callers[i]? = some c)
    (ho : c.outcome? = some (.ok w)) : Serves rules es ks c.uri w := by
  induction h generalizing c w with
  | start => simp [Flight.start] at hc
  | step h hs he ih =>
    apply h.serves_of_step hs (.step h hs he) (List.Subset.refl _) _ hc ho
    intro b w hb hbo
    exact ih hb hbo
  | copy h hc' huri hp hs ih =>
    apply h.serves_of_step hs (.copy h hc' huri hp hs) (List.subset_cons_self _ _) _ hc ho
    intro b w hb hbo
    exact ih hb hbo

/-- If every pass draws another name, then the scratch folder of a workspace that is ready was filled
by a pass over that workspace, no other workspace has the same, and a caller that comes to an end
with a workspace has the one it asked for, with such a scratch folder. -/
theorem ready_scratch_filled_by_own_pass (h : Voyage rules es ks s)
    (hfresh : (ks.map fun k => scratchName k.draw).Nodup) :
    (∀ (u : String) (x : Entry) (scratch : Path), s.registry.get? u = some x →
        x.state = .ready scratch → Filled rules es ks u scratch)
      ∧ (∀ (u v : String) (x y : Entry) (scratch scratch' : Path), s.registry.get? u = some x →
        s.registry.get? v = some y → x.state = .ready scratch → y.state = .ready scratch' →
        scratch.sameSteps scratch' = true → u = v)
      ∧ ∀ (i : Nat) (c : Caller) (w : Workspace), s.callers[i]? = some c →
        c.phase = .done (.ok w) →
        w.uri = c.uri ∧ RootOf c.uri w.root
          ∧ ∃ scratch, w.scratch = some scratch ∧ Filled rules es ks c.uri scratch := by
  refine ⟨?_, ?_, ?_⟩
  . intro u x scratch hx hready
    exact h.filled_of_ready hx hready
  . intro u v x y scratch scratch' hx hy hready hready' hsame
    exact h.uri_eq_of_sameSteps hfresh hx hy hready hready' hsame
  . intro i c w hc hp
    apply h.serves_of_outcome? hc
    simp [Caller.outcome?, hp]

/-- Two folders with a story in one of them, and where their scratch folders go. -/
def twoFolders : Disk :=
  ⟨[([bytesOf "v"], .folder), ([bytesOf "v", bytesOf "a.ink"], .file (bytesOf "text") false),
    ([bytesOf "w"], .folder)], []⟩

def twoRules : CopyRules := ⟨.ofString "/s", .standard⟩

/-- The copyings of both folders, the second of which was registered anew in between. -/
def twoCopyings : List Copying :=
  [⟨1, "/w", 1, .ofString "/w", 1, twoFolders⟩, ⟨0, "/v", 1, .ofString "/v", 0, twoFolders⟩]

theorem voyage_two :
    ∃ es s, Voyage twoRules es twoCopyings s
      ∧ s.registry.get? "/v" = some ⟨.ofString "/v", .ready (twoRules.scratchOf 0), 1⟩
      ∧ s.registry.get? "/w" = some ⟨.ofString "/w", .ready (twoRules.scratchOf 1), 1⟩
      ∧ s.callers[1]? = some ⟨"/w", false,
        .done (.ok ⟨"/w", .ofString "/w", some (twoRules.scratchOf 1)⟩)⟩ := by
  have hv : (Copying.mk 0 "/v" 1 (.ofString "/v") 0 twoFolders).result twoRules
      = .ok (twoRules.scratchOf 0) := by
    unfold Copying.result
    decide +kernel
  have hw : (Copying.mk 1 "/w" 1 (.ofString "/w") 1 twoFolders).result twoRules
      = .ok (twoRules.scratchOf 1) := by
    unfold Copying.result
    decide +kernel
  have h : Voyage twoRules _ _ _ := .step .start (step_of_act? (a := .register "/v") rfl) rfl
  have h := h.step (step_of_act? (a := .register "/w") rfl) rfl
  have h := h.step (step_of_act? (a := .call "/v") rfl) rfl
  have h := h.step (step_of_act? (a := .advance 0) rfl) rfl
  have h := h.step (step_of_act? (a := .call "/w") rfl) rfl
  have h := h.step (step_of_act? (a := .advance 1) rfl) rfl
  have h := h.step (step_of_act? (a := .forget "/w") rfl) rfl
  have h := h.step (step_of_act? (a := .register "/w") rfl) rfl
  have h := h.step (step_of_act? (a := .call "/w") rfl) rfl
  have h := h.step (step_of_act? (a := .advance 2) rfl) rfl
  have h := h.copy (k := ⟨0, "/v", 1, .ofString "/v", 0, twoFolders⟩) rfl rfl rfl
    (by rw [hv]; exact step_of_act? (a := .settle 0 (.ok (twoRules.scratchOf 0))) rfl)
  have h := h.copy (k := ⟨1, "/w", 1, .ofString "/w", 1, twoFolders⟩) rfl rfl rfl
    (by rw [hw]; exact step_of_act? (a := .settle 1 (.ok (twoRules.scratchOf 1))) rfl)
  have h := h.step (step_of_act? (a := .tell 1) rfl) rfl
  exact ⟨_, _, h, rfl, rfl, rfl⟩

theorem ready_scratch_filled_two :
    (twoCopyings.map fun k => scratchName k.draw).Nodup
      ∧ ∃ es s, Voyage twoRules es twoCopyings s
        ∧ Filled twoRules es twoCopyings "/v" (twoRules.scratchOf 0)
        ∧ RootOf "/w" (.ofString "/w")
        ∧ Filled twoRules es twoCopyings "/w" (twoRules.scratchOf 1) := by
  have hfresh : (twoCopyings.map fun k => scratchName k.draw).Nodup := by decide
  obtain ⟨es, s, h, hv, _, hc⟩ := voyage_two
  obtain ⟨hready, _, hdone⟩ := ready_scratch_filled_by_own_pass h hfresh
  obtain ⟨_, hroot, scratch, hscratch, hfilled⟩ := hdone 1 _ _ hc rfl
  rw [Option.some.injEq] at hscratch
  rw [← hscratch] at hfilled
  exact ⟨hfresh, es, s, h, hready "/v" _ _ hv rfl, hroot, hfilled⟩

end Voyage

end InkServer
