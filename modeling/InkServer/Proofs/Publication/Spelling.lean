import InkServer.Proofs.Publication.History
import InkServer.Proofs.Uri.RoundTrip

/-!
This module contains what URIs stand for. Open documents and workspaces are kept under the normal
paths of their URIs, whatever happens in the service, and a file is shown under one URI.
-/

namespace InkServer

/-- The URI stands for the file with the given normal path. -/
def Uri.Denotes (uri : String) (p : Path) : Prop :=
  ∃ q, toPath uri = .ok q ∧ q.normalize = p

theorem Uri.Denotes.unique {uri : String} {p q : Path} (h : Denotes uri p) (h' : Denotes uri q) :
    p = q := by
  obtain ⟨r, hr, hp⟩ := h
  obtain ⟨r', hr', hq⟩ := h'
  rw [hr, Except.ok.injEq] at hr'
  rw [← hp, ← hq, hr']

theorem Uri.Denotes.normal {uri : String} {p : Path} (h : Denotes uri p) : p.normalize = p := by
  obtain ⟨q, _, hq⟩ := h
  rw [← hq, Path.normalize_normalize]

section

variable {α β : Type} [DecidableEq α] {k key : α} {v value : β} {entries : List (α × β)}

theorem mem_setKey (h : (k, v) ∈ setKey key value entries) :
    k = key ∧ v = value ∨ (k, v) ∈ entries := by
  fun_induction setKey key value entries with
  | case1 =>
    rw [List.mem_singleton, Prod.mk.injEq] at h
    exact .inl h
  | case2 w rest =>
    rcases List.mem_cons.mp h with h | h
    . exact .inl (Prod.mk.inj h)
    . exact .inr (.tail _ h)
  | case3 k' w rest _ ih =>
    rcases List.mem_cons.mp h with h | h
    . rw [h]
      exact .inr (.head _)
    . exact (ih h).imp_right (.tail _)

theorem nodup_setKey (h : (entries.map Prod.fst).Nodup) :
    ((setKey key value entries).map Prod.fst).Nodup := by
  fun_induction setKey key value entries with
  | case1 => simp
  | case2 w rest => simpa using h
  | case3 k' w rest hne ih =>
    rw [List.map_cons, List.nodup_cons] at h ⊢
    refine ⟨?_, ih h.2⟩
    intro hmem
    obtain ⟨⟨_, x⟩, hx, heq⟩ := List.mem_map.mp hmem
    dsimp only at heq
    subst heq
    rcases mem_setKey hx with ⟨hkey, _⟩ | hx
    . exact hne hkey
    . exact h.1 (List.mem_map.mpr ⟨_, hx, rfl⟩)

theorem lookup_of_nodup [BEq α] [LawfulBEq α] (h : (entries.map Prod.fst).Nodup)
    (hmem : (k, v) ∈ entries) : entries.lookup k = some v := by
  induction entries with
  | nil => cases hmem
  | cons entry rest ih =>
    rcases entry with ⟨key, value⟩
    rw [List.map_cons, List.nodup_cons] at h
    rw [lookup_cons_eq_ite]
    cases hmem with
    | head => rw [if_pos rfl]
    | tail _ hmem =>
      rw [if_neg, ih h.2 hmem]
      rintro rfl
      exact h.1 (List.mem_map.mpr ⟨_, hmem, rfl⟩)

theorem nodup_eraseKey (h : (entries.map Prod.fst).Nodup) :
    ((eraseKey key entries).map Prod.fst).Nodup :=
  h.sublist (List.filter_sublist.map _)

end

/-- The open documents: at most one for each path, and each under a URI that stands for its path. -/
structure Spelled (documents : List (Path × String)) : Prop where
  nodup : (documents.map Prod.fst).Nodup
  denotes : ∀ {p uri}, (p, uri) ∈ documents → Uri.Denotes uri p

namespace Spelled

variable {documents : List (Path × String)} {path : Path} {uri : String}

theorem setKey (h : Spelled documents) (hpath : Uri.toPath uri = .ok path) :
    Spelled (setKey path.normalize uri documents) where
  nodup := nodup_setKey h.nodup
  denotes := by
    intro p u hmem
    rcases mem_setKey hmem with ⟨rfl, rfl⟩ | hmem
    . exact ⟨path, hpath, rfl⟩
    . exact h.denotes hmem

theorem eraseKey (h : Spelled documents) (p : Path) : Spelled (eraseKey p documents) where
  nodup := nodup_eraseKey h.nodup
  denotes hmem := h.denotes (List.mem_filter.mp hmem).1

theorem documentsInside (h : Spelled documents) (root : Path) :
    Spelled (documentsInside documents root) where
  nodup := h.nodup.sublist (List.filter_sublist.map _)
  denotes hmem := h.denotes (List.mem_filter.mp hmem).1

end Spelled

namespace Registry

variable {r r' r'' : Registry} {uri : String}

/-- Every workspace has the root that its URI stands for. -/
def Rooted (r : Registry) : Prop :=
  ∀ uri e, r.get? uri = some e → Uri.Denotes uri e.root

/-- Every workspace was there before with the same root. -/
def Stems (r r' : Registry) : Prop :=
  ∀ uri e', r'.get? uri = some e' → ∃ e, r.get? uri = some e ∧ e.root = e'.root

theorem Rooted.stems (h : r.Rooted) (hs : r.Stems r') : r'.Rooted := by
  intro uri e' he'
  obtain ⟨e, he, hroot⟩ := hs uri e' he'
  rw [← hroot]
  exact h uri e he

theorem Stems.refl (r : Registry) : r.Stems r :=
  fun _ e he => ⟨e, he, rfl⟩

theorem Stems.trans (h : r.Stems r') (h' : r'.Stems r'') : r.Stems r'' := by
  intro uri e'' he''
  obtain ⟨e', he', hroot'⟩ := h' uri e'' he''
  obtain ⟨e, he, hroot⟩ := h uri e' he'
  exact ⟨e, he, hroot.trans hroot'⟩

theorem Stems.of_map {f : Entry → Entry} (hf : ∀ e, (f e).root = e.root)
    (h : ∀ u, r'.get? u = if u = uri then (r.get? u).map f else r.get? u) : r.Stems r' := by
  intro u e' he'
  rw [h] at he'
  split at he'
  . obtain ⟨e, he, heq⟩ := Option.map_eq_some_iff.mp he'
    rw [← heq]
    exact ⟨e, he, (hf e).symm⟩
  . exact ⟨e', he', rfl⟩

theorem stems_markStale (r : Registry) (uri : String) (scratch : Path) :
    r.Stems (r.markStale uri scratch) := by
  refine .of_map ?_ fun u => r.get?_markStale uri u scratch
  intro e
  unfold Entry.giveUp
  split <;> rfl

theorem stems_commit (r : Registry) (uri : String) (generation : Nat) (result : PassResult) :
    r.Stems (r.commit uri generation result).2 := by
  refine .of_map ?_ fun u => r.get?_commit uri u generation result
  intro e
  unfold Entry.settlePass
  split <;> rfl

theorem stems_forget (r : Registry) (uri : String) : r.Stems (r.forget uri) := by
  intro u e he
  rw [get?_forget] at he
  split at he
  . cases he
  . exact ⟨e, he, rfl⟩

theorem Rooted.register {ws : Workspace} (h : r.Rooted) (hr : r.register uri = .ok (ws, r')) :
    r'.Rooted := by
  obtain ⟨root, hroot⟩ := toPath_of_register hr
  intro u e he
  rw [get?_register hroot hr] at he
  split at he
  . next hu =>
    rw [Option.some.injEq] at he
    cases hx : r.get? u with
    | some x =>
      rw [hx, Option.getD_some] at he
      rw [← he]
      exact h u x hx
    | none =>
      rw [hx, Option.getD_none] at he
      rw [← he, hu]
      exact ⟨root, hroot, rfl⟩
  . exact h u e he

theorem Rooted.denotes {ws : Workspace} (h : r.Rooted) (hws : r.workspace? uri = some ws) :
    Uri.Denotes uri ws.root := by
  obtain ⟨e, he, heq⟩ := Option.map_eq_some_iff.mp hws
  rw [← heq]
  exact h uri e he

end Registry

namespace Caller

theorem stems_advance (c : Caller) (r : Registry) (settles : Nat) :
    r.Stems (c.advance r settles).2 := by
  unfold advance
  split
  . -- Only a look at the entry can begin a pass.
    have hd := r.nextStep_decides c.uri c.waited
    unfold look
    generalize r.nextStep c.uri c.waited = next at hd
    cases hd with
    | absent => exact .refl r
    | check => exact .refl r
    | wait => exact .refl r
    | @copy e he =>
      refine @Registry.Stems.of_map _ _ c.uri Entry.beginPass (fun _ => rfl) fun u => ?_
      rw [Registry.get?_set]
      split
      . next hu => rw [hu, he, Option.map_some]
      . rfl
  . exact r.stems_markStale _ _
  . exact .refl r
  . split <;> exact .refl r
  . split <;> exact .refl r
  . split <;> exact .refl r
  . exact .refl r

theorem stems_advances (settles n : Nat) (c : Caller) (r : Registry) :
    r.Stems (c.advances settles n r).2 := by
  induction n generalizing c r with
  | zero => exact .refl r
  | succ n ih => exact (c.stems_advance r settles).trans (ih _ _)

theorem stems_moveAll (settles : Nat) (cs : List Caller) (r : Registry) :
    r.Stems (moveAll settles cs r).2 := by
  induction cs generalizing r with
  | nil => exact .refl r
  | cons c cs ih => exact (stems_advances settles 4 c r).trans (ih _)

end Caller

namespace World

variable {gone : List String} {w v u : World} {o : Occurrence}

/-- Open documents and workspaces are kept under the paths that their URIs stand for. -/
structure Faithful (w : World) : Prop where
  documents : Spelled w.documents
  registry : w.registry.Rooted

theorem Faithful.of_stems (h : w.Faithful) (hdocuments : v.documents = w.documents)
    (hregistry : w.registry.Stems v.registry) : v.Faithful :=
  ⟨by rw [hdocuments]; exact h.documents, h.registry.stems hregistry⟩

theorem Alters.faithful (h : w.Alters gone v) (hw : w.Faithful) : v.Faithful := by
  induction h with
  | refl w => exact hw
  | trans _ _ ih ih' => exact ih' (ih hw)
  | emit w he => exact ⟨hw.documents, hw.registry⟩
  | keep w disk initial deliveries => exact ⟨hw.documents, hw.registry⟩
  | openDocument w hpath => exact ⟨hw.documents.setKey hpath, hw.registry⟩
  | closeDocument w path => exact ⟨hw.documents.eraseKey path, hw.registry⟩
  | register w hr => exact ⟨hw.documents, hw.registry.register hr⟩
  | markStale w uri scratch => exact hw.of_stems rfl (w.registry.stems_markStale uri scratch)
  | without w hgone => exact hw.of_stems rfl (w.registry.stems_forget _)

theorem Faithful.work (h : w.Faithful) (c : Caller) : (w.work c).1.Faithful := by
  unfold World.work
  split
  . dsimp only
    split
    . exact h.of_stems rfl (w.registry.stems_markStale _ _)
    . exact h
  . exact h.of_stems rfl (w.registry.stems_commit _ _ _)
  . exact h

end World

theorem Job.Made.faithful {α : Type} {gone : List String} {job : Job α} (h : job.Made gone)
    (w : World) : (job w).Spans (fun w v => w.Faithful → v.Faithful) w :=
  h.spans (fun _ h => h) (fun h h' hw => h' (h hw)) World.Alters.faithful
    (fun _ _ hw => hw.of_stems rfl (Caller.stems_moveAll _ _ _)) (fun _ c hw => hw.work c) w

theorem Errand.Goes.faithful {e : Errand} {w : World} {t : Step Unit} (h : e.Goes w t) :
    t.Spans (fun w v => w.Faithful → v.Faithful) w := by
  induction h with
  | begin w => exact e.made_job.faithful w
  | resume _ answer u ih => exact ih.2 answer u

namespace World

variable {w u : World} {o : Occurrence}

theorem closeRun_keeps (w : World) (generation : Nat) :
    (w.closeRun generation).documents = w.documents
      ∧ (w.closeRun generation).registry = w.registry := by
  have hconclude : ∀ (v : World) (d : Delivery), (v.conclude d).1.documents = v.documents
      ∧ (v.conclude d).1.registry = v.registry := by
    intro v d
    unfold conclude
    split
    . exact ⟨rfl, rfl⟩
    . exact ⟨rfl, rfl⟩
  have hend : (w.endRun generation).1.documents = w.documents
      ∧ (w.endRun generation).1.registry = w.registry := by
    unfold endRun
    split
    . exact ⟨rfl, rfl⟩
    . next d _ => exact hconclude { w with deliveries := eraseKey generation w.deliveries } d
  exact hend

theorem Takes.faithful (h : w.Takes o u) (hw : w.Faithful) : u.Faithful := by
  cases h with
  | work h => exact h.faithful.world hw
  | receive generation event =>
    refine hw.of_stems ?_ ?_
    . unfold World.receive
      split <;> rfl
    . unfold World.receive
      split <;> exact .refl _
  | close generation =>
    obtain ⟨hdocuments, hregistry⟩ := w.closeRun_keeps generation
    refine hw.of_stems hdocuments ?_
    rw [hregistry]
    exact .refl _
  | outside disk initial hes => exact ⟨hw.documents, hw.registry⟩

end World

theorem Chronicle.faithful {w₀ w : World} {ts : List Turn} (h : Chronicle w₀ ts w)
    (h₀ : w₀.Faithful) : w.Faithful := by
  induction h with
  | nil => exact h₀
  | turn _ ht ih => exact ht.faithful ih

/-- So every history of a server that was just started leads through faithful states. -/
theorem World.faithful_start (disk : Disk) (rules : CopyRules) (defaults : Settings) :
    (World.start disk rules defaults).Faithful where
  documents := ⟨.nil, fun h => by cases h⟩
  registry := by
    intro _ _ he
    cases he

end InkServer
