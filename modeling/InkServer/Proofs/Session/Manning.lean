import InkServer.Proofs.Job.Custody
import InkServer.Proofs.Session.Crew

/-!
This module contains the crew of a session as those who have passes in hand. Every pass that is under
way is in the hands of one of them, so that a job that waits for a pass never waits in vain.
-/

namespace InkServer

def Query.waits : Query → Bool
  | folders | settings _ | register _ | rest | settled _ => true
  | _ => false

/-- The job waits with the passes `F` in hand. -/
structure Blocked.Tends (F : Custody) (w : World) (b : Blocked) : Prop where
  waits : b.query.waits = true
  suits : b.query.Suits F w
  next : ∀ answer u, w.Relies u → (b.next answer u).Tends F u

theorem Blocked.Tends.relies {F : Custody} {w v : World} {b : Blocked} (h : b.Tends F w)
    (hr : w.Relies v) : b.Tends F v :=
  ⟨h.waits, h.suits.relies hr, fun answer u hu => h.next answer u (hr.trans hu)⟩

namespace World

variable {F F' : Custody} {w v : World} {b : Blocked} {bs bs' : List Blocked} {u : String}

/-- Every pass that is under way is in the hands of one of the jobs, or else in `F`. -/
def Manned (F : Custody) (bs : List Blocked) (w : World) : Prop :=
  ∃ crew : List (Custody × Blocked), crew.map Prod.snd = bs
    ∧ (∀ c ∈ crew, c.2.Tends c.1 w)
    ∧ ∀ u g, w.IsCopying u g → F u g ∨ ∃ c ∈ crew, c.1 u g

theorem Manned.pick (h : w.Manned .none (bs ++ b :: bs')) :
    ∃ F, b.Tends F w ∧ w.Manned F (bs ++ bs') := by
  obtain ⟨crew, hcrew, htends, hpasses⟩ := h
  obtain ⟨front, back, hsplit, hfront, hback⟩ := List.map_eq_append_iff.mp hcrew
  obtain ⟨c, rest, hcons, hb, hrest⟩ := List.map_eq_cons_iff.mp hback
  subst hsplit hcons hb
  refine ⟨c.1, htends c (by simp), front ++ rest, by simp [hfront, hrest], ?_, ?_⟩
  . intro d hd
    apply htends
    rcases List.mem_append.mp hd with hd | hd
    . exact List.mem_append_left _ hd
    . exact List.mem_append_right _ (.tail _ hd)
  . intro u g hu
    obtain ⟨d, hd, hg⟩ := (hpasses u g hu).resolve_left id
    rcases List.mem_append.mp hd with hd | hd
    . exact .inr ⟨d, List.mem_append_left _ hd, hg⟩
    . rcases List.mem_cons.mp hd with rfl | hd
      . exact .inl hg
      . exact .inr ⟨d, List.mem_append_right _ hd, hg⟩

/-- A job went on, while the others kept what they have in hand. -/
theorem Manned.hands (h : w.Manned F bs) (hw : w.Hands F F' v) : v.Manned F' bs := by
  obtain ⟨crew, hcrew, htends, hpasses⟩ := h
  refine ⟨crew, hcrew, fun c hc => (htends c hc).relies hw.toRelies, ?_⟩
  intro u g hu
  rcases hw.taken u g hu with hF | ⟨hu, hF⟩
  . exact .inl hF
  . exact .inr ((hpasses u g hu).resolve_left hF)

/-- A job stops and is one of those that wait. -/
theorem Manned.put (h : w.Manned F (bs ++ bs')) (hb : b.Tends F w) :
    w.Manned .none (bs ++ b :: bs') := by
  obtain ⟨crew, hcrew, htends, hpasses⟩ := h
  obtain ⟨front, back, hsplit, hfront, hback⟩ := List.map_eq_append_iff.mp hcrew
  subst hsplit
  refine ⟨front ++ (F, b) :: back, by simp [hfront, hback], ?_, ?_⟩
  . intro c hc
    rcases List.mem_append.mp hc with hc | hc
    . exact htends c (List.mem_append_left _ hc)
    . rcases List.mem_cons.mp hc with rfl | hc
      . exact hb
      . exact htends c (List.mem_append_right _ hc)
  . intro u g hu
    rcases hpasses u g hu with hF | ⟨c, hc, hg⟩
    . exact .inr ⟨(F, b), by simp, hF⟩
    . refine .inr ⟨c, ?_, hg⟩
      rcases List.mem_append.mp hc with hc | hc
      . exact List.mem_append_left _ hc
      . exact List.mem_append_right _ (.tail _ hc)

theorem Abides.relies (h : w.Abides v) : w.Relies v :=
  .of_eq h.registry h.settles

theorem Manned.abides (h : w.Manned F bs) (hw : w.Abides v) : v.Manned F bs :=
  h.hands (.of_eq hw.registry hw.settles fun _ _ h => h)

/-- While a workspace is being copied, some job only lets others go on. -/
theorem Manned.exists_rest (h : w.Manned .none bs) (hu : w.registry.state? u = some .copying) :
    ∃ b ∈ bs, ∃ work, b.query = @Query.rest work := by
  obtain ⟨crew, hcrew, htends, hpasses⟩ := h
  obtain ⟨g, hg⟩ := state?_eq_copying_iff.mp hu
  obtain ⟨c, hc, hF⟩ := (hpasses u g hg).resolve_left id
  refine ⟨c.2, ?_, ?_⟩
  . rw [← hcrew]
    exact List.mem_map_of_mem hc
  . have hsuits := (htends c hc).suits
    have hsome : c.1 ≠ .none := by
      intro hnone
      rw [hnone] at hF
      exact hF
    cases hq : c.2.query with
    | @rest work => exact ⟨work, rfl⟩
    | settled seen =>
      rw [hq] at hsuits
      exact absurd hsuits.1 hsome
    | _ =>
      rw [hq] at hsuits
      exact absurd hsuits hsome

end World

namespace Session

variable {σ : Type} {m : Machine σ} {s s' : Session σ} {F : Custody} {t : Step (Option Json)}
  {b : Blocked} {bs bs' : List Blocked}

theorem abides_pose (m : Machine σ) (s : Session σ) (q : Query) :
    s.world.Abides (pose m s q).session.world := by
  obtain ⟨disk, request, h⟩ := pose_world m s q
  rw [h]
  exact ⟨rfl, rfl⟩

theorem waits_of_pose {q : Query} {request : Nat} (h : pose m s q = .waiting request s') :
    q.waits = true := by
  cases q with
  | folders | settings | register | rest | settled => rfl
  | _ => cases h

theorem manned_advance (h : s.world.Manned F (bs ++ bs')) (ht : t.Tends F s.world) :
    (advance m t s).1.world.Manned .none (bs ++ ((advance m t s).2.toList ++ bs')) := by
  induction t generalizing s F with
  | done w frame => exact (h.hands ht).abides ⟨rfl, rfl⟩
  | ask w q k ih =>
    obtain ⟨F', hw, hsuits, hrest⟩ := ht
    have hmanned : w.Manned F' (bs ++ bs') := h.hands hw
    have habides := abides_pose m { s with world := w } q
    rw [advance]
    split
    . next a s' heq =>
      rw [heq] at habides
      exact ih a s'.world (hmanned.abides habides) (hrest a s'.world habides.relies)
    . next request s' heq =>
      rw [heq] at habides
      refine (hmanned.abides habides).put ⟨waits_of_pose heq, hsuits.relies habides.relies, ?_⟩
      intro answer u hu
      exact hrest answer u (habides.relies.trans hu)

theorem manned_resume (m : Machine σ) (h : s.world.Manned .none (bs ++ b :: bs')) :
    (resume m b s).1.world.Manned .none (bs ++ ((resume m b s).2.toList ++ bs')) := by
  rw [resume]
  split
  . next a s' heq =>
    have hworld := world_answer? heq
    obtain ⟨F, hb, hothers⟩ := h.pick
    apply manned_advance (F := F)
    . rw [hworld]
      exact hothers
    . rw [hworld]
      exact hb.next a s.world (.refl _)
  . exact h

/-- A job at its beginning has no pass in hand. -/
theorem tends_bind {α : Type} {job : Job α} {gone : List String} (h : job.Made gone)
    (frame : α → Option Json) (w : World) :
    ((job w).bind fun a w => .done w (frame a)).Tends .none w :=
  (h.tends w).bind fun _ _ => .of_eq rfl rfl fun _ _ h => h

theorem kept_manned (m : Machine σ) : Kept m fun s bs => s.world.Manned .none bs where
  congr h habides _ _ := h.abides habides
  resolve h _ _ := h
  tick h := h
  begins {s bs} _ _ _ h hjob frame := @manned_advance σ m s _ _ [] bs h (tends_bind hjob frame s.world)
  awaits {s bs} _ h hjob := by
    apply @World.Manned.put _ s.world _ bs []
    . rwa [List.append_nil]
    . exact ⟨rfl, trivial, fun _ u _ => tends_bind hjob _ u⟩
  resumes h := manned_resume m h

/-- Every pass that is under way is in the hands of a job. -/
theorem Dialogue.manned {frames : List Json} {disk : Disk} {rules : CopyRules} {defaults : Settings}
    {machine : σ} (h : Dialogue m (.start (.start disk rules defaults) machine) frames s) :
    s.world.Manned .none s.crew := by
  apply h.kept (kept_manned m)
  refine ⟨[], rfl, by simp, ?_⟩
  rintro u g ⟨e, he, _⟩
  cases he

end Session

end InkServer
