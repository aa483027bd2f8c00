import InkServer.Proofs.Flight.Basic

/-!
This module contains the steps of a flight as a function, so that histories can be computed.
-/

namespace InkServer

/-- Who takes the next step, and what it finds out when it works on files. -/
inductive Action where
  | register (uri : String)
  | forget (uri : String)
  | announce (uri : String)
  | giveUp (uri : String) (scratch : Path)
  | call (uri : String)
  | advance (caller : Nat)
  | check (caller : Nat) (found : Bool)
  | settle (caller : Nat) (result : Registry.PassResult)
  | tell (caller : Nat)

namespace Flight

def act? (s : Flight) : Action → Option (Event × Flight)
  | .register uri =>
    match Uri.toPath uri, s.registry.register uri with
    | .ok root, .ok (_, registry) => some (.register uri root, { s with registry })
    | _, _ => none
  | .forget uri =>
    if (s.registry.get? uri).isSome then
      some (.forget uri,
        { s with registry := s.registry.forget uri, leaving := uri :: s.leaving })
    else
      none
  | .announce uri =>
    if uri ∈ s.leaving then
      some (.announce uri, { s with leaving := s.leaving.erase uri, settles := s.settles + 1 })
    else
      none
  | .giveUp uri scratch =>
    some (.giveUp none uri scratch, { s with registry := s.registry.markStale uri scratch })
  | .call uri => some (.call uri, { s with callers := s.callers ++ [.start uri] })
  | .advance i =>
    match s.callers[i]? with
    | some c =>
      some (c.event i (c.advance s.registry s.settles).1,
        s.put i (c.advance s.registry s.settles))
    | none => none
  | .check i found =>
    match s.callers[i]? with
    | some c =>
      match c.phase with
      | .checking w => some (.quiet i, s.put i (c.check w found, s.registry))
      | _ => none
    | none => none
  | .settle i result =>
    match s.callers[i]? with
    | some c =>
      match c.phase with
      | .copying _ generation =>
        some (.settle i c.uri generation result,
          s.put i (c.settle generation result s.registry))
      | _ => none
    | none => none
  | .tell i =>
    match s.callers[i]? with
    | some c =>
      match c.phase with
      | .telling _ =>
        some (.tell i c.uri, { s.put i (c.tell, s.registry) with settles := s.settles + 1 })
      | _ => none
    | none => none

theorem step_of_act? {s t : Flight} {a : Action} {e : Event} (h : s.act? a = some (e, t)) :
    Step s e t := by
  cases a with
  | register uri =>
    simp only [act?] at h
    split at h
    . next hroot hr =>
      cases h
      exact .register hroot hr
    . cases h
  | forget uri =>
    simp only [act?] at h
    split at h
    . next hx =>
      cases h
      exact .forget hx
    . cases h
  | announce uri =>
    simp only [act?] at h
    split at h
    . next hu =>
      cases h
      exact .announce hu
    . cases h
  | giveUp uri scratch =>
    cases h
    exact .giveUp uri scratch
  | call uri =>
    cases h
    exact .call uri
  | advance i =>
    simp only [act?] at h
    split at h
    . next hc =>
      cases h
      exact .advance hc
    . cases h
  | check i found =>
    simp only [act?] at h
    split at h
    . next hc =>
      split at h
      . next hp =>
        cases h
        exact .check hc hp found
      . cases h
    . cases h
  | settle i result =>
    simp only [act?] at h
    split at h
    . next hc =>
      split at h
      . next hp =>
        cases h
        exact .settle hc hp result
      . cases h
    . cases h
  | tell i =>
    simp only [act?] at h
    split at h
    . next hc =>
      split at h
      . next hp =>
        cases h
        exact .tell hc hp
      . cases h
    . cases h

/-- Take steps one after the other, and record what happens, the last event first. -/
def acts? : List Action → List Event → Flight → Option (List Event × Flight)
  | [], es, s => some (es, s)
  | a :: as, es, s =>
    match s.act? a with
    | some (e, t) => acts? as (e :: es) t
    | none => none

theorem history_of_acts? (as : List Action) {es es' : List Event} {s t : Flight}
    (hs : History es s) (h : acts? as es s = some (es', t)) : History es' t := by
  induction as generalizing es s with
  | nil =>
    cases h
    exact hs
  | cons a as ih =>
    unfold acts? at h
    split at h
    . next ha => exact ih (.step hs (step_of_act? ha)) h
    . cases h

end Flight

end InkServer
