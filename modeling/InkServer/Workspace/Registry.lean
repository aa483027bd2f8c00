import InkServer.Workspace.Entry

/-!
This module contains the registry of workspaces and the steps that change it: registering and
forgetting, beginning a pass, and settling it.
-/

namespace InkServer

/-- The workspaces in ascending order of their URIs. -/
structure Registry where
  entries : List (String × Entry)
deriving DecidableEq

namespace Registry

def empty : Registry := ⟨[]⟩

def get? (r : Registry) (uri : String) : Option Entry :=
  r.entries.lookup uri

def state? (r : Registry) (uri : String) : Option CopyState :=
  (r.get? uri).map Entry.state

def insertEntry (uri : String) (e : Entry) : List (String × Entry) → List (String × Entry)
  | [] => [(uri, e)]
  | (u, f) :: rest =>
    if uri = u then (uri, e) :: rest
    else if uri < u then (uri, e) :: (u, f) :: rest
    else (u, f) :: insertEntry uri e rest

def set (r : Registry) (uri : String) (e : Entry) : Registry :=
  ⟨insertEntry uri e r.entries⟩

def workspaces (r : Registry) : List Workspace :=
  r.entries.map fun (uri, e) => e.snapshot uri

def workspace? (r : Registry) (uri : String) : Option Workspace :=
  (r.get? uri).map (Entry.snapshot uri)

def findOwner? (r : Registry) (p : Path) : Option Workspace :=
  InkServer.findOwner? Workspace.root r.workspaces p

/-- Register a workspace. One that is registered already stays as it is. -/
def register (r : Registry) (uri : String) : Except Uri.Invalid (Workspace × Registry) :=
  match Uri.toPath uri with
  | .error e => .error e
  | .ok root =>
    match r.get? uri with
    | some e => .ok (e.snapshot uri, r)
    | none =>
      let e := Entry.fresh root
      .ok (e.snapshot uri, r.set uri e)

def registerAll (r : Registry) (uris : List String) : Registry :=
  uris.foldl (fun r uri =>
    match r.register uri with
    | .ok (_, r) => r
    | .error _ => r) r

def forget (r : Registry) (uri : String) : Registry :=
  ⟨r.entries.filter fun (u, _) => u ≠ uri⟩

/-- Give up the copy of a workspace, if it still is the given one. -/
def markStale (r : Registry) (uri : String) (scratch : Path) : Registry :=
  match r.get? uri with
  | some e => if e.state = .ready scratch then r.set uri { e with state := .absent } else r
  | none => r

/-- What a caller that needs the copy of a workspace does next. -/
inductive Next where
  /-- See whether the scratch folder is still there. -/
  | check (w : Workspace)
  /-- Wait for the pass that is under way. -/
  | wait
  /-- Carry out a pass. -/
  | copy (root : Path) (generation : Nat)
deriving DecidableEq

/-- Decide what a caller does next. `waited` says that it waited for another pass before. -/
def nextStep (r : Registry) (uri : String) (waited : Bool) : Except CopyError (Next × Registry) :=
  match r.get? uri with
  | none => .error (.notRegistered uri)
  | some e =>
    match e.state, waited with
    | .ready _, _ => .ok (.check (e.snapshot uri), r)
    | .copying, false => .ok (.wait, r)
    | _, _ =>
      .ok (.copy e.root (e.generation + 1),
        r.set uri { e with state := .copying, generation := e.generation + 1 })

/-- What a pass found out: the scratch folder that it filled, or why it failed. -/
abbrev PassResult := Except CopyError Path

/-- Settle a pass. Only the last pass of a workspace changes its entry; an earlier one takes over what
the entry holds. -/
def commit (r : Registry) (uri : String) (generation : Nat) (result : PassResult) :
    Except CopyError Workspace × Registry :=
  match r.get? uri with
  | none => (.error (.superseded uri), r)
  | some e =>
    if e.generation = generation then
      match result with
      | .ok scratch =>
        let e := { e with state := .ready scratch }
        (.ok (e.snapshot uri), r.set uri e)
      | .error cause => (.error cause, r.set uri { e with state := .failed cause.message })
    else
      match e.state with
      | .ready _ => (.ok (e.snapshot uri), r)
      | _ => (.error (.superseded uri), r)

end Registry

end InkServer
