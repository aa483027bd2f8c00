import InkServer.Workspace.Registry

/-!
This module contains the callers that need the copy of a workspace. Any number of them may need the
same copy; one of them makes it while the others wait. Their way is cut into steps, between which
others may go on.
-/

namespace InkServer

inductive Phase where
  /-- It is about to look at the entry. -/
  | looking
  /-- It is about to see whether the scratch folder is still there. -/
  | checking (w : Workspace)
  /-- It found the scratch folder gone and is about to give it up. -/
  | missing (scratch : Path)
  /-- It is about to listen for passes that settle. -/
  | arming
  /-- It listens since this many were settled, and is about to see whether its pass still goes on. -/
  | armed (seen : Nat)
  /-- It saw that its pass goes on, and is about to wait. -/
  | parking (seen : Nat)
  /-- It waits for a pass, and listens since this many were settled. -/
  | parked (seen : Nat)
  /-- It is carrying out a pass. -/
  | copying (root : Path) (generation : Nat)
  /-- It settled its pass and is about to tell those who wait. -/
  | telling (result : Except CopyError Workspace)
  | done (result : Except CopyError Workspace)

/-- Someone who needs the copy of a workspace. -/
structure Caller where
  uri : String
  waited : Bool
  phase : Phase

namespace Caller

def start (uri : String) : Caller :=
  ⟨uri, false, .looking⟩

def isWorking (c : Caller) : Bool :=
  match c.phase with
  | .checking _ => true
  | .copying _ _ => true
  | _ => false

def isParked (c : Caller) : Bool :=
  match c.phase with
  | .parked _ => true
  | _ => false

def result (c : Caller) : Except CopyError Workspace :=
  match c.phase with
  | .done r => r
  | _ => .error (.superseded c.uri)

def look (c : Caller) (r : Registry) : Caller × Registry :=
  match r.nextStep c.uri c.waited with
  | .error e => ({ c with phase := .done (.error e) }, r)
  | .ok (.check w, r) => ({ c with phase := .checking w }, r)
  | .ok (.wait, r) => ({ c with phase := .arming }, r)
  | .ok (.copy root generation, r) => ({ c with phase := .copying root generation }, r)

/-- Go back to the entry after a wait. -/
def lookAgain (c : Caller) : Caller :=
  { c with waited := true, phase := .looking }

def giveUp (c : Caller) (scratch : Path) (r : Registry) : Caller × Registry :=
  ({ c with phase := .looking }, r.markStale c.uri scratch)

/-- Take one step that needs no work on files. `settles` is how many passes were settled so far. -/
def advance (c : Caller) (r : Registry) (settles : Nat) : Caller × Registry :=
  match c.phase with
  | .looking => c.look r
  | .missing scratch => c.giveUp scratch r
  | .arming => ({ c with phase := .armed settles }, r)
  | .armed seen =>
    if r.state? c.uri = some .copying then ({ c with phase := .parking seen }, r)
    else (c.lookAgain, r)
  | .parking seen =>
    if seen < settles then (c.lookAgain, r) else ({ c with phase := .parked seen }, r)
  | .parked seen => if seen < settles then (c.lookAgain, r) else (c, r)
  | _ => (c, r)

/-- Take some steps that need no work on files. -/
def advances (settles : Nat) : Nat → Caller → Registry → Caller × Registry
  | 0, c, r => (c, r)
  | n + 1, c, r =>
    let (c, r) := c.advance r settles
    advances settles n c r

/-- Go on as far as possible without work on files. A caller that is not disturbed looks, listens,
looks whether its pass goes on, and waits. -/
def move (c : Caller) (r : Registry) (settles : Nat) : Caller × Registry :=
  advances settles 4 c r

def moveAll (settles : Nat) : List Caller → Registry → List Caller × Registry
  | [], r => ([], r)
  | c :: cs, r =>
    let (c, r) := c.move r settles
    let (cs, r) := moveAll settles cs r
    (c :: cs, r)

/-- See whether the scratch folder of the workspace is still there. -/
def check (c : Caller) (w : Workspace) (found : Bool) : Caller :=
  match w.scratch with
  | some scratch =>
    if found then { c with phase := .done (.ok w) } else { c with phase := .missing scratch }
  | none => { c with phase := .looking }

def settle (c : Caller) (generation : Nat) (result : Registry.PassResult) (r : Registry) :
    Caller × Registry :=
  let (outcome, r) := r.commit c.uri generation result
  ({ c with phase := .telling outcome }, r)

/-- Come to the end after those who wait were told. -/
def tell (c : Caller) : Caller :=
  match c.phase with
  | .telling result => { c with phase := .done result }
  | _ => c

end Caller

end InkServer
