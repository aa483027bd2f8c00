import InkServer.Json.Basic

/-!
This module contains the requests to the editor that wait for their replies.
-/

namespace InkServer

/-- The requests to the editor. Their ids ascend, so that none is used twice. -/
structure Pending where
  /-- The id of the next request. Ids are unbounded; those of 64 bits would start over in the end. -/
  next : Nat
  /-- The requests that wait for a reply, each with the time until which it does. -/
  waiting : List (Nat × Nat)
  /-- The first replies to requests, until they are taken in. -/
  replies : List (Nat × Json)

namespace Pending

def empty : Pending := ⟨1, [], []⟩

def draw (p : Pending) : Nat × Pending :=
  (p.next, { p with next := p.next + 1 })

def enlist (p : Pending) (id deadline : Nat) : Pending :=
  { p with waiting := p.waiting ++ [(id, deadline)] }

def register (p : Pending) (deadline : Nat) : Nat × Pending :=
  let (id, p) := p.draw
  (id, p.enlist id deadline)

def isWaiting (p : Pending) (id : Nat) : Bool :=
  p.waiting.any fun (i, _) => i == id

def abandon (p : Pending) (id : Nat) : Pending :=
  { p with waiting := p.waiting.filter fun (i, _) => i != id }

/-- A reply comes in. It counts only if its request waits for it. -/
def resolve (p : Pending) (id : Nat) (body : Json) : Pending :=
  if p.isWaiting id then
    let p := p.abandon id
    { p with replies := p.replies ++ [(id, body)] }
  else
    p

def take (p : Pending) (id : Nat) : Pending :=
  { p with replies := p.replies.filter fun (i, _) => i != id }

inductive Completion where
  | reply (body : Json)
  | expired

/-- The end of a request, if it has come to one by the time `now`. A reply that is there counts, even
if the time is over. -/
def complete? (p : Pending) (id now : Nat) : Option (Completion × Pending) :=
  match p.replies.lookup id with
  | some body => some (.reply body, p.take id)
  | none =>
    match p.waiting.lookup id with
    | some deadline => if deadline ≤ now then some (.expired, p.abandon id) else none
    | none => some (.expired, p)

def Completion.result? : Completion → Option Json
  | reply body =>
    match body.get? "error" with
    | some _ => none
    | none => body.get? "result"
  | expired => none

end Pending

end InkServer
