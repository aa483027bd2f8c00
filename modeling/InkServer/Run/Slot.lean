/-!
This module contains the slot for the current run: the one that was started last, as long as it is
neither stopped nor at its end. Only this run takes choices and can be stopped.
-/

namespace InkServer

structure ActiveRun where
  generation : Nat
  /-- It takes choices. -/
  interactive : Bool
deriving DecidableEq

/-- The slot, and how many runs were started so far. -/
structure Slot where
  /-- The number of the last run, unbounded as `Entry.generation` is. -/
  last : Nat
  active : Option ActiveRun
deriving DecidableEq

namespace Slot

def empty : Slot := ⟨0, none⟩

def start (s : Slot) (interactive : Bool) : Nat × Slot :=
  (s.last + 1, ⟨s.last + 1, some ⟨s.last + 1, interactive⟩⟩)

def stop (s : Slot) : Option Nat × Slot :=
  (s.active.map ActiveRun.generation, { s with active := none })

def holds (s : Slot) (generation : Nat) : Bool :=
  match s.active with
  | some run => run.generation == generation
  | none => false

/-- A run came to its end. Another run in the slot stays there. -/
def release (s : Slot) (generation : Nat) : Slot :=
  if s.holds generation then { s with active := none } else s

def addressee? (s : Slot) : Option Nat :=
  match s.active with
  | some run => if run.interactive then some run.generation else none
  | none => none

def current? (s : Slot) : Option Nat :=
  s.active.map ActiveRun.generation

end Slot

end InkServer
