import InkServer.Service.World

/-!
This module contains jobs: pieces of work of the server that stop where an answer from outside, or
the progress of another job, is needed. Between two stops the state may be changed by others, so a
job takes the state up anew when it goes on.
-/

namespace InkServer

inductive FileWork where
  /-- Copies are made, looked for, brought up to date or taken away. -/
  | upkeep
  /-- The text of a document is written to the copy of its workspace. -/
  | edit (ws : Workspace) (document : Path) (text : String)

inductive Query where
  /-- The folders that the editor has open. -/
  | folders
  /-- The settings of the editor for a scope. -/
  | settings (scope : String)
  /-- A registration of notices that the editor is to send. -/
  | register (params : Json)
  /-- Whether the compiler is there. -/
  | checkTool (settings : Settings)
  /-- A new run of the compiler. -/
  | start (mode : Mode) (request : RunRequest)
  /-- A choice for the story that is being played. -/
  | submit (index : Nat)
  /-- The end of the current run. -/
  | stop
  /-- Work on files: others may go on meanwhile. -/
  | rest {work : FileWork}
  /-- The settling of a pass, when this many were settled before. -/
  | settled (seen : Nat)

abbrev Query.Answer : Query → Type
  | folders => Option (List Folder)
  | settings _ => Option SettingsTier
  | register _ => Unit
  | checkTool _ => Bool
  | start _ _ => Except StartError Nat
  | submit _ => Bool
  | stop => Bool
  | rest => Unit
  | settled _ => Unit

/-- A job that has come to its end or to a stop. -/
inductive Step (α : Type) where
  | done (w : World) (a : α)
  | ask (w : World) (q : Query) (k : q.Answer → World → Step α)

def Job (α : Type) : Type :=
  World → Step α

namespace Step

variable {α β : Type}

def bind (f : α → World → Step β) : Step α → Step β
  | done w a => f a w
  | ask w q k => ask w q fun r w => (k r w).bind f

@[simp]
theorem bind_done (f : α → World → Step β) (w : World) (a : α) : (done w a).bind f = f a w := rfl

@[simp]
theorem bind_ask (f : α → World → Step β) (w : World) (q : Query)
    (k : q.Answer → World → Step α) :
    (ask w q k).bind f = ask w q fun r w => (k r w).bind f := rfl

/-- A way to answer queries, which may change the state of the server and has one of its own. -/
abbrev Handler (σ : Type) := (q : Query) → World → σ → q.Answer × World × σ

/-- Carry a job to its end, with `handle` as the answer to every query. -/
def settle {σ : Type} (handle : Handler σ) : Step α → σ → α × World × σ
  | done w a, s => (a, w, s)
  | ask w q k, s =>
    let (r, w, s) := handle q w s
    (k r w).settle handle s

@[simp]
theorem settle_done {σ : Type} (handle : Handler σ) (w : World) (a : α) (s : σ) :
    (done w a).settle handle s = (a, w, s) := rfl

@[simp]
theorem settle_ask {σ : Type} (handle : Handler σ) (w : World) (q : Query)
    (k : q.Answer → World → Step α) (s : σ) :
    (ask w q k).settle handle s =
      (k (handle q w s).1 (handle q w s).2.1).settle handle (handle q w s).2.2 := rfl

theorem settle_bind {σ : Type} (handle : Handler σ) (f : α → World → Step β) (t : Step α) (s : σ) :
    (t.bind f).settle handle s =
      (f (t.settle handle s).1 (t.settle handle s).2.1).settle handle (t.settle handle s).2.2 := by
  induction t generalizing s with
  | done w a => rfl
  | ask w q k ih => simp [ih]

end Step

namespace Job

variable {α β : Type}

protected def pure (a : α) : Job α :=
  fun w => .done w a

protected def bind (t : Job α) (f : α → Job β) : Job β :=
  fun w => (t w).bind f

instance : Monad Job where
  pure := Job.pure
  bind := Job.bind

def get : Job World :=
  fun w => .done w w

def modify (f : World → World) : Job Unit :=
  fun w => .done (f w) ()

/-- Change the state and keep what came of it. -/
def update (f : World → World × α) : Job α :=
  fun w => .done (f w).1 (f w).2

def query (q : Query) : Job q.Answer :=
  fun w => .ask w q fun r w => .done w r

def emit (e : Effect) : Job Unit :=
  modify (·.emit e)

def askFolders : Job (Option (List Folder)) := do
  emit .askFolders
  query .folders

def askSettings (scope : String) : Job (Option SettingsTier) := do
  emit (.askSettings scope)
  query (.settings scope)

/-- Ask the editor to send notices. Its answer does not matter. -/
def register (params : Json) : Job Unit :=
  query (.register params)

def checkTool (settings : Settings) : Job Bool := do
  emit (.checkTool settings)
  query (.checkTool settings)

def startRun (mode : Mode) (request : RunRequest) : Job (Except StartError Nat) := do
  emit (.start mode request)
  query (.start mode request)

def submit (index : Nat) : Job Unit := do
  emit (.submit index)
  let _ ← query (.submit index)

def stop : Job Unit := do
  emit .stop
  let _ ← query .stop

/-- Let others go on while files are worked on. -/
def rest (work : FileWork) : Job Unit :=
  query (@Query.rest work)

/-- Carry a job to its end, with `handle` as the answer to every query. -/
def run {σ : Type} (handle : Step.Handler σ) (t : Job α) (w : World) (s : σ) : α × World × σ :=
  (t w).settle handle s

end Job

end InkServer
