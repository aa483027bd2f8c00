import InkServer.Path.Normal
import InkServer.Process.Image
import InkServer.Shell.Expansion
import InkServer.Shell.Program
import InkServer.Shell.Reader

/-!
This module contains the running of shell scripts.
-/

namespace InkServer.Shell

open Text

/-- How a script goes on after a command. -/
inductive Flow where
  | next
  | leave
  | back
  | breaks (loops : Nat)
  | continues (loops : Nat)
  | killed
deriving DecidableEq

abbrev Runner := Command → State → Act (State × Flow)

/-- Go on after a command, unless the script goes elsewhere. -/
def andThen (t : Act (State × Flow)) (f : State → Act (State × Flow)) : Act (State × Flow) := do
  let (s, flow) ← t
  match flow with
  | .next => f s
  | flow => pure (s, flow)

def proceed (s : State) (status : Nat) : Act (State × Flow) :=
  pure ({ s with status }, .next)

/-- Go on, unless a word could not be expanded. -/
def unlessFailed (s : State) (t : Act (State × Flow)) : Act (State × Flow) :=
  if s.failed then pure ({ s with failed := false, status := 2 }, .leave) else t

def runAll (run : Runner) : List Command → State → Act (State × Flow)
  | [], s => pure (s, .next)
  | c :: cs, s => andThen (run c s) (runAll run cs)

/-- Run a script. Its faults are reported after a text. -/
def runReporting (before : String) (run : Runner) (source : Raw) (s : State) : Act (State × Flow) :=
  let script := Script.ofSource source
  andThen (runAll run script.commands s) fun s =>
    match script.fault with
    | none => pure (s, .next)
    | some (line, message) => do
      let s ← { s with line }.report (rawOfString (before ++ "Syntax error: " ++ message))
      pure ({ s with status := 2 }, .leave)

def runSource : Runner → Raw → State → Act (State × Flow) :=
  runReporting ""

def dropNewlines (t : Raw) : Raw :=
  (t.reverse.dropWhile (· = '\n')).reverse

/-- The state after a shell of its own came to its end. -/
def rejoin (s inner : State) : State :=
  { s with status := inner.status, captured := inner.captured, input := inner.input }

def substitution (run : Runner) : Substitution := fun source s => do
  let (inner, _) ← runSource run source { s with output := .capture, captured := [] }
  pure ({ s with status := inner.status, input := inner.input }, dropNewlines inner.captured)

def runApart (run : Runner) (c : Command) (s : State) : Act (State × Flow) := do
  let (inner, flow) ← run c s
  let s := rejoin s inner
  match flow with
  | .killed => pure (s, .killed)
  | _ => pure (s, .next)

/-- Run a command whose success decides on others. -/
def runTested (run : Runner) (c : Command) (s : State) : Act (State × Flow) := do
  let (inner, flow) ← run c { s with tested := true }
  pure ({ inner with tested := s.tested }, flow)

/-- End the script after a command that fails, if it is to end then. -/
def checked (t : Act (State × Flow)) : Act (State × Flow) := do
  let (s, flow) ← t
  if flow = .next ∧ s.status ≠ 0 ∧ s.stopsOnError ∧ !s.tested then pure (s, .leave)
  else pure (s, flow)

def setTarget (s : State) (channel : Nat) (target : Target) : State :=
  match channel with
  | 1 => { s with output := target }
  | 2 => { s with errors := target }
  | _ => s

def openFile (s : State) (channel : Nat) (appending : Bool) (name : Raw) : Act (State × Bool) := do
  let p := s.place name
  let d ← Act.disk
  let before :=
    match d.content p with
    | .ok bytes => if appending then bytes else []
    | .error _ => []
  match d.store p before false with
  | .ok _ =>
    Act.modify fun d =>
      match d.store p before false with
      | .ok d => d
      | .error _ => d
    pure (setTarget s channel (.file p), true)
  | .error e =>
    let why := if e = .notFound then "Directory nonexistent" else e.words
    let s ← s.report ("cannot create ".toList ++ name ++ rawOfString (": " ++ why))
    pure (s, false)

def duplicate (s : State) (channel : Nat) (source : Raw) : State :=
  match channel, source with
  | 0, ['-'] => { s with input := .closed }
  | _, ['-'] => setTarget s channel .closed
  | _, ['1'] => setTarget s channel s.output
  | _, ['2'] => setTarget s channel s.errors
  | _, _ => s

/-- Carry out redirections, and say whether all of them succeeded. -/
def redirect (run : Runner) : List Redirection → State → Act (State × Bool)
  | [], s => pure (s, true)
  | r :: rs, s => do
    let (s, done) ←
      match r with
      | .toFile channel appending target => do
        let (s, name) ← expandText (substitution run) s target
        openFile s channel appending name
      | .fromFile source => do
        let (s, name) ← expandText (substitution run) s source
        let d ← Act.disk
        match d.content (s.place name) with
        | .ok bytes => pure ({ s with input := .text (rawOf bytes) }, true)
        | .error _ =>
          let s ← s.report ("cannot open ".toList ++ name ++ ": No such file".toList)
          pure (s, false)
      | .fromText body => do
        let (s, text) ← expandText (substitution run) s body
        pure ({ s with input := .text text }, true)
      | .duplicate channel source => do
        let (s, source) ← expandText (substitution run) s source
        pure (duplicate s channel source, true)
    if done then redirect run rs s else pure (s, false)

/-- The reading and writing of one state with all else of another. -/
def restoreChannels (before s : State) : State :=
  let input :=
    match before.input, s.input with
    | .text _, .text rest => .text rest
    | input, _ => input
  { s with input, output := before.output, errors := before.errors }

def assign (run : Runner) : List (Raw × Word) → State → Act State
  | [], s => pure s
  | (name, word) :: rest, s => do
    let (s, value) ← expandText (substitution run) s word
    assign run rest (s.setVariable name value)

def stripBlanks (separators t : Raw) : Raw :=
  let isBlankChar (c : Char) : Bool := separators.contains c && isNumberBlank c
  ((t.dropWhile isBlankChar).reverse.dropWhile isBlankChar).reverse

/-- Set variables to the fields of a line. The last one takes what is left. -/
def assignFields (separators : Raw) : List Raw → Raw → State → State
  | [], _, s => s
  | [name], line, s => s.setVariable name (stripBlanks separators line)
  | name :: names, line, s =>
    let line := stripBlanks separators line
    let field := line.takeWhile fun c => !separators.contains c
    let rest := stripBlanks separators (line.drop field.length)
    let rest := if rest.head?.any separators.contains then rest.tail else rest
    assignFields separators names rest (s.setVariable name field)

/-- A line without the backslashes that quote its characters. -/
def dropBackslashes : Raw → Raw
  | '\\' :: c :: cs => c :: dropBackslashes cs
  | c :: cs => c :: dropBackslashes cs
  | [] => []

def readVariables (args : List Raw) (s : State) : Act (State × Flow) := do
  let (plain, names) :=
    match args with
    | ['-', 'r'] :: names => (true, names)
    | names => (false, names)
  if names = [] then
    let s ← s.report "read: arg count".toList
    proceed s 2
  else
    let (s, line, whole) ← s.readLine State.readLimit []
    let line := if plain then line else dropBackslashes line
    proceed (assignFields s.separators names line s) (if whole then 0 else 1)

def harmlessSignals : List Raw :=
  ["0", "CHLD", "17", "CONT", "18", "URG", "23", "WINCH", "28"].map String.toList

def signalNumber (name : Raw) : Raw :=
  match String.ofList name with
  | "EXIT" => ['0']
  | "HUP" => ['1']
  | "INT" => ['2']
  | "QUIT" => ['3']
  | "ABRT" => ['6']
  | "KILL" => ['9']
  | "USR1" => ['1', '0']
  | "USR2" => ['1', '2']
  | "PIPE" => ['1', '3']
  | "ALRM" => ['1', '4']
  | "TERM" => ['1', '5']
  | _ => name

def kill (run : Runner) (args : List Raw) (s : State) : Act (State × Flow) := do
  let (name, targets) : Raw × List Raw :=
    match args with
    | ['-', 's'] :: name :: targets => (name, targets)
    | ('-' :: name) :: targets => (name, targets)
    | targets => (['1', '5'], targets)
  let signal := signalNumber name
  if targets.contains (numeral processNumber).toList then
    match if signal = ['9'] then none else s.traps.lookup signal with
    | some action => andThen (runSource run action s) fun s => proceed s 0
    | none => if harmlessSignals.contains name then proceed s 0 else pure (s, .killed)
  else
    let s ← s.report "kill: No such process".toList
    proceed s 1

/-- Say what is done at signals from now on. -/
def trap (args : List Raw) (s : State) : Act (State × Flow) :=
  match args with
  | action :: signals =>
    let numbers := signals.map signalNumber
    let others := s.traps.filter fun (n, _) => !numbers.contains n
    let added := if action = ['-'] then [] else numbers.map fun n => (n, action)
    proceed { s with traps := added ++ others } 0
  | [] => proceed s 0

/-- Do what is to be done at the end of a script. -/
def finish (run : Runner) (s : State) (flow : Flow) : Act (State × Flow) := do
  match s.traps.lookup ['0'], flow with
  | _, .killed => pure (s, .killed)
  | some action, _ =>
    let (after, flow) ← runSource run action { s with traps := [] }
    pure (if flow = .leave then after else { after with status := s.status }, flow)
  | none, flow => pure (s, flow)

/-- A command with the number that is its argument, or else another one. -/
def withNumber (name : String) (args : List Raw) (n : Nat) (s : State)
    (f : Nat → Act (State × Flow)) : Act (State × Flow) :=
  match args with
  | [] => f n
  | arg :: _ =>
    match decimal? arg with
    | some (.ofNat n) => f n
    | _ => do
      let s ← s.report (rawOfString (name ++ ": Illegal number: ") ++ arg)
      pure ({ s with status := 2 }, .leave)

/-- Set or prepare the variables that arguments name, each with an equals sign and its value or
without. -/
def assignArguments (prepare : Raw → State → State) (args : List Raw) (s : State) : State :=
  args.foldl (fun s a =>
    match splitFirst? '=' a with
    | some (name, value) => (prepare name s).setVariable name value
    | none => prepare a s) s

/-- Make a variable one that other programs see. -/
def exportVariable (name : Raw) (s : State) : State :=
  { s with exported := name :: s.exported }

def setOptions : List Raw → State → State
  | [], s => s
  | ['-', '-'] :: args, s => { s with arguments := args }
  | ('-' :: options) :: args, s => setOptions args (choose true options s)
  | ('+' :: options) :: args, s => setOptions args (choose false options s)
  | args, s => { s with arguments := args }
where
  /-- Turn options on or off. -/
  choose (on : Bool) (options : Raw) (s : State) : State :=
    { s with
      stopsOnError := if options.contains 'e' then on else s.stopsOnError
      refusesUnset := if options.contains 'u' then on else s.refusesUnset }

/-- Run a file of a program or of a script. The fuel is for interpreters that are scripts. -/
def execute (run : Runner) : Nat → Path → List Raw → State → Act (State × Flow)
  | 0, _, _, s => proceed s 126
  | fuel + 1, p, args, s => do
    let d ← Act.disk
    match d.content p with
    | .error _ => proceed s 127
    | .ok content =>
      match Image.ofContent content with
      | .program name =>
        match program? name with
        | some program =>
          let (inner, status) ← program args s
          proceed (rejoin s inner) status
        | none => if isShell name then shell p args s else proceed s 127
      | .script interpreter argument =>
        execute run fuel (s.folder.join interpreter) (argument.toList ++ rawOf p.bytes :: args) s
      | .unknown => script (rawOf p.bytes) args s content
where
  /-- The program is a shell. -/
  isShell (name : Raw) : Bool :=
    ["sh", "dash", "bash"].contains (String.ofList name)
  /-- Run the content of a script in a shell of its own. -/
  script (name : Raw) (args : List Raw) (s : State) (content : Bytes) : Act (State × Flow) := do
    let seen := s.bindings.filter fun (n, _) => s.exported.contains n
    let inner : State :=
      { State.start name args s.folder s.search with
        bindings := (State.folderVariable, rawOf s.folder.bytes) :: seen
        exported := s.exported
        input := s.input
        output := s.output
        errors := s.errors
        captured := s.captured }
    let (inner, flow) ← runSource run (rawOf content) inner
    let (inner, flow) ← finish run inner flow
    let s := rejoin s inner
    match flow with
    | .killed => pure (s, .killed)
    | _ => pure (s, .next)
  /-- Run a shell with its arguments. -/
  shell (p : Path) (args : List Raw) (s : State) : Act (State × Flow) := do
    match args with
    | ['-', 'c'] :: source :: rest =>
      script (rest.headD (rawOf p.bytes)) rest.tail s (rawBytes source)
    | file :: rest =>
      let d ← Act.disk
      match d.content (s.place file) with
      | .ok content => script file rest s content
      | .error _ =>
        let s ← s.complain
          (rawOf p.bytes ++ ": 0: cannot open ".toList ++ file ++ ": No such file".toList)
        proceed s 2
    | [] =>
      let (s, source) ← s.readAll State.readLimit []
      script (rawOf p.bytes) [] s (rawBytes source)

/-- How many interpreters may stand behind each other. -/
def interpreterLimit : Nat := 5

/-- The file of a program that is not part of the shell. -/
def findProgram? (d : Disk) (s : State) (name : Raw) : Option Path :=
  if name.contains '/' then some (s.place name)
  else (s.search.map fun f => f.join ⟨rawBytes name⟩).find? d.isExecutable

def runExternal (run : Runner) (name : Raw) (args : List Raw) (s : State) : Act (State × Flow) := do
  let d ← Act.disk
  match findProgram? d s name with
  | none =>
    let s ← s.report (name ++ ": not found".toList)
    proceed s 127
  | some p =>
    if !d.pathExists p then
      let s ← s.report (name ++ ": not found".toList)
      proceed s 127
    else if !d.isExecutable p then
      let s ← s.report (name ++ ": Permission denied".toList)
      proceed s 126
    else
      execute run interpreterLimit p args s

def runOwn (p : Program) (args : List Raw) (s : State) : Act (State × Flow) := do
  let (s, status) ← p args s
  proceed s status

def ownCommands : List String :=
  [":", "true", "false", "echo", "printf", "test", "[", "pwd", "read", "exit", "return", "break",
    "continue", "kill", "trap", "shift", "set", "unset", "export", "readonly", "local", "wait", "umask",
    "eval", "command", "cd", "exec", "type", "."]

def identify (worded : Bool) (name : Raw) (s : State) : Act (State × Flow) := do
  let d ← Act.disk
  let say (t : Raw) (kind : String) : Act (State × Flow) := do
    let s ← s.print (if worded then name ++ rawOfString kind ++ ['\n'] else t ++ ['\n'])
    proceed s 0
  if (s.functions.lookup name).isSome then say name " is a shell function"
  else if isSpecialCommand name then say name " is a special shell builtin"
  else if ownCommands.contains (String.ofList name) then say name " is a shell builtin"
  else
    match (findProgram? d s name).filter d.isExecutable with
    | some p =>
      let s ← s.print (if worded then name ++ " is ".toList ++ rawOf p.bytes ++ ['\n']
        else rawOf p.bytes ++ ['\n'])
      proceed s 0
    | none =>
      let s ← s.print (if worded then name ++ ": not found\n".toList else [])
      proceed s 127

def changeFolder (name : Raw) (s : State) : Act (State × Flow) := do
  let d ← Act.disk
  let folder := s.place name
  if d.isFolder folder then
    proceed (s.enter folder.normalize) 0
  else
    let s ← s.report ("cd: can\x27t cd to ".toList ++ name)
    proceed s 2

/-- Run the script in a file as part of the current one. -/
def runFile (run : Runner) (name : Raw) (s : State) : Act (State × Flow) := do
  let d ← Act.disk
  match d.content (s.place name) with
  | .ok content =>
    let (s, flow) ← runSource run (rawOf content) s
    pure (s, if flow = .back then .next else flow)
  | .error _ =>
    let s ← s.report (".: cannot open ".toList ++ name ++ ": No such file".toList)
    pure ({ s with status := 2 }, .leave)

def runCommand (run : Runner) (name : Raw) (args : List Raw) (s : State) : Act (State × Flow) := do
  match String.ofList name with
  | ":" => proceed s 0
  | "true" => proceed s 0
  | "false" => proceed s 1
  | "echo" =>
    let s ← s.print (echoText args)
    proceed s 0
  | "printf" => runOwn printf args s
  | "test" => runOwn test args s
  | "[" => runOwn bracket args s
  | "pwd" => runOwn pwd args s
  | "read" => readVariables args s
  | "exit" => withNumber "exit" args s.status s fun n => pure ({ s with status := n % 256 }, .leave)
  | "return" => withNumber "return" args s.status s fun n => pure ({ s with status := n }, .back)
  | "break" =>
    withNumber "break" args 1 s fun n =>
      if min n s.loops = 0 then proceed s 0
      else pure ({ s with status := 0 }, .breaks (min n s.loops))
  | "continue" =>
    withNumber "continue" args 1 s fun n =>
      if min n s.loops = 0 then proceed s 0
      else pure ({ s with status := 0 }, .continues (min n s.loops))
  | "kill" => kill run args s
  | "trap" => trap args s
  | "shift" =>
    withNumber "shift" args 1 s fun n =>
      if n ≤ s.arguments.length then
        proceed { s with arguments := s.arguments.drop n } 0
      else do
        let s ← s.report "shift: can\x27t shift that many".toList
        pure ({ s with status := 2 }, .leave)
  | "set" => proceed (setOptions args s) 0
  | "unset" => proceed ((args.filter fun a => a.head? ≠ some '-').foldl State.unsetVariable s) 0
  | "export" => proceed (assignArguments exportVariable args s) 0
  | "readonly" => proceed (assignArguments (fun _ s => s) args s) 0
  | "local" =>
    proceed (assignArguments (fun name s => s.makeLocal name) args s) 0
  | "wait" => proceed s 0
  | "umask" => proceed s 0
  | "eval" => runReporting "eval: " run (joined ' ' args) s
  | "type" => identify true (args.headD []) s
  | "cd" => changeFolder (args.headD []) s
  | "." => runFile run (args.headD []) s
  | _ => runExternal run name args s

def runNamed (run : Runner) (name : Raw) (args : List Raw) (s : State) : Act (State × Flow) := do
  match s.functions.lookup name with
  | some body =>
    let (inner, flow) ← run body { s with arguments := args, locals := some [], loops := 0 }
    let restored := (inner.locals.getD []).foldl (fun s (n, v) => s.restoreVariable n v) inner
    let s := { restored with arguments := s.arguments, locals := s.locals, loops := s.loops }
    match flow with
    | .back => pure (s, .next)
    | flow => pure (s, flow)
  | none =>
    if name = "command".toList then
      match args with
      | ['-', 'v'] :: name :: _ => identify false name s
      | ['-', 'V'] :: name :: _ => identify true name s
      | name :: args => runCommand run name args s
      | [] => proceed s 0
    else
      runCommand run name args s

/-- Give up the input of the process when the shell has replaced its own for good. -/
def giveUpInput (before s : State) : Act Unit :=
  if before.input = .inherited ∧ s.input ≠ .inherited then .closeInput .done else pure ()

def runFields (run : Runner) (assignments : List (Raw × Word)) (redirections : List Redirection)
    (name : Raw) (args : List Raw) (s : State) : Act (State × Flow) := do
  let (opened, done) ← redirect run redirections s
  unlessFailed opened do
    if !done then
      proceed (restoreChannels s opened) 2
    else if name = "exec".toList then
      match args with
      | [] =>
        giveUpInput s opened
        proceed opened 0
      | program :: args =>
        let (inner, flow) ← runExternal run program args opened
        pure (restoreChannels s inner, if flow = .killed then .killed else .leave)
    else
      let prepared ← assign run assignments opened
      unlessFailed prepared do
        let seen := assignments.map Prod.fst ++ prepared.exported
        let (inner, flow) ← runNamed run name args { prepared with exported := seen }
        let inner := restoreChannels s inner
        let names := assignments.map Prod.fst
        let restored := names.foldl (fun t x => t.restoreVariable x (s.value? x)) inner
        let exported := restored.exported.filter fun x => !names.contains x || s.exported.contains x
        pure ({ restored with exported }, flow)

def runSimple (run : Runner) (assignments : List (Raw × Word)) (words : List Word)
    (redirections : List Redirection) (s : State) : Act (State × Flow) := do
  let (s, fields) ← expandWords (substitution run) s words
  unlessFailed s do
    match fields with
    | [] =>
      let (opened, done) ← redirect run redirections s
      let s := restoreChannels s opened
      unlessFailed s do
        if done then
          let s ← assign run assignments { s with status := if words.isEmpty then 0 else s.status }
          unlessFailed s (pure (s, .next))
        else
          proceed s 2
    | name :: args => runFields run assignments redirections name args s

/-- Go through a loop once more, or leave it. -/
def afterBody (flow : Flow) (again : State → Act (State × Flow)) (s : State) : Act (State × Flow) :=
  match flow with
  | .next => again s
  | .breaks n => pure (s, if n ≤ 1 then .next else .breaks (n - 1))
  | .continues n => if n ≤ 1 then again s else pure (s, .continues (n - 1))
  | flow => pure (s, flow)

def inLoop (t : State → Act (State × Flow)) (s : State) : Act (State × Flow) := do
  let (inner, flow) ← t { s with loops := s.loops + 1 }
  pure ({ inner with loops := s.loops }, flow)

def hasAnyPattern (run : Runner) (t : Raw) : List Word → State → Act (State × Bool)
  | [], s => pure (s, false)
  | w :: ws, s => do
    let (s, p) ← expandPattern (substitution run) s w
    if p.describes t then pure (s, true) else hasAnyPattern run t ws s

def runEach (run : Runner) (name : Raw) (body : Command) : List Raw → State → Act (State × Flow)
  | [], s => pure (s, .next)
  | w :: ws, s => .look fun _ => do
    let (s, flow) ← inLoop (run body) (s.setVariable name w)
    afterBody flow (runEach run name body ws) s

/-- Run a command. The fuel bounds how long a script may go on. -/
def eval : Nat → Command → State → Act (State × Flow)
  | 0, _, s => pure ({ s with status := 2 }, .leave)
  | fuel + 1, c, s =>
    match c with
    | .skip => pure (s, .next)
    | .simple line assignments words redirections =>
      checked (runSimple (eval fuel) assignments words redirections { s with line })
    | .sequence a b => andThen (eval fuel a s) (eval fuel b)
    | .both a b =>
      andThen (runTested (eval fuel) a s) fun s =>
        if s.status = 0 then eval fuel b s else pure (s, .next)
    | .either a b =>
      andThen (runTested (eval fuel) a s) fun s =>
        if s.status = 0 then pure (s, .next) else eval fuel b s
    | .negated a =>
      andThen (runTested (eval fuel) a s) fun s => proceed s (if s.status = 0 then 1 else 0)
    | .pipe a b => checked do
      let (left, _) ← eval fuel a { s with output := .capture, captured := [] }
      let (right, flow) ← eval fuel b { s with input := .text left.captured }
      pure ({ s with status := right.status, captured := right.captured },
        if flow = .killed then .killed else .next)
    | .conditional test yes no =>
      andThen (runTested (eval fuel) test s) fun s =>
        if s.status = 0 then eval fuel yes s else eval fuel no { s with status := 0 }
    | .loop stopping test body => .look fun _ =>
      andThen (inLoop (runTested (eval fuel) test) s) fun s =>
        if (s.status = 0) ≠ stopping then do
          let (s, flow) ← inLoop (eval fuel body) s
          afterBody flow (eval fuel (.loop stopping test body)) s
        else
          proceed s 0
    | .each name words body => do
      let (s, fields) ←
        match words with
        | some words => expandWords (substitution (eval fuel)) s words
        | none => pure (s, s.arguments)
      unlessFailed s (runEach (eval fuel) name body fields { s with status := 0 })
    | .choice word patterns body rest => do
      let (s, t) ← expandText (substitution (eval fuel)) s word
      unlessFailed s do
        let (s, found) ← hasAnyPattern (eval fuel) t patterns s
        unlessFailed s do
          if found then eval fuel body { s with status := 0 }
          else eval fuel rest { s with status := 0 }
    | .group body redirections => do
      let (opened, done) ← redirect (eval fuel) redirections s
      unlessFailed opened do
        if done then
          let (inner, flow) ← eval fuel body opened
          pure (restoreChannels s inner, flow)
        else
          proceed (restoreChannels s opened) 2
    | .subshell body redirections => checked do
      let (opened, done) ← redirect (eval fuel) redirections s
      unlessFailed opened do
        if done then
          let (inner, flow) ← runApart (eval fuel) body opened
          pure (restoreChannels s inner, flow)
        else
          proceed (restoreChannels s opened) 2
    | .function name body =>
      proceed { s with functions := (name, body) :: s.functions } 0

def patience : Nat := 1000000

def processOf (p : Path) (args : List Raw) (s : State) : Act ExitStatus := do
  let (s, flow) ← execute (eval patience) interpreterLimit p args s
  pure (if flow = .killed then .signal else .code (s.status % 256))

end InkServer.Shell
