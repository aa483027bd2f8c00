import InkServer.Shell.Condition
import InkServer.Shell.Format
import InkServer.Shell.State

/-!
This module contains small programs that scripts use.
-/

namespace InkServer.Shell

open Text

/-- A program: what it does with its arguments, and its exit code. -/
abbrev Program := List Raw → State → Act (State × Nat)

def catFiles : List Raw → State → Nat → Act (State × Nat)
  | [], s, code => pure (s, code)
  | ['-'] :: files, s, code => do
    let s ← s.copyInput State.readLimit
    catFiles files s code
  | file :: files, s, code => do
    let d ← Act.disk
    match d.content (s.place file) with
    | .ok bytes =>
      let s ← s.print (rawOf bytes)
      catFiles files s code
    | .error e =>
      let s ← s.complain ("cat: ".toList ++ file ++ rawOfString (": " ++ e.words))
      catFiles files s 1

def cat : Program := fun args s =>
  if args = [] then catFiles [['-']] s 0 else catFiles args s 0

def echoPlain : Program := fun args s => do
  let s ←
    match args with
    | ['-', 'n'] :: args => s.print (joined ' ' args)
    | args => s.print (joined ' ' args ++ ['\n'])
  pure (s, 0)

def reportNumbers : List Raw → State → Act State
  | [], s => pure s
  | arg :: args, s => do
    let s ← s.report ("printf: ".toList ++ arg ++ ": expected numeric value".toList)
    reportNumbers args s

def printf : Program := fun args s => do
  match args with
  | [] =>
    let s ← s.report "printf: usage: printf format [arg ...]".toList
    pure (s, 2)
  | format :: args =>
    let f := formatAll format (args.length + 1) args
    let s ← s.print f.text
    let s ← reportNumbers f.faults s
    pure (s, if f.faults = [] then 0 else 1)

def milliseconds (t : Raw) : Nat :=
  let whole := t.takeWhile isAsciiDigit
  match t.drop whole.length with
  | '.' :: rest =>
    let ds := ((rest.takeWhile isAsciiDigit) ++ ['0', '0', '0']).take 3
    numeralValue whole * 1000 + numeralValue ds
  | _ => numeralValue whole * 1000

def sleep : Program := fun args s =>
  .sleep ((args.map milliseconds).foldl (· + ·) 0) fun _ => .done (s, 0)

def testAs (name : String) : Program := fun args s => do
  let d ← Act.disk
  match condition d s.place args with
  | .ok true => pure (s, 0)
  | .ok false => pure (s, 1)
  | .error why =>
    let s ← s.report (rawOfString (name ++ ": ") ++ why)
    pure (s, 2)

def test : Program := testAs "test"

def bracket : Program := fun args s => do
  if args.getLast? = some [']'] then
    testAs "[" args.dropLast s
  else
    let s ← s.report "[: missing ]".toList
    pure (s, 2)

def pwd : Program := fun _ s => do
  let d ← Act.disk
  let folder :=
    match d.find true s.folder with
    | .ok (loc, _) => Path.ofComponents (.root :: loc.map .name)
    | .error _ => s.folder
  let s ← s.print (rawOf folder.bytes ++ ['\n'])
  pure (s, 0)

def countUp : Nat → Int → Int → Raw
  | 0, _, _ => []
  | fuel + 1, a, b => if a > b then [] else numberText a ++ '\n' :: countUp fuel (a + 1) b

def seq : Program := fun args s => do
  let (a, b) :=
    match args.map decimal? with
    | [some b] => ((1 : Int), b)
    | [some a, some b] => (a, b)
    | _ => (1, 0)
  let s ← s.print (countUp (b - a + 1).toNat a b)
  pure (s, 0)

def complainAbout (s : State) (what : String) (file : Raw) (e : DiskError) : Act State :=
  s.complain (rawOfString (what ++ " \x27") ++ file ++ rawOfString ("\x27: " ++ e.words))

def textOf (name : String) (files : List Raw) (s : State) : Act (State × Option Raw) := do
  match files with
  | [] =>
    let (s, text) ← s.readAll State.readLimit []
    pure (s, some text)
  | file :: _ =>
    let d ← Act.disk
    match d.content (s.place file) with
    | .ok bytes => pure (s, some (rawOf bytes))
    | .error e =>
      let s ← s.complain (rawOfString (name ++ ": cannot open \x27") ++ file ++
        rawOfString ("\x27 for reading: " ++ e.words))
      pure (s, none)

def firstLines : Nat → Raw → Raw
  | 0, _ => []
  | n + 1, t =>
    match splitFirst? '\n' t with
    | some (line, rest) => line ++ '\n' :: firstLines n rest
    | none => t

def lastLines (n : Nat) (t : Raw) : Raw :=
  let lines := t.count '\n' + if t.getLast?.all (· = '\n') then 0 else 1
  t.drop (firstLines (lines - n) t).length

/-- Print the part of a file or of the input that an amount of lines or of bytes chooses. -/
def printPart (name : String) (lines bytes : Nat → Raw → Raw) : Program := fun args s => do
  let (cut, files) : (Raw → Raw) × List Raw :=
    match args with
    | ['-', 'n'] :: n :: files => (lines (numeralValue n), files)
    | ['-', 'c'] :: n :: files => (bytes (numeralValue n), files)
    | ('-' :: 'n' :: n) :: files => (lines (numeralValue n), files)
    | ('-' :: 'c' :: n) :: files => (bytes (numeralValue n), files)
    | ('-' :: n) :: files => (lines (numeralValue n), files)
    | files => (lines 10, files)
  let (s, text) ← textOf name files s
  match text with
  | some text =>
    let s ← s.print (cut text)
    pure (s, 0)
  | none => pure (s, 1)

/-- Print the beginning of a file or of the input. -/
def head : Program := printPart "head" firstLines List.take

/-- Print the end of a file or of the input. -/
def tail : Program := printPart "tail" lastLines fun n t => t.drop (t.length - n)

def wordCount (t : Raw) : Nat :=
  ((t.splitBy fun a b => isNumberBlank a == isNumberBlank b).filter fun run =>
    run.any fun c => !isNumberBlank c).length

/-- Count the lines, words or bytes of a file or of the input. -/
def count : Program := fun args s => do
  let measure (option : Char) (t : Raw) : Nat :=
    match option with
    | 'l' => t.count '\n'
    | 'w' => wordCount t
    | _ => t.length
  let (options, files) : Raw × List Raw :=
    match args with
    | ('-' :: options) :: files => (options, files)
    | files => (['l', 'w', 'c'], files)
  let (s, text) ← textOf "wc" files s
  match text with
  | some text =>
    let numbers := options.map fun o => (numeral (measure o text)).toList
    let width := if files.isEmpty ∧ options.length > 1 then 7 else 1
    let padded := numbers.map fun n => List.replicate (width - n.length) ' ' ++ n
    let s ← s.print (joined ' ' (padded ++ files.take 1) ++ ['\n'])
    pure (s, 0)
  | none => pure (s, 1)

def charsOf : Raw → Raw
  | a :: '-' :: b :: rest =>
    ((List.range (b.toNat + 1 - a.toNat)).map fun n => Char.ofNat (a.toNat + n)) ++ charsOf rest
  | c :: rest => c :: charsOf rest
  | [] => []

/-- Print the input with characters replaced or taken away. -/
def exchange : Program := fun args s => do
  let (s, text) ← s.readAll State.readLimit []
  let unescaped (t : Raw) : Raw := charsOf (unescape (t.length + 1) t).1
  match args with
  | [['-', 'd'], set] =>
    let s ← s.print (text.filter fun c => !(unescaped set).contains c)
    pure (s, 0)
  | [old, new] =>
    let old := unescaped old
    let new := unescaped new
    let other (c : Char) : Char :=
      match old.idxOf? c with
      | some i => (new[i]? <|> new.getLast?).getD c
      | none => c
    let s ← s.print (text.map other)
    pure (s, 0)
  | _ => pure (s, 1)

def listNames : Program := fun args s => do
  let d ← Act.disk
  let file := (args.filter fun a => a.head? ≠ some '-').headD ['.']
  match d.list (s.place file) with
  | .ok names =>
    let shown := (names.map rawOf).filter fun n => n.head? ≠ some '.'
    let s ← s.print ((shown.mergeSort fun a b => !decide (b < a)).flatMap fun n => n ++ ['\n'])
    pure (s, 0)
  | .error e =>
    if d.pathExists (s.place file) then
      let s ← s.print (file ++ ['\n'])
      pure (s, 0)
    else
      let s ← complainAbout s "ls: cannot access" file e
      pure (s, 2)

/-- Change the disk once for each path, and complain where that fails. -/
def changeAll (what : String) (f : Path → Disk → Except DiskError Disk) (quiet : Bool) :
    List Raw → State → Nat → Act (State × Nat)
  | [], s, code => pure (s, code)
  | file :: files, s, code => do
    let d ← Act.disk
    match f (s.place file) d with
    | .ok _ =>
      Act.modify fun d => ((f (s.place file) d).toOption).getD d
      changeAll what f quiet files s code
    | .error e =>
      if quiet then changeAll what f quiet files s code
      else
        let s ← complainAbout s what file e
        changeAll what f quiet files s 1

/-- The letters of the options among arguments, and the other arguments. -/
def splitOptions (args : List Raw) : Raw × List Raw :=
  ((args.filter fun a => a.head? = some '-').flatMap List.tail,
    args.filter fun a => a.head? ≠ some '-')

def remove : Program := fun args s =>
  let (options, files) := splitOptions args
  let f (p : Path) (d : Disk) : Except DiskError Disk :=
    if options.contains 'r' ∨ options.contains 'R' then d.remove p else d.unlink p
  changeAll "rm: cannot remove" f (options.contains 'f') files s 0

/-- Create files where there are none. -/
def touch : Program := fun args s =>
  let f (p : Path) (d : Disk) : Except DiskError Disk :=
    if d.pathExists p then .ok d else d.store p [] false
  changeAll "touch: cannot touch" f false (splitOptions args).2 s 0

def makeFolder : Program := fun args s =>
  let (options, files) := splitOptions args
  let f (p : Path) (d : Disk) : Except DiskError Disk :=
    if options.contains 'p' then d.makeFolders p else d.makeFolder p
  changeAll "mkdir: cannot create directory" f false files s 0

/-- Copy a file, and take away the first one with `moving`. -/
def copy (moving : Bool) : Program := fun args s => do
  match (splitOptions args).2 with
  | [file, targetFile] =>
    let d ← Act.disk
    let source := s.place file
    let target :=
      match d.isFolder (s.place targetFile), source.fileName? with
      | true, some name => (s.place targetFile).join ⟨name⟩
      | _, _ => s.place targetFile
    match d.copyFile source target with
    | .ok _ =>
      Act.modify fun d =>
        match d.copyFile source target with
        | .ok d => if moving then (d.unlink source).toOption.getD d else d
        | .error _ => d
      pure (s, 0)
    | .error e =>
      let s ← complainAbout s (if moving then "mv: cannot stat" else "cp: cannot stat") file e
      pure (s, 1)
  | _ => pure (s, 1)

/-- Print the last name of a path, without an ending that is given. -/
def lastName : Program := fun args s => do
  let t := ((((args.headD []).reverse.dropWhile (· = '/'))).takeWhile (· ≠ '/')).reverse
  let ending := args.tail.headD []
  let t := if ending.isSuffixOf t ∧ ending ≠ t then t.take (t.length - ending.length) else t
  let s ← s.print (t ++ ['\n'])
  pure (s, 0)

def allButLastName : Program := fun args s => do
  let t := (args.headD []).reverse.dropWhile (· = '/')
  let t := ((t.dropWhile (· ≠ '/')).dropWhile (· = '/')).reverse
  let t : Raw := if t ≠ [] then t else if (args.headD []).head? = some '/' then ['/'] else ['.']
  let s ← s.print (t ++ ['\n'])
  pure (s, 0)

def programs : List (String × Program) :=
  [("cat", cat), ("echo", echoPlain), ("printf", printf), ("sleep", sleep), ("test", test),
    ("[", bracket), ("pwd", pwd), ("true", fun _ s => pure (s, 0)),
    ("false", fun _ s => pure (s, 1)), ("seq", seq), ("head", head), ("tail", tail), ("wc", count),
    ("tr", exchange), ("ls", listNames), ("rm", remove), ("touch", touch), ("mkdir", makeFolder), ("cp", copy false),
    ("mv", copy true), ("basename", lastName), ("dirname", allButLastName)]

def program? (name : Raw) : Option Program :=
  programs.lookup (String.ofList name)

end InkServer.Shell
