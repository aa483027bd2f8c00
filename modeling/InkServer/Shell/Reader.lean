import InkServer.Shell.Word

/-!
This module contains the reading of shell scripts.
-/

namespace InkServer.Shell

open Text

def skipBlanks : List Char → List Char
  | '\\' :: '\n' :: cs => skipBlanks cs
  | c :: cs =>
    if c = ' ' ∨ c = '\t' then skipBlanks cs
    else if c = '#' then (c :: cs).dropWhile (· ≠ '\n')
    else c :: cs
  | [] => []

def skipLines : Nat → List Char → List Char
  | 0, cs => cs
  | fuel + 1, cs =>
    match skipBlanks cs with
    | '\n' :: cs => skipLines fuel cs
    | cs => cs

def plainWord (cs : List Char) : Raw :=
  cs.takeWhile fun c => !isMeta c

def isCloser (w : Raw) : Bool :=
  ["then", "else", "elif", "fi", "do", "done", "esac", "\x7d"].any fun k => k.toList == w

/-- A word with a meaning of its own where a command begins. -/
def isReserved (w : Raw) : Bool :=
  isCloser w || ["if", "while", "until", "for", "case", "in", "!", "\x7b"].any fun k => k.toList == w

def symbolName (cs : List Char) : String :=
  let quoted (s : String) : String := "\"" ++ s ++ "\""
  match cs with
  | [] => "end of file"
  | '\n' :: _ => "newline"
  | ';' :: ';' :: _ => quoted ";;"
  | '&' :: '&' :: _ => quoted "&&"
  | '|' :: '|' :: _ => quoted "||"
  | c :: _ =>
    if c = '<' ∨ c = '>' then "redirection"
    else if isMeta c then quoted (String.singleton c)
    else if isReserved (plainWord cs) then quoted (String.ofList (plainWord cs))
    else
      match cs.dropWhile isAsciiDigit with
      | '<' :: _ => "redirection"
      | '>' :: _ => "redirection"
      | _ => "word"

/-- There is a symbol at the beginning that may not stand here. -/
def Fault.unexpected (cs : List Char) (expected : Option String) : Fault :=
  let found := symbolName cs ++ " unexpected"
  let message :=
    match expected with
    | some e => found ++ " (expecting " ++ e ++ ")"
    | none => found
  ⟨message, (if cs.head? = some '\n' then cs.tail else cs).count '\n'⟩

def atListEnd (cs : List Char) : Bool :=
  match cs with
  | [] => true
  | ')' :: _ => true
  | ';' :: ';' :: _ => true
  | cs => isCloser (plainWord cs)

def afterWord? (word : String) (cs : List Char) : Option (List Char) :=
  if plainWord cs = word.toList then some (cs.drop word.toList.length) else none

/-- The text after a word that has to stand at the beginning. -/
def afterWord (word : String) (cs : List Char) : Reading (List Char) :=
  match afterWord? word cs with
  | some cs => .ok cs
  | none => .error (.unexpected cs (some ("\"" ++ word ++ "\"")))

def readNextWord (expected : Option String) (cs : List Char) : Reading (Word × List Char) :=
  let cs := skipBlanks cs
  match cs with
  | [] => .error (.unexpected cs expected)
  | c :: _ => if isMeta c then .error (.unexpected cs expected) else readWord false (cs.length + 1) cs

/-- The line on which the rest of a source with `total` line ends begins. -/
def lineOf (total : Nat) (cs : List Char) : Nat :=
  total + 1 - cs.count '\n'

/-- The body of a text that stands in the script, up to the line that closes it, and what follows. -/
def hereText (dropTabs : Bool) (closer : Raw) : Nat → List Char → Raw × List Char
  | 0, cs => ([], cs)
  | _ + 1, [] => ([], [])
  | fuel + 1, cs =>
    let line := cs.takeWhile (· ≠ '\n')
    let rest := cs.drop (line.length + 1)
    let line := if dropTabs then line.dropWhile (· = '\t') else line
    if line = closer then
      ([], rest)
    else
      let (body, rest) := hereText dropTabs closer fuel rest
      (line ++ '\n' :: body, rest)

def isQuoted (w : Word) : Bool :=
  w.any fun p =>
    match p with
    | .text _ quoted => quoted
    | _ => false

/-- Read the text that stands in the script below the current line. -/
def readHereText (dropTabs : Bool) (cs : List Char) : Reading (Redirection × List Char) := do
  let (word, cs) ← readNextWord none cs
  let line := cs.takeWhile (· ≠ '\n')
  let below := cs.drop (line.length + 1)
  let (body, rest) := hereText dropTabs (plainText word) (below.length + 1) below
  let parts := if isQuoted word then [.text body true] else quotedParts body
  pure (.fromText parts, line ++ '\n' :: rest)

/-- Read the redirection that begins with an arrow, for a channel or for the one of the arrow. -/
def readArrow (channel? : Option Nat) (cs : List Char) : Reading (Redirection × List Char) :=
  let towards (make : Word → Redirection) (cs : List Char) : Reading (Redirection × List Char) := do
    let (w, cs) ← readNextWord none cs
    pure (make w, cs)
  match cs with
  | '>' :: '>' :: cs => towards (.toFile (channel?.getD 1) true) cs
  | '>' :: '&' :: cs => towards (.duplicate (channel?.getD 1)) cs
  | '>' :: '|' :: cs => towards (.toFile (channel?.getD 1) false) cs
  | '<' :: '<' :: '-' :: cs => readHereText true cs
  | '<' :: '<' :: cs => readHereText false cs
  | '<' :: '&' :: cs => towards (.duplicate (channel?.getD 0)) cs
  | '<' :: cs => towards .fromFile cs
  | cs => towards (.toFile (channel?.getD 1) false) (cs.drop 1)

def readRedirection? (cs : List Char) : Option (Reading (Redirection × List Char)) :=
  let digits := cs.takeWhile isAsciiDigit
  let rest := cs.drop digits.length
  match rest with
  | c :: _ =>
    if c = '<' ∨ c = '>' then
      some (readArrow (if digits = [] then none else some (numeralValue digits)) rest)
    else
      none
  | [] => none

def readRedirections : Nat → List Char → Reading (List Redirection × List Char)
  | 0, _ => .error .tooLong
  | fuel + 1, cs =>
    match readRedirection? (skipBlanks cs) with
    | none => .ok ([], cs)
    | some reading => do
      let (r, cs) ← reading
      let (rs, cs) ← readRedirections fuel cs
      pure (r :: rs, cs)

def assignment? (w : Word) : Option (Raw × Word) :=
  match w with
  | .text s false :: rest =>
    match splitFirst? '=' s with
    | some (name, value) =>
      if isName name then
        some (name, if value = [] then rest else .text value false :: rest)
      else
        none
    | none => none
  | _ => none

structure SimpleParts where
  assignments : List (Raw × Word)
  words : List Word
  redirections : List Redirection

def readSimple : Nat → SimpleParts → List Char → Reading (SimpleParts × List Char)
  | 0, _, _ => .error .tooLong
  | fuel + 1, s, cs =>
    let cs := skipBlanks cs
    match readRedirection? cs with
    | some reading => do
      let (r, cs) ← reading
      readSimple fuel { s with redirections := s.redirections ++ [r] } cs
    | none =>
      if cs = [] ∨ cs.head?.any isMeta then .ok (s, cs)
      else do
        let (w, cs) ← readWord false (cs.length + 1) cs
        match s.words, assignment? w with
        | [], some a => readSimple fuel { s with assignments := s.assignments ++ [a] } cs
        | _, _ => readSimple fuel { s with words := s.words ++ [w] } cs

def readWords : Nat → List Char → Reading (List Word × List Char)
  | 0, _ => .error .tooLong
  | fuel + 1, cs =>
    let cs := skipBlanks cs
    if cs = [] ∨ cs.head?.any isMeta then .ok ([], cs)
    else do
      let (w, cs) ← readWord false (cs.length + 1) cs
      let (ws, cs) ← readWords fuel cs
      pure (w :: ws, cs)

def readPatterns : Nat → List Char → Reading (List Word × List Char)
  | 0, _ => .error .tooLong
  | fuel + 1, cs => do
    let (w, cs) ← readNextWord none cs
    match skipBlanks cs with
    | '|' :: cs =>
      let (ws, cs) ← readPatterns fuel cs
      pure (w :: ws, cs)
    | ')' :: cs => pure ([w], cs)
    | cs => .error (.unexpected cs (some "\")\""))

def redirected (make : List Redirection → Command) (cs : List Char) : Reading (Command × List Char) := do
  let (rs, cs) ← readRedirections (cs.length + 1) cs
  pure (make rs, cs)

def grouped (c : Command) (rs : List Redirection) : Command :=
  if rs = [] then c else .group c rs

def isSpecialCommand (name : Raw) : Bool :=
  ["break", "continue", "eval", "exec", "exit", "export", "readonly", "return", "set", "shift",
    "times", "trap", "unset"].any fun k => k.toList == name

/-- What follows the parentheses after the name of a function, when there are some after one word. -/
def readFunctionHead? (cs : List Char) : Option (Reading (Raw × List Char)) :=
  let name := plainWord cs
  match skipBlanks (cs.drop name.length) with
  | '(' :: rest =>
    if name = [] ∨ (splitFirst? '=' name).any fun (n, _) => isName n then none
    else
      match skipBlanks rest with
      | ')' :: rest =>
        if isName name ∧ !isSpecialCommand name then some (.ok (name, rest))
        else some (.error ⟨"Bad function name", rest.count '\n'⟩)
      | rest =>
        let fault := Fault.unexpected rest (some "\")\"")
        if isReserved (plainWord rest) then
          some (.error { fault with message := "word unexpected (expecting \")\")" })
        else
          some (.error fault)
  | _ => none

mutual

/-- Read commands up to a word that ends the list. Without `canBeEmpty` there has to be one, unless
the script ends. -/
def readList (total : Nat) : Nat → Bool → List Char → Reading (Command × List Char)
  | 0, _, _ => .error .tooLong
  | fuel + 1, canBeEmpty, cs =>
    let cs := skipLines (cs.length + 1) cs
    if cs = [] ∨ (canBeEmpty ∧ atListEnd cs) then .ok (.skip, cs)
    else do
      let (c, cs) ← readChain total fuel cs
      let goOn (cs : List Char) : Reading (Command × List Char) := do
        let (d, cs) ← readList total fuel true cs
        pure (.sequence c d, cs)
      match skipBlanks cs with
      | ';' :: ';' :: cs => pure (c, ';' :: ';' :: cs)
      | ';' :: cs => goOn cs
      | '&' :: cs => goOn cs
      | '\n' :: cs => goOn cs
      | cs => pure (c, cs)

/-- Read commands that depend on each other's success. -/
def readChain (total : Nat) : Nat → List Char → Reading (Command × List Char)
  | 0, _ => .error .tooLong
  | fuel + 1, cs => do
    let (c, cs) ← readPipeline total fuel cs
    readChainRest total fuel c cs

def readChainRest (total : Nat) : Nat → Command → List Char → Reading (Command × List Char)
  | 0, _, _ => .error .tooLong
  | fuel + 1, c, cs =>
    match skipBlanks cs with
    | '&' :: '&' :: cs => do
      let (d, cs) ← readPipeline total fuel (skipLines (cs.length + 1) cs)
      readChainRest total fuel (.both c d) cs
    | '|' :: '|' :: cs => do
      let (d, cs) ← readPipeline total fuel (skipLines (cs.length + 1) cs)
      readChainRest total fuel (.either c d) cs
    | cs => .ok (c, cs)

def readPipeline (total : Nat) : Nat → List Char → Reading (Command × List Char)
  | 0, _ => .error .tooLong
  | fuel + 1, cs =>
    let cs := skipBlanks cs
    match afterWord? "!" cs with
    | some cs => do
      let (c, cs) ← readPipeline total fuel cs
      pure (.negated c, cs)
    | none => do
      let (c, cs) ← readCommand total fuel cs
      match skipBlanks cs with
      | '|' :: '|' :: cs => pure (c, '|' :: '|' :: cs)
      | '|' :: cs =>
        let (d, cs) ← readPipeline total fuel (skipLines (cs.length + 1) cs)
        pure (.pipe c d, cs)
      | cs => pure (c, cs)

def readCommand (total : Nat) : Nat → List Char → Reading (Command × List Char)
  | 0, _ => .error .tooLong
  | fuel + 1, cs =>
    match cs with
    | '(' :: cs => do
      let (c, cs) ← readList total fuel false cs
      match cs with
      | ')' :: cs => redirected (.subshell c) cs
      | cs => .error (.unexpected cs (some "\")\""))
    | cs =>
      let word := plainWord cs
      let rest := cs.drop word.length
      match String.ofList word with
      | "if" => do
        let (c, cs) ← readConditional total fuel rest
        redirected (grouped c) cs
      | "while" => do
        let (c, cs) ← readLoop total fuel false rest
        redirected (grouped c) cs
      | "until" => do
        let (c, cs) ← readLoop total fuel true rest
        redirected (grouped c) cs
      | "for" => do
        let (c, cs) ← readEach total fuel rest
        redirected (grouped c) cs
      | "case" => do
        let (w, cs) ← readNextWord (some "word") rest
        let cs ← afterWord "in" (skipLines (cs.length + 1) cs)
        let (c, cs) ← readBranches total fuel w cs
        redirected (grouped c) cs
      | "\x7b" => do
        let (c, cs) ← readList total fuel false rest
        let cs ← afterWord "\x7d" cs
        redirected (grouped c) cs
      | _ =>
        if isReserved word then .error (.unexpected cs none)
        else
          match readFunctionHead? cs with
          | some reading => do
            let (name, cs) ← reading
            let (c, cs) ← readCommand total fuel (skipLines (cs.length + 1) cs)
            pure (.function name c, cs)
          | none => do
            let (s, after) ← readSimple (cs.length + 1) ⟨[], [], []⟩ cs
            match s with
            | ⟨[], [], []⟩ => .error (.unexpected cs none)
            | s => pure (.simple (lineOf total cs) s.assignments s.words s.redirections, after)

/-- Read the rest of a conditional, after the word that begins it. -/
def readConditional (total : Nat) : Nat → List Char → Reading (Command × List Char)
  | 0, _ => .error .tooLong
  | fuel + 1, cs => do
    let (test, cs) ← readList total fuel false cs
    let cs ← afterWord "then" cs
    let (yes, cs) ← readList total fuel false cs
    match afterWord? "else" cs, afterWord? "elif" cs with
    | some cs, _ =>
      let (no, cs) ← readList total fuel false cs
      let cs ← afterWord "fi" cs
      pure (.conditional test yes no, cs)
    | _, some cs =>
      let (no, cs) ← readConditional total fuel cs
      pure (.conditional test yes no, cs)
    | none, none =>
      let cs ← afterWord "fi" cs
      pure (.conditional test yes .skip, cs)

def readBody (total : Nat) : Nat → List Char → Reading (Command × List Char)
  | 0, _ => .error .tooLong
  | fuel + 1, cs => do
    let cs ← afterWord "do" cs
    let (body, cs) ← readList total fuel false cs
    let cs ← afterWord "done" cs
    pure (body, cs)

/-- Read the rest of a loop, after the word that begins it. -/
def readLoop (total : Nat) : Nat → Bool → List Char → Reading (Command × List Char)
  | 0, _, _ => .error .tooLong
  | fuel + 1, stopping, cs => do
    let (test, cs) ← readList total fuel false cs
    let (body, cs) ← readBody total fuel cs
    pure (.loop stopping test body, cs)

/-- Read the rest of a loop through words, after the word that begins it. -/
def readEach (total : Nat) : Nat → List Char → Reading (Command × List Char)
  | 0, _ => .error .tooLong
  | fuel + 1, cs => do
    let cs := skipBlanks cs
    let name := plainWord cs
    if !isName name then
      .error ⟨"Bad for loop variable", (if name = [] then cs.drop 1 else cs).count '\n'⟩
    else
      let cs := skipLines (cs.length + 1) (cs.drop name.length)
      match afterWord? "in" cs with
      | some cs =>
        let (words, cs) ← readWords (cs.length + 1) cs
        match cs with
        | ';' :: ';' :: _ => .error (.unexpected cs none)
        | c :: rest =>
          if c = ';' ∨ c = '\n' then
            let (body, cs) ← readBody total fuel (skipLines (rest.length + 1) rest)
            pure (.each name (some words) body, cs)
          else
            .error (.unexpected cs none)
        | [] => .error (.unexpected cs none)
      | none =>
        let cs := if cs.head? = some ';' then cs.drop 1 else cs
        let (body, cs) ← readBody total fuel (skipLines (cs.length + 1) cs)
        pure (.each name none body, cs)

def readBranches (total : Nat) : Nat → Word → List Char → Reading (Command × List Char)
  | 0, _, _ => .error .tooLong
  | fuel + 1, w, cs => do
    let cs := skipLines (cs.length + 1) cs
    match afterWord? "esac" cs with
    | some cs => pure (.skip, cs)
    | none =>
      let (patterns, cs) ←
        readPatterns (cs.length + 1) (if cs.head? = some '(' then cs.drop 1 else cs)
      let (body, cs) ← readList total fuel true cs
      match cs with
      | ';' :: ';' :: cs =>
        let (rest, cs) ← readBranches total fuel w cs
        pure (.choice w patterns body rest, cs)
      | cs =>
        match afterWord? "esac" cs with
        | some cs => pure (.choice w patterns body .skip, cs)
        | none => .error (.unexpected cs (some "\";;\""))

end

def readLine (total : Nat) : Nat → List Char → Reading (List Command × List Char)
  | 0, _ => .error .tooLong
  | fuel + 1, cs => do
    let (c, cs) ← readChain total (2 * cs.length + 10) cs
    let goOn (cs : List Char) : Reading (List Command × List Char) := do
      match skipBlanks cs with
      | [] => pure ([c], [])
      | '\n' :: cs => pure ([c], cs)
      | cs =>
        let (rest, cs) ← readLine total fuel cs
        pure (c :: rest, cs)
    match skipBlanks cs with
    | [] => pure ([c], [])
    | '\n' :: cs => pure ([c], cs)
    | ';' :: ';' :: cs => .error (.unexpected (';' :: ';' :: cs) none)
    | ';' :: cs => goOn cs
    | '&' :: cs => goOn cs
    | cs => .error (.unexpected cs none)

/-- The commands of the lines of a script up to the first one that cannot be read. -/
def readScript (total : Nat) : Nat → List Char → List Command × Option Fault
  | 0, _ => ([], none)
  | fuel + 1, cs =>
    match skipLines (cs.length + 1) cs with
    | [] => ([], none)
    | cs =>
      match readLine total (cs.length + 1) cs with
      | .error fault => ([], some fault)
      | .ok (first, rest) =>
        let (commands, fault) := readScript total fuel rest
        (first ++ commands, fault)

/-- A script as far as it can be read: its commands, and where and why it goes no further. -/
structure Script where
  commands : List Command
  fault : Option (Nat × String)

def Script.ofSource (source : Raw) : Script :=
  let total := source.count '\n'
  let (commands, fault) := readScript total (source.length + 1) source
  ⟨commands, fault.map fun f => (f.line total, f.message)⟩

end InkServer.Shell
