import InkServer.Shell.Pattern
import InkServer.Shell.State

/-!
This module contains the expansion of words: parameters, numbers and what commands print take their
places, what is not quoted is split into fields, and patterns become the names of files.
-/

namespace InkServer.Shell

open Text

/-- The fields of words that are being expanded: the complete ones, the last one first, and the one
that is open. -/
structure Fields where
  complete : List Pattern
  current : Option Pattern

namespace Fields

def empty : Fields := ⟨[], none⟩

def cut (f : Fields) : Fields :=
  match f.current with
  | some p => ⟨p :: f.complete, none⟩
  | none => f

def add (f : Fields) (p : Pattern) : Fields :=
  { f with current := some (f.current.getD [] ++ p) }

/-- Add a piece that is split at its unquoted separators. Blanks among them count as one, together
with one other separator; `afterBlank` says that a blank has just ended a field. -/
def addSplit (separators : Raw) : Bool → Fields → Pattern → Fields
  | _, f, [] => f
  | afterBlank, f, (c, quoted) :: p =>
    if quoted ∨ !separators.contains c then
      addSplit separators false (f.add [(c, quoted)]) p
    else if c = ' ' ∨ c = '\t' ∨ c = '\n' then
      addSplit separators (afterBlank || f.current.isSome) f.cut p
    else if afterBlank then
      addSplit separators false f p
    else
      addSplit separators false (f.add []).cut p

/-- Add quoted fields, of which the first goes on with the open one. -/
def addFields (f : Fields) : List Raw → Fields
  | [] => f
  | [t] => f.add (.quoted t)
  | t :: ts => (f.add (.quoted t)).cut.addFields ts

def toList (f : Fields) : List Pattern :=
  f.cut.complete.reverse

end Fields

/-- The number of the process of the shell. -/
def processNumber : Nat := 4242

def State.joinedArguments (s : State) : Raw :=
  match s.separators with
  | c :: _ => joined c s.arguments
  | [] => s.arguments.flatten

def parameter? (s : State) (name : Raw) : Option Raw :=
  match name with
  | ['@'] => if s.arguments = [] then none else some (joined ' ' s.arguments)
  | ['*'] => if s.arguments = [] then none else some s.joinedArguments
  | ['#'] => some (numeral s.arguments.length).toList
  | ['?'] => some (numeral s.status).toList
  | ['$'] => some (numeral processNumber).toList
  | ['-'] => some ((if s.stopsOnError then ['e'] else []) ++ if s.refusesUnset then ['u'] else [])
  | ['!'] => none
  | _ =>
    if name.all isAsciiDigit then
      match numeralValue name with
      | 0 => some s.name
      | n + 1 => s.arguments[n]?
    else
      s.value? name

def State.take (s : State) (name : Raw) : Act (State × Raw) :=
  match parameter? s name with
  | some v => pure (s, v)
  | none =>
    if s.refusesUnset ∧ name ≠ ['@'] ∧ name ≠ ['*'] then do
      let s ← s.fail (name ++ ": parameter not set".toList)
      pure (s, [])
    else
      pure (s, [])

abbrev Substitution := Raw → State → Act (State × Raw)

/-- What a part stands for, before it is split into fields. The fuel is for texts within texts. -/
def expandPart (substitute : Substitution) : Nat → State → Part → Act (State × Pattern)
  | 0, s, _ => pure (s, [])
  | fuel + 1, s, p =>
    let tagged (t : Raw) : Pattern := t.map fun c => (c, p.isQuoted)
    let value (s : State) (name : Raw) : Act (State × Pattern) := do
      let (s, v) ← s.take name
      pure (s, tagged v)
    match p with
    | .text t _ => pure (s, tagged t)
    | .parameter name form quoted =>
      let isGiven (orEmpty : Bool) : Bool :=
        match parameter? s name with
        | some v => !(orEmpty && v.isEmpty)
        | none => false
      let other (source : Raw) : Act (State × Pattern) :=
        parts fuel s (if quoted then quotedParts source else plainParts source)
      match form with
      | .value => value s name
      | .length => do
        let (s, v) ← s.take name
        pure (s, tagged (numeral v.length).toList)
      | .orElse orEmpty source => if isGiven orEmpty then value s name else other source
      | .ifGiven orEmpty source => if isGiven orEmpty then other source else pure (s, [])
      | .orAssign orEmpty source =>
        if isGiven orEmpty then value s name
        else do
          let (s, t) ← other source
          if isName name then pure (s.setVariable name t.text, tagged t.text)
          else
            let s ← s.fail (name ++ ": bad variable name".toList)
            pure (s, [])
      | .orFail orEmpty source =>
        if isGiven orEmpty then value s name
        else do
          let (s, t) ← other source
          let why : Raw :=
            if t ≠ [] then t.text
            else if orEmpty then "parameter not set or null".toList
            else "parameter not set".toList
          let s ← s.fail (name ++ ": ".toList ++ why)
          pure (s, [])
      | .without atEnd longest source => do
        let (s, v) ← s.take name
        let (s, form) ← parts fuel s (plainParts source)
        pure (s, tagged (if atEnd then form.dropEnd longest v else form.dropStart longest v))
      | .unknown => do
        let s ← s.fail "Bad substitution".toList
        pure (s, [])
    | .arithmetic source _ => do
      let (s, source) ← parts fuel s (quotedParts source)
      match arithmetic s.bindings source.text with
      | .ok (n, bindings) => pure ({ s with bindings }, tagged (numberText n))
      | .error e =>
        let s ← s.fail (e.message source.text)
        pure (s, [])
    | .output source _ => do
      let (s, t) ← substitute source s
      pure (s, tagged t)
where
  /-- What the parts of a word stand for together. -/
  parts (fuel : Nat) (s : State) (ps : List Part) : Act (State × Pattern) :=
    match ps with
    | [] => pure (s, [])
    | p :: ps => do
      let (s, t) ← expandPart substitute fuel s p
      let (s, ts) ← parts fuel s ps
      pure (s, t ++ ts)

def expansionDepth : Nat := 100

def addParts (substitute : Substitution) : State → Fields → Word → Act (State × Fields)
  | s, f, [] => pure (s, f)
  | s, f, p :: ps => do
    match p with
    | .parameter ['@'] .value true => addParts substitute s (f.addFields s.arguments) ps
    | p =>
      let (s, t) ← expandPart substitute expansionDepth s p
      let f := if p.isQuoted || p.isText then f.add t else Fields.addSplit s.separators false f t
      addParts substitute s f ps

def expandWords (substitute : Substitution) : State → List Word → Act (State × List Raw)
  | s, [] => pure (s, [])
  | s, w :: ws => do
    let (s, f) ← addParts substitute s .empty w
    let d ← Act.disk
    let (s, fs) ← expandWords substitute s ws
    pure (s, f.toList.flatMap (Pattern.files d s.folder) ++ fs)

def expandPattern (substitute : Substitution) (s : State) (w : Word) : Act (State × Pattern) :=
  expandPart.parts substitute expansionDepth s w

def expandText (substitute : Substitution) (s : State) (w : Word) : Act (State × Raw) := do
  let (s, p) ← expandPattern substitute s w
  pure (s, p.text)

end InkServer.Shell
