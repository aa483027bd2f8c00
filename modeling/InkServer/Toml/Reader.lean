import InkServer.Toml.Scalar

/-!
This module contains the reading of TOML documents.
-/

namespace InkServer.Toml

open Text

def isBareChar (c : Char) : Bool :=
  isAsciiDigit c || ('a' ≤ c && c ≤ 'z') || ('A' ≤ c && c ≤ 'Z') || c = '_' || c = '-'

def keyPart? (cs : List Char) : Option (String × List Char) :=
  match cs with
  | '"' :: _ => quotedText? cs
  | '\x27' :: _ => quotedText? cs
  | _ =>
    let bare := cs.takeWhile isBareChar
    if bare = [] then none else some (String.ofList bare, cs.dropWhile isBareChar)

/-- A key, with points between its parts, and what follows it and the blanks after it. -/
def key? : Nat → List Char → Option (List String × List Char)
  | 0, _ => none
  | fuel + 1, cs =>
    match keyPart? (skipSpace cs) with
    | none => none
    | some (part, rest) =>
      match skipSpace rest with
      | '.' :: rest => (key? fuel rest).map fun (parts, rest) => (part :: parts, rest)
      | rest => some ([part], rest)

def skipComment? (cs : List Char) : Option (List Char) :=
  match cs with
  | '#' :: rest =>
    let rest := rest.dropWhile isPlain
    match rest with
    | [] => some []
    | _ => if (lineEnd? rest).isSome then some rest else none
  | _ => some cs

def skipLines? : Nat → List Char → Option (List Char)
  | 0, _ => none
  | fuel + 1, cs =>
    match skipComment? (skipSpace cs) with
    | none => none
    | some rest =>
      match lineEnd? rest with
      | some rest => skipLines? fuel rest
      | none => some rest

/-- How many arrays and tables between braces may stand inside one another. -/
def maxDepth : Nat := 80

mutual

def value? (depth : Nat) : Nat → List Char → Option (Value × List Char)
  | 0, _ => none
  | fuel + 1, cs =>
    match cs with
    | '"' :: _ => (string? cs).map fun (s, rest) => (.string s, rest)
    | '\x27' :: _ => (string? cs).map fun (s, rest) => (.string s, rest)
    | '[' :: rest =>
      if depth < maxDepth then
        (items? (depth + 1) fuel [] rest).map fun (vs, rest) => (.array vs, rest)
      else none
    | '\x7b' :: rest =>
      if depth < maxDepth then
        (entries? (depth + 1) fuel [] rest).map fun (es, rest) => (.table .inline es, rest)
      else none
    | _ =>
      let (w, rest) := word cs
      (ofWord? w).map fun v => (v, rest)

/-- The items of an array up to its end. A comma may follow the last one. -/
def items? (depth : Nat) : Nat → List Value → List Char → Option (List Value × List Char)
  | 0, _, _ => none
  | fuel + 1, before, cs =>
    match skipLines? (cs.length + 1) cs with
    | none => none
    | some (']' :: rest) => some (before.reverse, rest)
    | some cs =>
      match value? depth fuel cs with
      | none => none
      | some (v, rest) =>
        match skipLines? (rest.length + 1) rest with
        | some (',' :: rest) => items? depth fuel (v :: before) rest
        | some (']' :: rest) => some ((v :: before).reverse, rest)
        | _ => none

/-- The entries of a table between braces up to its end. A comma may follow the last one. -/
def entries? (depth : Nat) : Nat → Entries → List Char → Option (Entries × List Char)
  | 0, _, _ => none
  | fuel + 1, before, cs =>
    match skipLines? (cs.length + 1) cs with
    | none => none
    | some ('\x7d' :: rest) => some (before, rest)
    | some cs =>
      match key? (cs.length + 1) cs with
      | some (keys, '=' :: rest) =>
        match value? depth fuel (skipSpace rest) with
        | none => none
        | some (v, rest) =>
          match assign? v keys before with
          | none => none
          | some entries =>
            match skipLines? (rest.length + 1) rest with
            | some (',' :: rest) => entries? depth fuel entries rest
            | some ('\x7d' :: rest) => some (entries, rest)
            | _ => none
      | _ => none

end

/-- A document that has been read up to some line: its entries and the header that is open. -/
structure Draft where
  entries : Entries
  current : List String

/-- One line of a document, and what follows it up to its end. -/
def expression? (doc : Draft) (cs : List Char) : Option (Draft × List Char) :=
  match cs with
  | '[' :: '[' :: rest =>
    match key? (rest.length + 1) rest with
    | some (keys, ']' :: ']' :: rest) =>
      (openItem? keys doc.entries).map fun entries => (⟨entries, keys⟩, rest)
    | _ => none
  | '[' :: rest =>
    match key? (rest.length + 1) rest with
    | some (keys, ']' :: rest) =>
      (openTable? keys doc.entries).map fun entries => (⟨entries, keys⟩, rest)
    | _ => none
  | _ =>
    match key? (cs.length + 1) cs with
    | some (keys, '=' :: rest) =>
      match value? 0 (2 * rest.length + 2) (skipSpace rest) with
      | some (v, rest) =>
        (inCurrent? (assign? v keys) doc.current doc.entries).map fun entries =>
          ({ doc with entries }, rest)
      | none => none
    | _ => none

def lines? : Nat → Draft → List Char → Option Draft
  | 0, _, _ => none
  | fuel + 1, doc, cs =>
    match skipLines? (cs.length + 1) cs with
    | none => none
    | some [] => some doc
    | some cs =>
      match expression? doc cs with
      | none => none
      | some (doc, rest) =>
        match skipComment? (skipSpace rest) with
        | none => none
        | some [] => some doc
        | some rest =>
          match lineEnd? rest with
          | some rest => lines? fuel doc rest
          | none => none

/-- The entries of a document. A byte order mark in front of it does not count. -/
def document? (cs : List Char) : Option Entries :=
  let cs :=
    match cs with
    | c :: rest => if c = '\uFEFF' then rest else cs
    | [] => []
  (lines? (cs.length + 1) ⟨[], []⟩ cs).map Draft.entries

end InkServer.Toml
