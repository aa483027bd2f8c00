import InkServer.Story.Diagnostic
import InkServer.Story.Event
import InkServer.Text.Blank
import InkServer.Text.Split

/-!
This module contains the lines that the story compiler prints, and the recognition of one line.
-/

namespace InkServer

open Text

def endOfStory : List Char := "--- End of story ---".toList

def promptMark : List Char := "?>".toList

inductive OutputLine where
  /-- A diagnostic, with the file that it names, relative to the directory of the main story. -/
  | diagnostic (kind : Kind) (file : Option String) (line : Nat) (message : String)
  | tags (tags : List String)
  | choice (choice : Choice)
  | prompt
  | endOfStory
  | text (text : String)
deriving DecidableEq

structure DiagnosticShape where
  words : List Char
  file : Option (List Char)
  digits : List Char
  message : List Char
deriving DecidableEq

namespace DiagnosticShape

def isUpper (c : Char) : Bool :=
  65 ≤ c.toNat && c.toNat ≤ 90

/-- Upper-case words, of at least two letters in all. -/
def isWords (cs : List Char) : Bool :=
  cs.length ≥ 2 && cs.all (fun c => isUpper c || c = ' ') &&
    (cs.head?.map isUpper).getD false && (cs.getLast?.map isUpper).getD false

/-- A quoted file name and the blanks after it, when the text begins with a quote. -/
def quotedFile? : List Char → Option (Option (List Char) × List Char)
  | '\x27' :: rest =>
    match splitFirst? '\x27' rest with
    | some (c :: file, b :: after) =>
      if isBlank b then some (some (c :: file), trimStart after) else none
    | _ => none
  | cs => some (none, cs)

def lineWord : List Char := "line ".toList

def ofChars? (cs : List Char) : Option DiagnosticShape :=
  match splitFirst? ':' cs with
  | none => none
  | some (words, rest) =>
    if !isWords words then none
    else
      match quotedFile? (trimStart rest) with
      | none => none
      | some (file, rest) =>
        match afterStart? lineWord rest with
        | none => none
        | some rest =>
          let digits := rest.takeWhile isDigit
          match digits, rest.dropWhile isDigit with
          | _ :: _, ':' :: tail =>
            let message := trimStart tail
            if message.contains '\n' then none else some ⟨words, file, digits, message⟩
          | _, _ => none

end DiagnosticShape

def tagItems (cs : List Char) : List String :=
  (((pieces ',' cs).map trim).filter (· ≠ [])).map String.ofList

def tagsText? (cs : List Char) : Option (List Char) :=
  match afterStart? "# tags: ".toList cs with
  | some rest => if rest.contains '\n' then none else some rest
  | none => none

def choiceShape? (cs : List Char) : Option (List Char × List Char) :=
  match cs.takeWhile isDigit, cs.dropWhile isDigit with
  | c :: digits, ':' :: ' ' :: text =>
    if text.contains '\n' then none else some (c :: digits, text)
  | _, _ => none

def choice? (cs : List Char) : Option Choice :=
  match choiceShape? cs with
  | some (digits, text) => (readDigits? bound32 digits).map fun n => ⟨n, String.ofList text⟩
  | none => none

namespace OutputLine

/-- The diagnostic with the given parts, if its words are a marker and its digits a number of 32
bits. -/
def ofShape? (shape : DiagnosticShape) : Option OutputLine :=
  match Kind.ofMarker? shape.words, readDigits? bound32 shape.digits with
  | some kind, some line =>
    some (.diagnostic kind (shape.file.map String.ofList) line (String.ofList shape.message))
  | _, _ => none

def ofPlain? (cs : List Char) : Option OutputLine :=
  match tagsText? cs with
  | some rest => some (.tags (tagItems rest))
  | none =>
    match choice? cs with
    | some c => some (.choice c)
    | none =>
      if promptMark.isPrefixOf cs then some .prompt
      else if cs = InkServer.endOfStory then some .endOfStory
      else if allBlank cs then none
      else some (.text (String.ofList cs))

/-- Recognize a line without its end. A carriage return at the end does not count. -/
def classify? (line : List Char) : Option OutputLine :=
  let cs := dropFinal '\r' line
  match DiagnosticShape.ofChars? cs with
  | some shape => ofShape? shape
  | none => ofPlain? cs

end OutputLine

end InkServer
