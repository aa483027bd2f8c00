import InkServer.Json.Basic
import InkServer.Number.Shortest
import InkServer.Text.Quoted

/-!
This module contains the two texts of a JSON value: the compact one that is sent, and the one that
shows the structure of a value inside a message.
-/

namespace InkServer

open Text

def Number.text : Number → List Char
  | .natural n => Nat.toDigits 10 n
  | .negative n => '-' :: Nat.toDigits 10 (n + 1)
  | .float x => x.text

namespace Json

def unicodeEscape (c : Char) : List Char :=
  let ds := hexText c.toNat
  ['\\', 'u'] ++ List.replicate (4 - ds.length) '0' ++ ds

def escapeChar (c : Char) : List Char :=
  if c = '"' then ['\\', '"']
  else if c = '\\' then ['\\', '\\']
  else if c = '\n' then ['\\', 'n']
  else if c = '\r' then ['\\', 'r']
  else if c = '\t' then ['\\', 't']
  else if c = '\x08' then ['\\', 'b']
  else if c = '\x0c' then ['\\', 'f']
  else if c.toNat < 0x20 then unicodeEscape c
  else [c]

def stringText (s : String) : List Char :=
  '"' :: s.toList.flatMap escapeChar ++ ['"']

mutual

def text : Json → List Char
  | .null => "null".toList
  | .bool true => "true".toList
  | .bool false => "false".toList
  | .number n => n.text
  | .string s => stringText s
  | .array [] => ['[', ']']
  | .array (v :: vs) => '[' :: text v ++ itemsText vs ++ [']']
  | .object [] => ['\x7b', '\x7d']
  | .object ((k, v) :: ms) =>
    '\x7b' :: stringText k ++ ':' :: text v ++ membersText ms ++ ['\x7d']

def itemsText : List Json → List Char
  | [] => []
  | v :: vs => ',' :: text v ++ itemsText vs

def membersText : List (String × Json) → List Char
  | [] => []
  | (k, v) :: ms => ',' :: stringText k ++ ':' :: text v ++ membersText ms

end

def compact (v : Json) : String :=
  String.ofList v.text

mutual

def shape : Json → String
  | .null => "Null"
  | .bool true => "Bool(true)"
  | .bool false => "Bool(false)"
  | .number n => "Number(" ++ String.ofList n.text ++ ")"
  | .string s => "String(" ++ quoted s ++ ")"
  | .array vs => "Array [" ++ String.intercalate ", " (shapes vs) ++ "]"
  | .object ms => "Object \x7b" ++ String.intercalate ", " (memberShapes ms) ++ "\x7d"

def shapes : List Json → List String
  | [] => []
  | v :: vs => shape v :: shapes vs

def memberShapes : List (String × Json) → List String
  | [] => []
  | (k, v) :: ms => (quoted k ++ ": " ++ shape v) :: memberShapes ms

end

end Json

end InkServer
