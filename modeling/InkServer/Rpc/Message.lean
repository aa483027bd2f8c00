import InkServer.Json.Basic

/-!
This module contains the messages of the connection: requests and notices of the editor, replies to
either side, and the codes of errors.
-/

namespace InkServer

inductive Refusal where
  | invalidRequest
  | methodNotFound
  | invalidParams
  | notInitialized
deriving DecidableEq

/-- The code of a refusal is the negative of this number. -/
def Refusal.magnitude : Refusal → Nat
  | invalidRequest => 32600
  | methodNotFound => 32601
  | invalidParams => 32602
  | notInitialized => 32002

def Json.ofNegative (magnitude : Nat) : Json :=
  .number (.negative (magnitude - 1))

inductive Reply where
  | result (value : Json)
  | error (code : Json) (message : String)

def Reply.refuse (r : Refusal) (message : String) : Reply :=
  .error (.ofNegative r.magnitude) message

def Reply.toJson (id : Json) : Reply → Json
  | .result value => .ofMembers [("jsonrpc", .string "2.0"), ("id", id), ("result", value)]
  | .error code message =>
    .ofMembers
      [("jsonrpc", .string "2.0"), ("id", id),
       ("error", .ofMembers [("code", code), ("message", .string message)])]

def requestJson (id : Nat) (method : String) (params : Option Json) : Json :=
  .ofMembers <|
    [("jsonrpc", .string "2.0"), ("id", .ofNat id), ("method", .string method)] ++
    (params.map fun p => ("params", p)).toList

def noticeJson (method : String) (params : Json) : Json :=
  .ofMembers [("jsonrpc", .string "2.0"), ("method", .string method), ("params", params)]

inductive Incoming where
  /-- The reply to a request of this server. -/
  | reply (id : Nat) (body : Json)
  | request (id : Json) (method : String) (params : Json)
  | notice (method : String) (params : Json)

namespace Incoming

def id? (frame : Json) : Option Json :=
  (frame.get? "id").filter fun v => !v.isNull

def ofJson? (frame : Json) : Option Incoming :=
  let params := (frame.get? "params").getD .null
  match id? frame, (frame.get? "method").bind Json.string? with
  | some id, some method => some (.request id method params)
  | none, some method => some (.notice method params)
  | some id, none =>
    if (frame.get? "result").isSome || (frame.get? "error").isSome then
      id.natural?.map fun n => .reply n frame
    else
      none
  | none, none => none

end Incoming

end InkServer
