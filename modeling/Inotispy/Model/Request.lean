import Inotispy.Model.Primitives

/-! Requests: `request.c`, over json-c. -/

set_option autoImplicit false

namespace Inotispy
open Library

variable {σ : Type} [System σ]

/-- `Request`. A copy that could not be allocated is null. -/
structure Request where
  call : Option Str
  json : Option Str
  parser : Json

/-- `json_object_object_get`: null for a missing member, for a member that is JSON
null and for a value that is no object. -/
def Json.objectGet : Json → Str → Option Json
  | .object members, key =>
    match members.lookup key with
    | some .null => none
    | found => found
  | _, _ => none

/-- `json_object_get_int`, which clamps to the range of `int`. -/
def Json.getInt (value : Int) : Int32 :=
  Int32.ofInt (max (-2147483648) (min 2147483647 value))

/-- What `request_parse` returns: a null pointer, the pointer -1, or a request. -/
inductive Parsed where
  | null
  | failed
  | request (req : Request)

/-- `request_parse`, with `_parse_json` inlined. JSON null is the null object. -/
def requestParse (json : Str) : M σ Parsed := do
  match System.jsonTokenerParse (σ := σ) json with
  | none | some .null => return .null
  | some jobj =>
    match jobj.objectGet (str "call") with
    | some (.string call) =>
      if !(← malloc) then return .failed
      let call ← mkString (CString.ofBuffer call)
      let copy ← mkString json
      return .request { call := call, json := copy, parser := jobj }
    | _ => return .null

def requestGetKeyStr (req : Request) (key : Str) : Option Str :=
  match req.parser.objectGet key with
  | some (.string text) => some (CString.ofBuffer text)
  | _ => none

/-- `request_get_key_int`; -1 stands for a missing key and for a value of another type. -/
def requestGetKeyInt (req : Request) (key : Str) : Int32 :=
  match req.parser.objectGet key with
  | some (.int value) => Json.getInt value
  | _ => -1

/-- The loop of `request_get_path` with `count` characters before it. Past the first
one it reads a byte that is not part of the string. -/
def trimLoop (path : Str) : Nat → Str
  | 0 => path
  | count + 1 =>
    if path.getD count '\x00' = '/' then trimLoop (path.take count) count else path

def requestGetPath (req : Request) : Option Str :=
  (requestGetKeyStr req (str "path")).map fun path =>
    if 0 < path.length ∧ path ≠ str "/" then trimLoop path path.length else path

/-- `request_get_max_events` and `request_get_mask` differ in the key they read. -/
def requestGetIntOrZero (key : Str) (req : Request) : Int32 :=
  let value := requestGetKeyInt req key
  if value = -1 then 0 else value

def requestGetMaxEvents : Request → Int32 := requestGetIntOrZero (str "max_events")

def requestGetMask : Request → Int32 := requestGetIntOrZero (str "mask")

def requestGetRewatch (req : Request) : Bool :=
  requestGetKeyInt req (str "rewatch") ≠ -1

def requestGetCount (req : Request) : Int32 :=
  let count := requestGetKeyInt req (str "count")
  if count = -1 then 1 else if count < 0 then -1 else count

end Inotispy
