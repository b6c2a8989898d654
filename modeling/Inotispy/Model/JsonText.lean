import Inotispy.Model.State

/-! JSON objects as texts.

The program leaves its texts to json-c, which is not part of it. What is assumed of json-c
is stated against the reader below, which follows the grammar of JSON one byte at a time, as
json-c's tokener does: a stack of the containers that are open and the token being read. A
text stands for an object when the reader finishes at its last byte.
-/

set_option autoImplicit false

namespace Inotispy
open Library

namespace JsonText

/-! ## Strings -/

/-- A piece of a string: a byte, or a UTF-16 code unit that was written as an escape. -/
inductive Piece where
  | byte (c : Char)
  | unit (code : UInt16)
  deriving DecidableEq, Repr

def utf8 (code : Nat) : Str :=
  let tail (shift : Nat) : Char := Char.ofNat (0x80 + code / 64 ^ shift % 64)
  if code < 0x80 then [Char.ofNat code]
  else if code < 0x800 then [Char.ofNat (0xC0 + code / 64), tail 0]
  else if code < 0x10000 then [Char.ofNat (0xE0 + code / 64 ^ 2), tail 1, tail 0]
  else [Char.ofNat (0xF0 + code / 64 ^ 3), tail 2, tail 1, tail 0]

def isHigh (code : UInt16) : Bool := 0xD800 ≤ code && code < 0xDC00

def isLow (code : UInt16) : Bool := 0xDC00 ≤ code && code < 0xE000

/-- A code unit that stands alone; half of a pair is replaced. -/
def unitText (code : UInt16) : Str := utf8 (if isHigh code || isLow code then 0xFFFD else code.toNat)

def textOf : List Piece → Str
  | [] => []
  | .byte c :: rest => c :: textOf rest
  | [.unit code] => unitText code
  | .unit high :: .byte c :: rest => unitText high ++ c :: textOf rest
  | .unit high :: .unit low :: rest =>
    if isHigh high && isLow low then
      utf8 (0x10000 + (high.toNat - 0xD800) * 0x400 + (low.toNat - 0xDC00)) ++ textOf rest
    else unitText high ++ textOf (.unit low :: rest)

/-- How much of an escape has been read. -/
inductive Escape where
  | none
  | backslash
  | unicode (digits : Nat) (code : UInt16)
  deriving DecidableEq, Repr

def simpleEscape (c : Char) : Option Char :=
  if c = '"' ∨ c = '\\' ∨ c = '/' then some c
  else if c = 'b' then some '\x08'
  else if c = 'f' then some '\x0c'
  else if c = 'n' then some '\n'
  else if c = 'r' then some '\r'
  else if c = 't' then some '\t'
  else none

def hexDigit (c : Char) : Option UInt16 :=
  if c.isDigit then some (c.toNat - '0'.toNat).toUInt16
  else if 'a' ≤ c ∧ c ≤ 'f' then some (c.toNat - 'a'.toNat + 10).toUInt16
  else if 'A' ≤ c ∧ c ≤ 'F' then some (c.toNat - 'A'.toNat + 10).toUInt16
  else none

/-! ## Numbers -/

def isNumberChar (c : Char) : Bool := c.isDigit || c = '-' || c = '+' || c = '.' || c = 'e' || c = 'E'

def allDigits (text : Str) : Bool := text ≠ [] && text.all Char.isDigit

def exponentOk : Str → Bool
  | [] => true
  | e :: rest =>
    let rest := if rest.head? = some '+' ∨ rest.head? = some '-' then rest.tail else rest
    (e = 'e' || e = 'E') && allDigits rest

def fractionOk (text : Str) : Bool :=
  if text.head? = some '.' then
    let rest := text.tail
    allDigits (rest.takeWhile Char.isDigit) && exponentOk (rest.dropWhile Char.isDigit)
  else exponentOk text

/-- The value of a number, given its digits and what follows them: an integer if nothing does. -/
def numberValue (text : Str) (negative : Bool) (whole rest : Str) : Option Json :=
  if whole = [] ∨ whole.head? = some '0' ∧ whole ≠ ['0'] then none
  else if rest = [] then
    let value : Int := Nat.ofDigitChars 10 whole 0
    some (.int (if negative then -value else value))
  else if fractionOk rest then some (.double text)
  else none

def numberOf (text : Str) : Option Json :=
  let negative : Bool := text.head? = some '-'
  let body := if negative then text.tail else text
  numberValue text negative (body.takeWhile Char.isDigit) (body.dropWhile Char.isDigit)

/-! ## The reader -/

/-- A container that is open: the items so far, or the members so far and the key whose value
comes next. -/
inductive Container where
  | array (items : List Json)
  | object (members : List (Str × Json)) (key : Str)

inductive Lexeme where
  /-- After the brace or bracket that opens a container. -/
  | first
  /-- After a comma. -/
  | item
  | colon
  | value
  /-- After a value. -/
  | after
  | string (asKey : Bool) (pieces : List Piece) (escape : Escape)
  | number (text : Str)
  /-- Of `true` or `false`, or else of `null`, that many bytes have been read. -/
  | literal (value : Option Bool) (read : Nat)

inductive State where
  | start
  | reading (opened : List Container) (lexeme : Lexeme)
  | finished (members : List (Str × Json))
  | failed

/-- A member with a key that is there already takes the place of the one before. -/
def setMember : List (Str × Json) → Str → Json → List (Str × Json)
  | [], key, value => [(key, value)]
  | (name, old) :: rest, key, value =>
    if name = key then (key, value) :: rest else (name, old) :: setMember rest key value

def store (value : Json) : List Container → List Container
  | [] => []
  | .array items :: outer => .array (items ++ [value]) :: outer
  | .object members key :: outer => .object (setMember members key value) key :: outer

/-- A container is closed. The outermost one is the object that the text stands for. -/
def closeArray (items : List Json) (outer : List Container) : State :=
  if outer.isEmpty then .failed else .reading (store (.array items) outer) .after

def closeObject (members : List (Str × Json)) (outer : List Container) : State :=
  if outer.isEmpty then .finished members else .reading (store (.object members) outer) .after

def isBlank (c : Char) : Bool := c = ' ' || c = '\t' || c = '\n' || c = '\r'

def afterValue (opened : List Container) (c : Char) : State :=
  if isBlank c then .reading opened .after
  else if c = ',' then .reading opened .item
  else
    match opened with
    | .array items :: outer => if c = ']' then closeArray items outer else .failed
    | .object members _ :: outer => if c = '\x7d' then closeObject members outer else .failed
    | [] => .failed

def beginValue (opened : List Container) (c : Char) : State :=
  if isBlank c then .reading opened .value
  else if c = '\x7b' then .reading (.object [] [] :: opened) .first
  else if c = '[' then .reading (.array [] :: opened) .first
  else if c = '"' then .reading opened (.string false [] .none)
  else if c = '-' ∨ c.isDigit then .reading opened (.number [c])
  else if c = 't' then .reading opened (.literal (some true) 1)
  else if c = 'f' then .reading opened (.literal (some false) 1)
  else if c = 'n' then .reading opened (.literal none 1)
  else .failed

/-- In an object a key comes first, in an array a value. -/
def beginItem (opened : List Container) (c : Char) : State :=
  match opened with
  | .object _ _ :: _ =>
    if isBlank c then .reading opened .item
    else if c = '"' then .reading opened (.string true [] .none)
    else .failed
  | _ => beginValue opened c

def beginFirst (opened : List Container) (c : Char) : State :=
  if isBlank c then .reading opened .first
  else
    match opened with
    | .array items :: outer => if c = ']' then closeArray items outer else beginValue opened c
    | .object members _ :: outer => if c = '\x7d' then closeObject members outer else beginItem opened c
    | [] => .failed

def endString (opened : List Container) (asKey : Bool) (text : Str) : State :=
  if asKey then
    match opened with
    | .object members _ :: outer => .reading (.object members text :: outer) .colon
    | _ => .failed
  else .reading (store (.string text) opened) .after

/-- The byte stands for itself in a string. JSON leaves control characters out; `takes` says which
of them the reader lets pass. -/
def plain (takes : Char → Bool) (c : Char) : Bool := c ≠ '"' && c ≠ '\\' && (0x20 ≤ c.toNat || takes c)

def inString (takes : Char → Bool) (opened : List Container) (asKey : Bool) (pieces : List Piece) (escape : Escape)
    (c : Char) : State :=
  match escape with
  | .none =>
    if c = '"' then endString opened asKey (textOf pieces)
    else if c = '\\' then .reading opened (.string asKey pieces .backslash)
    else if plain takes c then .reading opened (.string asKey (pieces ++ [.byte c]) .none)
    else .failed
  | .backslash =>
    if c = 'u' then .reading opened (.string asKey pieces (.unicode 0 0))
    else
      match simpleEscape c with
      | some d => .reading opened (.string asKey (pieces ++ [.byte d]) .none)
      | none => .failed
  | .unicode digits code =>
    match hexDigit c with
    | some digit =>
      let code := code * 16 + digit
      if digits = 3 then .reading opened (.string asKey (pieces ++ [.unit code]) .none)
      else .reading opened (.string asKey pieces (.unicode (digits + 1) code))
    | none => .failed

def inNumber (opened : List Container) (text : Str) (c : Char) : State :=
  if isNumberChar c then .reading opened (.number (text ++ [c]))
  else
    match numberOf text with
    | some value => afterValue (store value opened) c
    | none => .failed

def literalText : Option Bool → Str
  | some true => ['t', 'r', 'u', 'e']
  | some false => ['f', 'a', 'l', 's', 'e']
  | none => ['n', 'u', 'l', 'l']

def literalValue : Option Bool → Json
  | some value => .boolean value
  | none => .null

def inLiteral (opened : List Container) (value : Option Bool) (read : Nat) (c : Char) : State :=
  if (literalText value)[read]? ≠ some c then .failed
  else if read + 1 = (literalText value).length then .reading (store (literalValue value) opened) .after
  else .reading opened (.literal value (read + 1))

def step (takes : Char → Bool) : State → Char → State
  | .start, c =>
    if isBlank c then .start else if c = '\x7b' then .reading [.object [] []] .first else .failed
  | .reading opened .first, c => beginFirst opened c
  | .reading opened .item, c => beginItem opened c
  | .reading opened .colon, c =>
    if isBlank c then .reading opened .colon else if c = ':' then .reading opened .value else .failed
  | .reading opened .value, c => beginValue opened c
  | .reading opened .after, c => afterValue opened c
  | .reading opened (.string asKey pieces escape), c => inString takes opened asKey pieces escape c
  | .reading opened (.number text), c => inNumber opened text c
  | .reading opened (.literal value read), c => inLiteral opened value read c
  | .finished _, _ => .failed
  | .failed, _ => .failed

def run (takes : Char → Bool) (state : State) (text : Str) : State := text.foldl (step takes) state

/-- The text of an object, from its first byte to its closing brace. -/
def IsObject (takes : Char → Bool) (text : Str) (members : List (Str × Json)) : Prop :=
  run takes .start text = .finished members

def IsIncomplete (takes : Char → Bool) (text : Str) : Prop :=
  ∃ rest members, rest ≠ [] ∧ IsObject takes (text ++ rest) members

/-- The object that a text starts with, read on from a state. -/
def value? (takes : Char → Bool) : State → Str → Option Json
  | .finished members, _ => some (.object members)
  | _, [] => none
  | state, c :: rest => value? takes (step takes state c) rest

end JsonText
end Inotispy
