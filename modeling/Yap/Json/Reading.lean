import Yap.Json.Token

/-! Documents read from their tokens, one after the other, with the arrays and objects that are
still open on a stack. -/
namespace Yap.Json

/-- An array or object that is not closed yet, its parts last first. -/
inductive Open
  | array (items : List Json)
  | object (fields : List (String × Json))
  | field (fields : List (String × Json)) (name : String)

/-- What may come next: a value, a value or the end of an array, a name or the end of an object,
a name, the colon behind one, a comma or an end behind a value, or nothing. -/
inductive Awaiting
  | value | item | firstName | name | colon | separator
  | nothing (j : Json)

namespace Open

abbrev State := Awaiting × List Open

def finish (j : Json) : List Open → State
  | array items :: st => (.separator, array (j :: items) :: st)
  | field fields name :: st => (.separator, object ((name, j) :: fields) :: st)
  | st => (.nothing j, st)

/-- The state behind a token where a value may stand. -/
def begin? (t : Token) (st : List Open) : Option State :=
  match t with
  | .atom j => some (finish j st)
  | .openArray => some (.item, array [] :: st)
  | .openObject => some (.firstName, object [] :: st)
  | _ => none

def close? (t : Token) (st : List Open) : Option State :=
  match t, st with
  | .closeArray, array items :: st => some (finish (.arr items.reverse) st)
  | .closeObject, object fields :: st => some (finish (.obj fields.reverse) st)
  | _, _ => none

def name? (t : Token) (st : List Open) : Option State :=
  match t, st with
  | .atom (.str s), object fields :: st => some (.colon, field fields s :: st)
  | _, _ => none

def step? (t : Token) : State → Option State
  | (.value, st) => begin? t st
  | (.item, st) => (begin? t st).or (close? t st)
  | (.firstName, st) => (name? t st).or (close? t st)
  | (.name, st) => name? t st
  | (.colon, st) =>
    match t with
    | .colon => some (.value, st)
    | _ => none
  | (.separator, st) =>
    match t, st with
    | .comma, array _ :: _ => some (.value, st)
    | .comma, object _ :: _ => some (.name, st)
    | t, st => close? t st
  | (.nothing _, _) => none

def run? : List Token → State → Option Json
  | [], (.nothing j, []) => some j
  | [], _ => none
  | t :: ts, s =>
    match step? t s with
    | some s' => run? ts s'
    | none => none

end Open

def ofTokens? (ts : List Token) : Option Json := Open.run? ts (.value, [])

def ofText? (text : List Char) : Option Json :=
  match Token.all? text with
  | some ts => ofTokens? ts
  | none => none

end Yap.Json
