/-! JSON documents. An object keeps its fields in the order written, repeated names included.
Main statement: two documents are the same exactly when they are equal, so sameness can be
computed. -/
namespace Yap

/-- A document. A number is an integer or, if it was written otherwise, a float. -/
inductive Json
  | null
  | bool (b : Bool)
  | int (n : Int)
  | real (x : Float)
  | str (s : String)
  | arr (items : List Json)
  | obj (fields : List (String × Json))

namespace Json

/-- How many arrays and objects the deepest value stands in. -/
def depth : Json → Nat
  | arr items => depths items + 1
  | obj fields => fieldDepths fields + 1
  | _ => 0
where
  depths : List Json → Nat
    | [] => 0
    | j :: js => max (depth j) (depths js)
  fieldDepths : List (String × Json) → Nat
    | [] => 0
    | (_, j) :: fs => max (depth j) (fieldDepths fs)

/-- Whether two documents are the same; floats are compared by their bits. -/
def same : Json → Json → Bool
  | null, null => true
  | bool a, bool b => a == b
  | int m, int n => m == n
  | real x, real y => x = y
  | str s, str t => s == t
  | arr xs, arr ys => sames xs ys
  | obj fs, obj gs => sameFields fs gs
  | _, _ => false
where
  sames : List Json → List Json → Bool
    | [], [] => true
    | x :: xs, y :: ys => same x y && sames xs ys
    | _, _ => false
  sameFields : List (String × Json) → List (String × Json) → Bool
    | [], [] => true
    | (k, x) :: fs, (l, y) :: gs => k == l && same x y && sameFields fs gs
    | _, _ => false

mutual

theorem same_iff : (a b : Json) → (a.same b = true ↔ a = b)
  | null, b => by cases b <;> simp [same]
  | bool a, b => by cases b <;> simp [same]
  | int m, b => by cases b <;> simp [same]
  | real x, b => by cases b <;> simp [same]
  | str s, b => by cases b <;> simp [same]
  | arr xs, b => by cases b <;> simp [same, sames_iff]
  | obj fs, b => by cases b <;> simp [same, sameFields_iff]

theorem sames_iff : (xs ys : List Json) → (same.sames xs ys = true ↔ xs = ys)
  | [], ys => by cases ys <;> simp [same.sames]
  | x :: xs, ys => by cases ys <;> simp [same.sames, same_iff x, sames_iff xs]

theorem sameFields_iff :
    (fs gs : List (String × Json)) → (same.sameFields fs gs = true ↔ fs = gs)
  | [], gs => by cases gs <;> simp [same.sameFields]
  | (k, x) :: fs, gs => by
    cases gs <;> simp [same.sameFields, same_iff x, sameFields_iff fs, Prod.ext_iff]

end

instance : DecidableEq Json := fun a b => decidable_of_iff _ (same_iff a b)

def fieldsNamed (name : String) (fields : List (String × Json)) : List Json :=
  (fields.filter (·.1 = name)).map (·.2)

/-- The first field of a name, if the document is an object that has one. -/
def field? (name : String) : Json → Option Json
  | obj fields => (fieldsNamed name fields).head?
  | _ => none

end Json
end Yap
