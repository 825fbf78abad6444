import Yap.Json

/-! Shapes that documents give to data: records, names of an enumeration, numbers in a range, and
fields that may be left out. Main statements: a field left out of a record reads as missing, and
fields under other names change nothing. -/
namespace Yap.Json

/-- The value of a field that may be missing and may not be repeated. -/
def sole? : List Json → Option (Option Json)
  | [] => some none
  | [j] => some (some j)
  | _ => none

def pick? (fs : List (String × Json)) : List String → Option (List (Option Json))
  | [] => some []
  | name :: names =>
    match sole? (fieldsNamed name fs), pick? fs names with
    | some j, some js => some (j :: js)
    | _, _ => none

/-- The fields of a record in the order of their names, from an object or, in that order, from the
items of an array, where the last ones may be missing. -/
def fields? (names : List String) : Json → Option (List (Option Json))
  | obj fs => pick? fs names
  | arr js =>
    if js.length ≤ names.length then
      some (js.map some ++ List.replicate (names.length - js.length) none)
    else none
  | _ => none

/-- A field that reads as nothing when it is missing or null. -/
def optional {α : Type} (read : Json → Option α) : Option Json → Option (Option α)
  | none => some none
  | some null => some none
  | some j => (read j).map some

/-- A field that has a value when it is missing. -/
def defaulted {α : Type} (a : α) (read : Json → Option α) : Option Json → Option α
  | none => some a
  | some j => read j

/-- A name of an enumeration, alone or as a field that holds nothing. -/
def enumerated {α : Type} (ofName? : String → Option α) : Nat → Json → Option α
  | _, str s => ofName? s
  | _ + 1, obj [(s, null)] => ofName? s
  | _, _ => none

def integer? (lo hi : Int) : Json → Option Int
  | int n => if lo ≤ n ∧ n ≤ hi then some n else none
  | _ => none

def text? : Json → Option String
  | str s => some s
  | _ => none

theorem fieldsNamed_cons_of_ne {name other : String} (h : other ≠ name) (j : Json)
    (fs : List (String × Json)) : fieldsNamed name ((other, j) :: fs) = fieldsNamed name fs := by
  simp [fieldsNamed, h]

@[simp] theorem fieldsNamed_cons_self (name : String) (j : Json) (fs : List (String × Json)) :
    fieldsNamed name ((name, j) :: fs) = j :: fieldsNamed name fs := by
  simp [fieldsNamed]

theorem fieldsNamed_append (name : String) (fs gs : List (String × Json)) :
    fieldsNamed name (fs ++ gs) = fieldsNamed name fs ++ fieldsNamed name gs := by
  simp [fieldsNamed]

theorem fieldsNamed_eq_nil {name : String} {fs : List (String × Json)}
    (h : ∀ f ∈ fs, f.1 ≠ name) : fieldsNamed name fs = [] := by
  simpa [fieldsNamed] using fun a b hb => h (a, b) hb

/-- Fields under other names change nothing in a record. -/
theorem fields?_append_of_unknown (names : List String) (fs gs : List (String × Json))
    (h : ∀ g ∈ gs, g.1 ∉ names) :
    fields? names (obj (fs ++ gs)) = fields? names (obj fs) := by
  unfold fields?
  induction names with
  | nil => rfl
  | cons name names ih =>
    have hn : fieldsNamed name (fs ++ gs) = fieldsNamed name fs := by
      have hg : fieldsNamed name gs = [] :=
        fieldsNamed_eq_nil fun g hg he => h g hg (by simp [he])
      rw [fieldsNamed_append, hg, List.append_nil]
    have := ih fun g hg hm => h g hg (List.mem_cons_of_mem name hm)
    simp only at this ⊢
    rw [pick?, pick?, hn, this]

@[simp] theorem optional_none {α : Type} (read : Json → Option α) :
    optional read none = some none :=
  rfl

@[simp] theorem optional_null {α : Type} (read : Json → Option α) :
    optional read (some null) = some none := rfl

@[simp] theorem defaulted_none {α : Type} (a : α) (read : Json → Option α) :
    defaulted a read none = some a := rfl

@[simp] theorem enumerated_str {α : Type} (ofName? : String → Option α) (n : Nat) (s : String) :
    enumerated ofName? n (str s) = ofName? s := by cases n <;> rfl

theorem integer?_int {lo hi n : Int} (h : lo ≤ n ∧ n ≤ hi) :
    integer? lo hi (int n) = some n := by
  simp [integer?, h]

end Yap.Json
