import Yap.Machine.Evaluation
import Yap.Proofs.Floats
import Yap.Proofs.Slots

/-! Stepping variables. Main statement: the increments and decrements store what adding or
subtracting one gives, at the kind of the variable, and change nothing else, but for the decrement
of a bool that is true: the amount is converted to the kind of the old value, where minus one is
true. -/
namespace Yap

namespace Value

open Numeral

def stepped (op : BinaryOp) (k : Kind) (v : Value) : Value :=
  ((binary op v ((int 1).convert v.kind.numeric) false).value).convert k

/-- The sum with an amount that is converted to the kind of the value first. -/
def plus (v : Value) (delta : Int32) : Value :=
  (binary .add v ((int delta).convert v.kind) false).value

theorem plus_one (k : Kind) (v : Value) : (v.plus 1).convert k = v.stepped .add k := by
  cases v with
  | bool b => cases b <;> rfl
  | _ => rfl

theorem plus_neg_one (k : Kind) {v : Value} (hv : v.kind ≠ .bool) :
    (v.plus (-1)).convert k = v.stepped .sub k := by
  cases v with
  | short n =>
    have h : n - 1 = n + -1 := Int16.sub_eq_add_neg n 1
    exact congrArg (fun y => (short y).convert k) h.symm
  | int n =>
    have h : n - 1 = n + -1 := Int32.sub_eq_add_neg n 1
    exact congrArg (fun y => (int y).convert k) h.symm
  | float x =>
    have h : x - toSingle (ofInt 1) = x + toSingle (ofInt (-1)) := Native.single.sub_eq_add rfl x
    exact congrArg (fun y => (float y).convert k) h.symm
  | double x =>
    have h : x - toDouble (ofInt 1) = x + toDouble (ofInt (-1)) := Native.double.sub_eq_add rfl x
    exact congrArg (fun y => (double y).convert k) h.symm
  | bool b => exact absurd rfl hv

/-- At kind bool the amount is true in either direction, so a decrement gives true. -/
theorem plus_bool (delta : Int32) (hd : delta ≠ 0) (b : Bool) :
    ((bool b).plus delta).convert .bool = bool true := by
  have hamount : (int delta).convert .bool = bool true := by simpa [convert, isTruthy] using hd
  rw [plus, kind, hamount]
  cases b <;> rfl

theorem plus_neg_one_iff {k : Kind} {v : Value} (h : v.At k) :
    (v.plus (-1)).convert k = v.stepped .sub k ↔ v ≠ bool true := by
  by_cases hv : v.kind = .bool
  · cases v with
    | bool b =>
      have hread : Kind.bool = k.asRead := h.kind_eq
      have hk : k = .bool := by cases k <;> first | rfl | cases hread
      rw [hk, plus_bool _ (by decide)]
      cases b <;> decide
    | _ => cases hv
  · exact ⟨fun _ hb => hv (hb ▸ rfl), fun _ => plus_neg_one k hv⟩

end Value

namespace UnaryOp

def direction? : UnaryOp → Option BinaryOp
  | preInc | postInc => some .add
  | preDec | postDec => some .sub
  | neg => none

def isPostfix : UnaryOp → Bool
  | postInc | postDec => true
  | preInc | preDec | neg => false

def amount : UnaryOp → Int32
  | preInc | postInc => 1
  | preDec | postDec => -1
  | neg => 0

end UnaryOp

/-- Evaluating a step of a variable gives a value and changes the variable, and only that. -/
def StepsTo (name : String) (result stored : Value) (m : Machine) (o : Outcome Value) : Prop :=
  ∃ c, o = .done result { m with chain := c } ∧
    m.chain.ChangedAt name (fun x x' => x' = { x with storage := .scalar stored }) c

namespace Runner

variable {m : Machine} {name : String} {x : Variable} {v : Value}

theorem step_apply (hx : m.chain.find? name = some x) (hc : x.modifiers.const = false)
    (hv : x.storage = .scalar v) (delta : Int32) (old : Bool) :
    step (.ident name) delta old m =
      .done (if old then v else (v.plus delta).convert x.kind)
        { m with chain := m.chain.update name (·.setValue (v.plus delta)) } := by
  have hlookup : Run.lookup name m = .done x m := Run.lookup_eq_done.2 ⟨hx, rfl⟩
  have hwritable : Run.writable x m = .done () m := Run.writable_eq_done.2 ⟨hc, rfl⟩
  have harray : x.isArray = false := by rw [Variable.isArray, hv]
  have hvalue : x.value = .clean v := by rw [Variable.value, hv]
  have hassign : m.chain.assign name (v.plus delta) =
      .ok (m.chain.update name (·.setValue (v.plus delta)), none) := by
    rw [Chain.assign, hx]
    simp [hc, harray]
  have hstored : (m.chain.update name (·.setValue (v.plus delta))).value? name =
      some ((v.plus delta).convert x.kind) := by
    rw [Chain.value?, Chain.find?_update _ _ _ _ fun y hy => by simpa using hy, if_pos rfl, hx]
    simp [Variable.setValue, Variable.scalar?, hv]
  have hold : Run.settle (Checked.clean v) m = .done v m := rfl
  have hsum : Run.settle (Value.binary .add v ((Value.int delta).convert v.kind) false) m =
      .done (v.plus delta) m := Run.settle_of_warning_none (Value.warning_binary_add _ _ _) m
  have hwrite : Run.overwrite name (v.plus delta) m =
      .done () { m with chain := m.chain.update name (·.setValue (v.plus delta)) } := by
    rw [Run.overwrite, hassign]
    rfl
  rw [step, Run.bind_of_done hlookup, Run.bind_of_done hwritable, if_neg (by simp [harray]), hvalue,
    Run.bind_of_done hold, Run.bind_of_done hsum, Run.bind_of_done hwrite,
    Run.bind_of_done (x := Run.gets _) rfl, hstored]
  rfl

end Runner

theorem Expr.eval_step {op : UnaryOp} {dir : BinaryOp} (h : op.direction? = some dir) (n : Nat)
    (name : String) :
    (Expr.unary op (.ident name)).eval (n + 1) =
      Runner.step (.ident name) op.amount op.isPostfix := by
  cases op <;> first | rfl | cases h

/-- The increments and decrements of a variable do as adding or subtracting one does, whatever
the variable holds, but for the decrement of a bool that is true. -/
theorem steps_iff {op : UnaryOp} {dir : BinaryOp} {m : Machine} {name : String} {x : Variable}
    {v : Value} (hop : op.direction? = some dir) (hx : m.chain.find? name = some x)
    (hc : x.modifiers.const = false) (hs : x.storage = .scalar v) (hv : v.At x.kind) (n : Nat) :
    StepsTo name (if op.isPostfix then v else v.stepped dir x.kind) (v.stepped dir x.kind) m
        ((Expr.unary op (.ident name)).eval (n + 1) m) ↔
      ¬ (dir = .sub ∧ v = .bool true) := by
  have hset (w : Value) : x.setValue w = { x with storage := .scalar (w.convert x.kind) } := by
    rw [Variable.setValue, hs]
  have hvalue : (v.plus op.amount).convert x.kind = v.stepped dir x.kind ↔
      ¬ (dir = .sub ∧ v = .bool true) := by
    have hup : (v.plus 1).convert x.kind = v.stepped .add x.kind := Value.plus_one x.kind v
    have hdown := Value.plus_neg_one_iff hv
    cases op <;> cases hop <;> simp [UnaryOp.amount, hup, hdown]
  rw [Expr.eval_step hop, Runner.step_apply hx hc hs, ← hvalue]
  constructor
  · rintro ⟨c, ho, hchanged⟩
    injection ho with _ hm
    have hchain : m.chain.update name (·.setValue (v.plus op.amount)) = c :=
      congrArg Machine.chain hm
    have hstored := (hchain ▸ hchanged).of_update hx
    rw [hset] at hstored
    injection hstored with _ _ _ hstorage
    injection hstorage
  · intro heq
    rw [heq]
    exact ⟨_, rfl, .update hx (by rw [hset, heq])⟩

/-- A char at its greatest value, in the middle one of three scopes. -/
def Machine.ofGreatestChar : Machine :=
  { Machine.new 9 .report false [] with
    chain := {
      current := ⟨[.scalar "i" .int (.int 1) {}]⟩
      outer := [⟨[.scalar "c" .char (.int 127) {}]⟩, ⟨[.scalar "c" .int (.int 5) {}]⟩] } }

theorem steps_iff_greatest_char :
    Machine.ofGreatestChar.chain.find? "c" = some (.scalar "c" .char (.int 127) {}) ∧
      Value.At (.int 127) .char ∧
      StepsTo "c" (.int (-128)) (.int (-128)) .ofGreatestChar
        ((Expr.unary .preInc (.ident "c")).eval 1 .ofGreatestChar) := by
  have hx : Machine.ofGreatestChar.chain.find? "c" = some (.scalar "c" .char (.int 127) {}) := rfl
  have hv : Value.At (.int 127) .char := by decide
  have hop : UnaryOp.preInc.direction? = some .add := rfl
  have h := steps_iff hop hx rfl rfl hv 0
  exact ⟨hx, hv, h.2 (by decide)⟩

def Machine.ofTrue : Machine :=
  { Machine.new 9 .report false [] with
    chain := { current := ⟨[.scalar "b" .bool (.bool true) {}]⟩ } }

theorem decrement_keeps_true :
    ¬ StepsTo "b" ((Value.bool true).stepped .sub .bool) ((Value.bool true).stepped .sub .bool)
      .ofTrue ((Expr.unary .preDec (.ident "b")).eval 1 .ofTrue) := by
  rintro ⟨c, h, -⟩
  have hresult : Value.bool true = (Value.bool true).stepped .sub .bool := by
    injection h
  exact absurd hresult (by decide)

end Yap
