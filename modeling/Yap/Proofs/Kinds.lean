import Yap.Proofs.History
import Yap.Proofs.Landing
import Yap.Proofs.Shapes
import Yap.Proofs.Storage

/-! The kind told of an expression before it is evaluated is the kind of its value, whatever
happens on the way to it. -/
namespace Yap

/-- Shapes stay, records only grow, and what is stored stays at its kind. -/
def Steady (m m' : Machine) : Prop := (SameShapes m m' ∧ History m m') ∧ KeepsKinds m m'

def SteadyOuter (m m' : Machine) : Prop := (SameOuter m m' ∧ History m m') ∧ KeepsKinds m m'

theorem Steady.effects : Effects Steady SteadyOuter :=
  (SameShapes.effects.and History.effects).and KeepsKinds.effects

/-- A name that is found stands for a variable of the same kind later on. -/
theorem Steady.find? {m m' : Machine} (hs : Steady m m') {name : String} {x : Variable}
    (hx : m.chain.find? name = some x) :
    ∃ y, m'.chain.find? name = some y ∧ y.kind = x.kind ∧ y.isArray = x.isArray := by
  obtain ⟨y, hy, hyx⟩ := Chain.find?_of_shapes hs.1.1 hx
  have hkind : y.kind = x.kind := congrArg Variable.Shape.kind hyx
  have harray : y.isArray = x.isArray := by
    rw [Variable.isArray_eq_shape, hyx, ← Variable.isArray_eq_shape]
  exact ⟨y, hy, hkind, harray⟩

/-- What is told of an expression stays true while names keep their kinds and functions. -/
theorem Machine.kindOf_mono {m m' : Machine} (hs : Steady m m') :
    (e : Expr) → {k : Kind} → m.kindOf e = .ok k → m'.kindOf e = .ok k
  | .literal _, _, hk => hk
  | .text _, _, hk => by cases hk
  | .ident name, k, hk => by
    simp only [Machine.kindOf] at hk ⊢
    cases hf : m.chain.find? name with
    | none => rw [hf] at hk; cases hk
    | some x =>
      obtain ⟨y, hy, hkind, -⟩ := hs.find? hf
      rw [hf] at hk
      rw [hy]
      simpa [hkind] using hk
  | .binary _ left right _, k, hk => by
    simp only [Machine.kindOf] at hk ⊢
    cases ha : m.kindOf left with
    | error c => rw [ha] at hk; cases hk
    | ok a =>
      cases hb : m.kindOf right with
      | error c => rw [ha, hb] at hk; cases hk
      | ok b =>
        rw [ha, hb] at hk
        rw [kindOf_mono hs left ha, kindOf_mono hs right hb]
        exact hk
  | .unary _ operand, _, hk => kindOf_mono hs operand hk
  | .element name _, k, hk => by
    simp only [Machine.kindOf] at hk ⊢
    cases hf : m.chain.find? name with
    | none => rw [hf] at hk; cases hk
    | some x =>
      obtain ⟨y, hy, hkind, -⟩ := hs.find? hf
      rw [hf] at hk
      rw [hy]
      simpa [hkind] using hk
  | .call name _, k, hk => by
    simp only [Machine.kindOf] at hk ⊢
    cases hb : Builtin.ofName? name with
    | some b => rw [hb] at hk; exact hk
    | none =>
      rw [hb] at hk
      cases hf : m.function? name with
      | none => rw [hf] at hk; cases hk
      | some d =>
        rw [hf] at hk
        rw [hs.1.2.function?_eq_some hf]
        exact hk
  | .sizeOf _, _, hk => hk

theorem Kind.promote_asRead (a b : Kind) : a.asRead.promote b.asRead = (a.promote b).asRead := by
  cases a <;> cases b <;> rfl

theorem kind_of_read {name : String} {m m' : Machine} {k : Kind} {v : Value}
    (hw : m.chain.WellKinded) (hk : m.kindOf (.ident name) = .ok k)
    (he : Run.read name m = .done v m') : v.kind = k.asRead := by
  obtain ⟨x, n, hx, hv⟩ := Run.bind_eq_done.1 he
  obtain ⟨hf, rfl⟩ := Run.lookup_eq_done.1 hx
  simp only [Machine.kindOf, hf, Except.ok.injEq] at hk
  rw [Run.settle_eq_done hv, (hw x (Chain.has_of_find? hf)).kind_value, ← hk, Kind.asRead_asRead]

/-- A variable that is stepped keeps its kind, and so does the value read back. -/
theorem kind_of_step {operand : Expr} {delta : Int32} {old : Bool} {m m' : Machine} {k : Kind}
    {v : Value} (hw : m.chain.WellKinded) (hk : m.kindOf operand = .ok k)
    (he : Runner.step operand delta old m = .done v m') : v.kind = k.asRead := by
  cases operand with
  | ident name =>
    obtain ⟨x, m₁, hx, he⟩ := Run.bind_eq_done.1 he
    obtain ⟨hf, rfl⟩ := Run.lookup_eq_done.1 hx
    obtain ⟨u, m₁, hu, he⟩ := Run.bind_eq_done.1 he
    obtain ⟨-, rfl⟩ := Run.writable_eq_done.1 hu
    have hxw := hw x (Chain.has_of_find? hf)
    simp only [Machine.kindOf, hf, Except.ok.injEq] at hk
    rw [← hk, Kind.asRead_asRead]
    by_cases ha : x.isArray
    · rw [if_pos ha] at he
      obtain ⟨u, m₁, -, he⟩ := Run.bind_eq_done.1 he
      cases he
      exact Value.kind_zero x.kind
    · rw [if_neg ha] at he
      obtain ⟨before, m₁, hb, he⟩ := Run.bind_eq_done.1 he
      obtain ⟨after, m₂, ha', he⟩ := Run.bind_eq_done.1 he
      obtain ⟨u, m₃, ho, he⟩ := Run.bind_eq_done.1 he
      have hc := Steady.effects.congruence
      have hs₁ : Steady m m₁ := hc.settle x.isPlain_value (by rw [hb]; rfl)
      have hs₂ : Steady m₁ m₂ := hc.settle (Value.isPlain_binary _ _ _ _) (by rw [ha']; rfl)
      have hs₃ : Steady m₂ m₃ := hc.overwrite name after (by rw [ho]; rfl)
      have hs := Steady.effects.trans hs₁ (Steady.effects.trans hs₂ hs₃)
      obtain ⟨y, hy, hyk, hya⟩ := hs.find? hf
      have hscalar : y.isArray = false := hya.trans (by simpa using ha)
      obtain ⟨w, hyv⟩ := Option.isSome_iff_exists.1 (Variable.scalar?_isSome hscalar)
      have hstored : m₃.chain.value? name = some w := by
        rw [Chain.value?, hy]
        exact hyv
      rw [Run.bind_of_done (x := Run.gets _) rfl, hstored] at he
      have hbefore : before.kind = x.kind.asRead := by
        rw [Run.settle_eq_done hb, hxw.kind_value]
      cases old with
      | true =>
        cases he
        exact hbefore
      | false =>
        cases he
        have hyw := hs.2 hw y (Chain.has_of_find? hy)
        exact hyk ▸ hyw.kind_scalar? hyv
  | _ => cases he

theorem kind_of_element {n : Nat} {name : String} {index : Expr} {m m' : Machine} {k : Kind}
    {v : Value} (hw : m.chain.WellKinded) (hk : m.kindOf (.element name index) = .ok k)
    (he : (Runner.ofFuel n).element name index m = .done v m') : v.kind = k.asRead := by
  obtain ⟨x, m₁, hx, he⟩ := Run.bind_eq_done.1 he
  obtain ⟨hf, rfl⟩ := Run.lookupArray_eq_done.1 hx
  obtain ⟨i, m₁, hi, he⟩ := Run.bind_eq_done.1 he
  obtain ⟨y, m₂, hy, he⟩ := Run.bind_eq_done.1 he
  obtain ⟨hfy, rfl⟩ := Run.lookupArray_eq_done.1 hy
  simp only [Machine.kindOf, hf, Except.ok.injEq] at hk
  have hs : Steady m m₁ :=
    Steady.effects.congruence.evalInt (Steady.effects.ofFuel n) index (by rw [hi]; rfl)
  have hyw := hs.2 hw y (Chain.has_of_find? hfy)
  obtain ⟨z, hz, hzk, -⟩ := hs.find? hf
  have hyz : y = z := Option.some.inj (hfy.symm.trans hz)
  have hkind : y.kind = x.kind := hyz ▸ hzk
  rw [← hk, Kind.asRead_asRead, ← hkind]
  cases hb : y.buffer? with
  | none =>
    rw [hb] at he
    rw [Run.settle_eq_done he]
    exact Value.kind_zero y.kind
  | some b =>
    rw [hb] at he
    obtain ⟨hbk, hbw⟩ := hyw.of_buffer? hb
    rw [Run.settle_eq_done he, hbw.kind_read, hbk]

theorem kind_of_sizeOf (operand : Expr) :
    (Runner.sizeOf operand).Ends fun _ v => v.kind = .int := by
  cases operand with
  | ident name => exact Run.Ends.last fun _ => Run.Ends.last fun _ => Run.Ends.pure fun _ => rfl
  | element name index =>
    exact Run.Ends.last fun _ => Run.Ends.last fun _ => Run.Ends.pure fun _ => rfl
  | _ => exact Run.Ends.last fun _ => Run.Ends.last fun _ => Run.Ends.pure fun _ => rfl

theorem at_of_call {n : Nat} {name : String} {args : List Expr} {m m' : Machine} {d : Definition}
    {v : Value} (hd : m.function? name = some d)
    (hc : (Runner.ofFuel n).call name args m = .done (some v) m') :
    ∃ k, d.returns = some k ∧ v.At k := by
  rw [Runner.call] at hc
  have hname : (m.note (.call name)).function? name = some d := by
    simpa [Machine.function?] using hd
  rw [Run.bind_of_done (x := Run.modify _) rfl, Run.bind_of_done (x := Run.gets _) rfl, hname] at hc
  dsimp only at hc
  by_cases ha : args.length ≠ d.params.length
  · rw [if_pos ha] at hc
    cases hc
  · rw [if_neg ha] at hc
    obtain ⟨values, m₁, -, hc⟩ := Run.bind_eq_done.1 hc
    obtain ⟨f, m₂, hf, hc⟩ := Run.bind_eq_done.1 hc
    have hv : f.result = some v := (Outcome.done.inj hc).1
    cases f with
    | normal => cases hv
    | leave => cases hv
    | giveBack w =>
      exact Runner.body_ends n d values hf v (congrArg Flow.giveBack hv)

/-- A call has a value of the return kind, or the zero of that kind. -/
theorem kind_of_call {n : Nat} {name : String} {args : List Expr} {m m' : Machine} {k : Kind}
    {v : Value} (hk : m.kindOf (.call name args) = .ok k)
    (he : (Runner.ofFuel n).callValue name args m = .done v m') : v.kind = k.asRead := by
  rw [Runner.callValue] at he
  simp only [Machine.kindOf] at hk
  cases hb : Builtin.ofName? name with
  | some b =>
    rw [hb] at he hk
    obtain ⟨u, m₁, -, he⟩ := Run.bind_eq_done.1 he
    cases hk
    cases he
    rfl
  | none =>
    rw [hb] at he hk
    dsimp only at he hk
    rw [Run.bind_of_done (x := Run.gets _) rfl] at he
    cases hd : m.function? name with
    | none => rw [hd] at hk; cases hk
    | some d =>
      rw [hd] at he hk
      cases hk
      obtain ⟨o, m₁, hc, he⟩ := Run.bind_eq_done.1 he
      cases o with
      | none =>
        obtain ⟨u, m₂, -, he⟩ := Run.bind_eq_done.1 he
        cases he
        exact Value.kind_zero _
      | some w =>
        cases he
        obtain ⟨k', hk', hat⟩ := at_of_call hd hc
        rw [hk']
        exact hat.kind_eq

/-- Evaluation gives a value of the kind that was told. -/
theorem Expr.kind_of_eval (n : Nat) (e : Expr) {m m' : Machine} {k : Kind} {v : Value}
    (hw : m.chain.WellKinded) (hk : m.kindOf e = .ok k) (he : e.eval n m = .done v m') :
    v.kind = k.asRead := by
  induction n generalizing e m m' k v with
  | zero => cases he
  | succ n ih =>
    rw [Expr.eval_succ] at he
    cases e with
    | literal l =>
      cases he
      cases hk
      cases l <;> rfl
    | text s => cases hk
    | ident name => exact kind_of_read hw hk he
    | binary op left right modifiers =>
      obtain ⟨a, m₁, ha, he⟩ := Run.bind_eq_done.1 he
      obtain ⟨b, m₂, hb, he⟩ := Run.bind_eq_done.1 he
      obtain ⟨u, m₃, -, he⟩ := Run.bind_eq_done.1 he
      obtain ⟨u', m₄, -, he⟩ := Run.bind_eq_done.1 he
      have hs : Steady m m₁ := (Steady.effects.ofFuel n).eval left (by rw [ha]; rfl)
      simp only [Machine.kindOf] at hk
      cases hl : m.kindOf left with
      | error c => rw [hl] at hk; cases hk
      | ok kl =>
        cases hr : m.kindOf right with
        | error c => rw [hl, hr] at hk; cases hk
        | ok kr =>
          rw [hl, hr] at hk
          cases hk
          have hva := ih left hw hl ha
          have hvb := ih right (hs.2 hw) (Machine.kindOf_mono hs right hr) hb
          rw [Run.settle_eq_done he, Value.kind_binary, hva, hvb, Kind.promote_asRead]
    | unary op operand =>
      have hk' : m.kindOf operand = .ok k := hk
      cases op with
      | neg =>
        obtain ⟨a, m₁, ha, he⟩ := Run.bind_eq_done.1 he
        cases he
        rw [Value.kind_negate]
        exact ih operand hw hk' ha
      | preInc => exact kind_of_step hw hk' he
      | preDec => exact kind_of_step hw hk' he
      | postInc => exact kind_of_step hw hk' he
      | postDec => exact kind_of_step hw hk' he
    | element name index => exact kind_of_element hw hk he
    | call name args => exact kind_of_call hk he
    | sizeOf operand =>
      cases hk
      exact kind_of_sizeOf operand he

namespace Runner

variable {n : Nat} {s : Format.Spec} {e : Expr} {m m' : Machine} {a : Format.Arg}

theorem kind_of_floating (hw : m.chain.WellKinded) (hs : s.conversion.argClass = .floating)
    (ha : (ofFuel n).formatArg s e m = .done a m') :
    ∃ v, e.eval n m = .done v m' ∧ (v.kind = .float ∨ v.kind = .double) ∧ a = .float v.toFloat := by
  unfold formatArg at ha
  rw [hs] at ha
  obtain ⟨k, m₁, hkind, ha⟩ := Run.bind_eq_done.1 ha
  obtain ⟨hk, rfl⟩ := Run.kindOf_eq_done.1 hkind
  by_cases hf : k.isFloating
  · rw [if_pos hf] at ha
    obtain ⟨v, m₂, hv, ha⟩ := Run.bind_eq_done.1 ha
    cases ha
    have hvk := e.kind_of_eval n hw hk hv
    refine ⟨v, hv, ?_, rfl⟩
    cases k with
    | float => exact Or.inl hvk
    | double => exact Or.inr hvk
    | _ => cases hf
  · rw [if_neg hf] at ha
    cases ha

theorem kind_of_short {k : Kind} (hw : m.chain.WellKinded) (hs : s.conversion.argClass = .integer)
    (hb : s.conversion ≠ .bool) (hk : m.kindOf e = .ok k) (hn : k.numeric = .short)
    (ha : (ofFuel n).formatArg s e m = .done a m') :
    ∃ v, e.eval n m = .done v m' ∧ (v.kind = .short ∨ v.kind = .bool) ∧
      a = .integer (if m.isUnsigned e then v.toInt16.toUInt16.toNat else v.toInt16.toInt) := by
  unfold formatArg at ha
  rw [hs] at ha
  dsimp only at ha
  rw [if_neg hb] at ha
  rw [integerArg, Run.bind_of_done (x := Run.gets _) rfl] at ha
  obtain ⟨k', m₁, hkind, ha⟩ := Run.bind_eq_done.1 ha
  obtain ⟨hk', rfl⟩ := Run.kindOf_eq_done.1 hkind
  have hkk : k' = k := Except.ok.inj (hk'.symm.trans hk)
  subst hkk
  obtain ⟨v, m₂, hv, ha⟩ := Run.bind_eq_done.1 ha
  rw [if_pos hn] at ha
  have hvk := e.kind_of_eval n hw hk hv
  cases ha
  refine ⟨v, hv, ?_, rfl⟩
  cases k' with
  | short => exact Or.inl hvk
  | bool => exact Or.inr hvk
  | _ => cases hn

end Runner

/-- On a machine that can be met, a value has the kind told of its expression, a char counting as
an int. So a floating conversion gets a float or a double, and an integer conversion that cuts to
16 bits a short or a bool. -/
theorem kinds_sound (n : Nat) (e : Expr) {m : Machine} (hm : Reachable m) :
    (∀ (k : Kind) (v : Value) (m' : Machine), m.kindOf e = .ok k → e.eval n m = .done v m' →
      v.kind = k.asRead) ∧
    (∀ (s : Format.Spec) (a : Format.Arg) (m' : Machine), s.conversion.argClass = .floating →
      (Runner.ofFuel n).formatArg s e m = .done a m' →
      ∃ v, e.eval n m = .done v m' ∧ (v.kind = .float ∨ v.kind = .double) ∧
        a = .float v.toFloat) ∧
    ∀ (s : Format.Spec) (k : Kind) (a : Format.Arg) (m' : Machine),
      s.conversion.argClass = .integer → s.conversion ≠ .bool → m.kindOf e = .ok k →
      k.numeric = .short → (Runner.ofFuel n).formatArg s e m = .done a m' →
      ∃ v, e.eval n m = .done v m' ∧ (v.kind = .short ∨ v.kind = .bool) ∧
        a = .integer (if m.isUnsigned e then v.toInt16.toUInt16.toNat else v.toInt16.toInt) := by
  have hw := hm.wellKinded
  refine ⟨?_, ?_, ?_⟩
  · intro k v m' hk he
    exact e.kind_of_eval n hw hk he
  · intro s a m' hs ha
    exact Runner.kind_of_floating hw hs ha
  · intro s k a m' hs hb hk hn ha
    exact Runner.kind_of_short hw hs hb hk hn ha

def charFunction : Definition :=
  ⟨1, "f", some .char, [], ⟨.giveBack (some (.literal (.int 321))), none⟩⟩

theorem kinds_sound_charFunction :
    ∃ (m' m'' : Machine) (v w u : Value),
      (Task.perform 3 (.exec ⟨.define charFunction, none⟩)
        (.new 9 .report false [])).machine? = some m' ∧
      m'.kindOf (.call "f" []) = .ok .char ∧
      (Expr.call "f" []).eval 6 m' = .done v m'' ∧ v.kind = .int ∧
      (Expr.literal (.double 0)).eval 6 m' = .done w m' ∧ (w.kind = .float ∨ w.kind = .double) ∧
      (Expr.literal (.bool true)).eval 6 m' = .done u m' ∧ (u.kind = .short ∨ u.kind = .bool) := by
  let m : Machine := { Machine.new 9 .report false [] with functions := [charFunction] }
  have hm : (Task.perform 3 (.exec ⟨.define charFunction, none⟩)
      (.new 9 .report false [])).machine? = some m := rfl
  have hr : Reachable m := .task 3 _ (.new 9 .report false []) hm
  have hk : m.kindOf (.call "f" []) = .ok .char := rfl
  have hv : (Expr.call "f" []).eval 6 m = .done (.int 65) _ := rfl
  obtain ⟨hcall, -, -⟩ := kinds_sound 6 (.call "f" []) hr
  obtain ⟨-, hdouble, -⟩ := kinds_sound 6 (.literal (.double 0)) hr
  obtain ⟨-, -, hbool⟩ := kinds_sound 6 (.literal (.bool true)) hr
  obtain ⟨w, hw, hwk, -⟩ := hdouble ⟨.none, none, none, .fixed, []⟩ (.float 0) m rfl rfl
  obtain ⟨u, hu, huk, -⟩ := hbool ⟨.none, none, none, .signed, []⟩ .bool (.integer 1) m rfl
    (by decide) rfl rfl rfl
  exact ⟨m, _, .int 65, w, u, hm, hk, hv, hcall _ _ _ hk hv, hw, hwk, hu, huk⟩

end Yap
