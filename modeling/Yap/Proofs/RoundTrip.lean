import Yap.Proofs.Documents
import Yap.Proofs.Unnumbered
import Yap.Proofs.Widening
import Yap.Tree.Decode

/-! Programs written as documents and read again. Main statement: a program whose float literals
are finite is read back, but for the numbers of its definitions, from every document that says
the same as the one it is written as. -/
namespace Yap

open Json Numeral

def Numeral.Datum.IsFinite : Datum → Prop
  | .finite .. => True
  | _ => False

/-- A form of floats whose finite ones are read back. -/
structure FloatForm.ReadsBack (form : FloatForm) : Prop where
  single (x : Float32) : (ofSingle x).IsFinite → (form.single x).single? = some x
  double (x : Float) : (ofDouble x).IsFinite → (form.double x).double? = some x

theorem FloatForm.number_readsBack : FloatForm.number.ReadsBack where
  single x h := by
    cases hx : ofSingle x with
    | finite s m q => exact congrArg some (narrow_widen hx)
    | nan => rw [hx] at h; cases h
    | infinite s => rw [hx] at h; cases h
  double _ _ := rfl

/-- Whether a document has a number for the literal. -/
def Literal.Writable : Literal → Prop
  | float x => (ofSingle x).IsFinite
  | double x => (ofDouble x).IsFinite
  | _ => True

inductive Expr.Writable : Expr → Prop
  | literal {l : Literal} : l.Writable → Writable (.literal l)
  | text (s : String) : Writable (.text s)
  | ident (name : String) : Writable (.ident name)
  | binary (op : BinaryOp) {left right : Expr} (modifiers : Modifiers) :
    Writable left → Writable right → Writable (.binary op left right modifiers)
  | unary (op : UnaryOp) {operand : Expr} : Writable operand → Writable (.unary op operand)
  | element (name : String) {index : Expr} : Writable index → Writable (.element name index)
  | call (name : String) {args : List Expr} : (∀ e ∈ args, Writable e) → Writable (.call name args)
  | sizeOf {operand : Expr} : Writable operand → Writable (.sizeOf operand)

mutual

/-- Whether all float literals of the statement are finite, and lengths fit their field. -/
inductive Stmt.Writable : Stmt → Prop
  | mk {action : Action} (line : Option Line) : action.Writable → Stmt.Writable ⟨action, line⟩

inductive Action.Writable : Action → Prop
  | declare (name : String) (kind : Kind) (modifiers : Modifiers) {init : Option Expr} :
    (∀ e ∈ init, e.Writable) → Action.Writable (.declare name kind modifiers init)
  | declareArray (name : String) (kind : Kind) (modifiers : Modifiers) {length : Nat}
      {init : Option (List Expr)} :
    length < 2 ^ 64 → (∀ es ∈ init, ∀ e ∈ es, e.Writable) →
      Action.Writable (.declareArray name kind modifiers length init)
  | assign (name : String) {value : Expr} : value.Writable → Action.Writable (.assign name value)
  | assignElement (name : String) {index value : Expr} :
    index.Writable → value.Writable → Action.Writable (.assignElement name index value)
  | expr {e : Expr} : e.Writable → Action.Writable (.expr e)
  | ifElse {cond : Expr} {thenBranch : Stmt} {elseBranch : Option Stmt} :
    cond.Writable → thenBranch.Writable → (∀ s ∈ elseBranch, s.Writable) →
      Action.Writable (.ifElse cond thenBranch elseBranch)
  | whileDo {cond : Expr} {body : Stmt} :
    cond.Writable → body.Writable → Action.Writable (.whileDo cond body)
  | doWhile {body : Stmt} {cond : Expr} :
    body.Writable → cond.Writable → Action.Writable (.doWhile body cond)
  | forLoop {init : Option Stmt} {cond : Option Expr} {step : Option Stmt} {body : Stmt} :
    (∀ s ∈ init, s.Writable) → (∀ e ∈ cond, e.Writable) → (∀ s ∈ step, s.Writable) →
      body.Writable → Action.Writable (.forLoop init cond step body)
  | switch {scrutinee : Expr} {cases : List Case} :
    scrutinee.Writable → (∀ c ∈ cases, c.Writable) → Action.Writable (.switch scrutinee cases)
  | leave : Action.Writable .leave
  | giveBack {value : Option Expr} : (∀ e ∈ value, e.Writable) → Action.Writable (.giveBack value)
  | define {d : Definition} : d.Writable → Action.Writable (.define d)
  | print {e : Expr} : e.Writable → Action.Writable (.print e)
  | printError {e : Expr} : e.Writable → Action.Writable (.printError e)
  | block {body : List Stmt} : (∀ s ∈ body, s.Writable) → Action.Writable (.block body)

inductive Case.Writable : Case → Prop
  | mk {label : Option Expr} {body : List Stmt} :
    (∀ e ∈ label, e.Writable) → (∀ s ∈ body, s.Writable) → Case.Writable ⟨label, body⟩

inductive Definition.Writable : Definition → Prop
  | mk (id : Nat) (name : String) (returns : Option Kind) (params : List Param) {body : Stmt} :
    body.Writable → Definition.Writable ⟨id, name, returns, params, body⟩

end

def Program.Writable (p : Program) : Prop := ∀ s ∈ p.statements, s.Writable

section Atoms

theorem Json.depth_of_single? {j : Json} {x : Float32} (h : j.single? = some x) : j.depth = 0 := by
  cases j with
  | arr _ => cases h
  | obj _ => cases h
  | _ => rfl

theorem Json.depth_of_double? {j : Json} {x : Float} (h : j.double? = some x) : j.depth = 0 := by
  cases j with
  | arr _ => cases h
  | obj _ => cases h
  | _ => rfl

theorem reads_text (s : String) : Reads (fun _ => text?) (.str s) s := .atom rfl fun _ => rfl

theorem reads_enumerated {α : Type} {ofName? : String → Option α} {s : String} {a : α}
    (h : ofName? s = some a) : Reads (enumerated ofName?) (.str s) a :=
  .atom rfl fun n => by rw [enumerated_str, h]

theorem reads_natural {n : Nat} {hi : Int} (h : (n : Int) ≤ hi) :
    Reads (fun _ => integer? 0 hi) (.int n) (n : Int) :=
  .atom rfl fun _ => integer?_int ⟨Int.natCast_nonneg n, h⟩

theorem Kind.reads (k : Kind) : Reads Kind.decode (.str k.name) k := reads_enumerated k.ofName?_name

theorem Modifiers.reads (m : Modifiers) : Reads (fun _ => Modifiers.decode) (.str m.render) m :=
  .atom rfl fun _ => m.parse?_render

theorem Modifiers.eq_none_of_omissible {name : String} {m : Modifiers}
    (h : Omissible name (.str m.render)) : m = none := by
  have hrender : m.render = "" := by
    simp at h
    exact h.2
  have hparse := m.parse?_render
  rw [hrender] at hparse
  exact (Option.some.inj hparse).symm

theorem Literal.reads {form : FloatForm} (hform : form.ReadsBack) :
    {l : Literal} → l.Writable → Reads Literal.decode (l.encode form) l
  | .int n, _ => .choice (by simp) <| .atom rfl fun _ => by
    have hlow := n.le_toInt
    have hhigh := n.toInt_lt
    rw [Literal.decode, integer?_int (by omega), Option.map_some, Int32.ofInt_toInt]
  | .short n, _ => .choice (by simp) <| .atom rfl fun _ => by
    have hlow := n.le_toInt
    have hhigh := n.toInt_lt
    rw [Literal.decode, integer?_int (by omega), Option.map_some, Int16.ofInt_toInt]
  | .float x, h =>
    have hread := hform.single x h
    .choice (by simp) <| .atom (depth_of_single? hread) fun _ => by
      rw [Literal.decode, hread, Option.map_some]
  | .double x, h =>
    have hread := hform.double x h
    .choice (by simp) <| .atom (depth_of_double? hread) fun _ => by
      rw [Literal.decode, hread, Option.map_some]
  | .bool b, _ => .choice (by simp) <| .atom rfl fun _ => rfl
  | .char c, _ => .choice (by simp) <| .atom rfl fun _ => by
    have hhigh := c.toNat_lt
    rw [Literal.decode, integer?_int (by omega), Option.map_some, Int.toNat_natCast,
      UInt8.ofNat_toNat]

theorem Param.reads (p : Param) : Reads Param.decode p.encode p :=
  .record trivial (by simp) <| by
    rintro n k _ hfields (_ | ⟨hname, _ | ⟨hkind, ⟨⟩⟩⟩)
    have hname := hname.required (by simp) (reads_text p.name)
    have hkind := hkind.required (by simp) p.kind.reads
    simp [Param.decode, hfields, hname, hkind]

theorem reads_line (line : Line) : Reads decodeLine (encodeLine line) line :=
  .record (by simp) (by simp) <| by
    rintro n k _ hfields (_ | ⟨hline, ⟨⟩⟩)
    have hlt := line.toNat_lt
    have hline := hline.required (by simp)
      (reads_natural (by omega : (line.toNat : Int) ≤ 4294967295))
    simp [decodeLine, hfields, hline]

end Atoms

theorem Expr.encodes_eq_map (form : FloatForm) (es : List Expr) :
    Expr.encode.encodes form es = es.map (Expr.encode form) := by
  induction es with
  | nil => rfl
  | cons e es ih => rw [Expr.encode.encodes, ih, List.map_cons]

@[simp] theorem Expr.encode_ne_null (form : FloatForm) (e : Expr) : e.encode form ≠ .null := by
  cases e <;> simp [Expr.encode, Json.tagged]

@[simp] theorem Expr.encode_ne_str (form : FloatForm) (e : Expr) (s : String) :
    e.encode form ≠ .str s := by
  cases e <;> simp [Expr.encode, Json.tagged]

mutual

theorem Expr.reads {form : FloatForm} (hform : form.ReadsBack) :
    (e : Expr) → e.Writable → Reads Expr.decode (e.encode form) e
  | .literal l, h => .choice (by simp) <| by
    cases h with | literal h =>
    exact (Literal.reads hform h).map Expr.literal fun n k => by rw [Expr.decode]
  | .text s, _ => .choice (by simp) <| (reads_text s).map Expr.text fun n k => by rw [Expr.decode]
  | .ident s, _ => .choice (by simp) <| (reads_text s).map Expr.ident fun n k => by rw [Expr.decode]
  | .binary op left right modifiers, h =>
    .choice (by simp) <| .record trivial (by simp) <| by
      cases h with | binary _ _ hleft hright =>
      rintro n k _ hfields
        (_ | ⟨hop, _ | ⟨hfoundLeft, _ | ⟨hfoundRight, _ | ⟨hmodifiers, ⟨⟩⟩⟩⟩⟩)
      have hop := hop.required (by simp) (reads_enumerated op.ofName?_name)
      have hleft := hfoundLeft.required (by simp) (left.reads hform hleft)
      have hright := hfoundRight.required (by simp) (right.reads hform hright)
      have hmodifiers := hmodifiers.defaulted Modifiers.eq_none_of_omissible modifiers.reads
      simp [Expr.decode, hfields, hop, hleft, hright, hmodifiers]
  | .unary op operand, h =>
    .choice (by simp) <| .record trivial (by simp) <| by
      cases h with | unary _ hoperand =>
      rintro n k _ hfields (_ | ⟨hop, _ | ⟨hfound, ⟨⟩⟩⟩)
      have hop := hop.required (by simp) (reads_enumerated op.ofName?_name)
      have hoperand := hfound.required (by simp) (operand.reads hform hoperand)
      simp [Expr.decode, hfields, hop, hoperand]
  | .element name index, h =>
    .choice (by simp) <| .record trivial (by simp) <| by
      cases h with | element _ hindex =>
      rintro n k _ hfields (_ | ⟨hname, _ | ⟨hfound, ⟨⟩⟩⟩)
      have hname := hname.required (by simp) (reads_text name)
      have hindex := hfound.required (by simp) (index.reads hform hindex)
      simp [Expr.decode, hfields, hname, hindex]
  | .call name args, h =>
    .choice (by simp) <| .record trivial (by simp) <| by
      cases h with | call _ hargs =>
      rintro n k _ hfields (_ | ⟨hname, _ | ⟨hfound, ⟨⟩⟩⟩)
      obtain ⟨n, ks, rfl, rfl, hks, hdepth⟩ := hfound.arr (by simp)
      have hname := hname.required (by simp) (reads_text name)
      rw [Expr.encodes_eq_map] at hks
      have hargs := hks.mapM (Expr.readsAll hform args hargs) hdepth
      simp [Expr.decode, hfields, hname, hargs]
  | .sizeOf operand, h => .choice (by simp) <| by
    cases h with | sizeOf h =>
    exact (operand.reads hform h).map Expr.sizeOf fun n k => by rw [Expr.decode]

theorem Expr.readsAll {form : FloatForm} (hform : form.ReadsBack) :
    (es : List Expr) → (∀ e ∈ es, e.Writable) → ∀ e ∈ es, Reads Expr.decode (e.encode form) e
  | [], _, _, h => nomatch h
  | e :: _, h, _, .head _ => e.reads hform (h e (.head _))
  | _ :: es, h, _, .tail _ he => Expr.readsAll hform es (fun e he => h e (.tail _ he)) _ he

end

theorem Action.reads_variable (name : String) (value : Expr) :
    Reads (Action.decodeAssign value) (.tagged "variable" (.str name)) (.assign name value) :=
  .choice (by simp) <|
    (reads_text name).map (Action.assign · value) fun n k => by rw [Action.decodeAssign]

theorem Action.reads_element {form : FloatForm} (hform : form.ReadsBack) (name : String)
    {index : Expr} (hindex : index.Writable) (value : Expr) :
    Reads (Action.decodeAssign value)
      (.tagged "element" (.obj [("name", .str name), ("index", index.encode form)]))
      (.assignElement name index value) :=
  .choice (by simp) <| .record trivial (by simp) <| by
    rintro n k _ hfields (_ | ⟨hname, _ | ⟨hfound, ⟨⟩⟩⟩)
    have hname := hname.required (by simp) (reads_text name)
    have hindex := hfound.required (by simp) (index.reads hform hindex)
    simp [Action.decodeAssign, hfields, hname, hindex]

theorem Expr.reads_list {form : FloatForm} (hform : form.ReadsBack) {es : List Expr}
    (h : ∀ e ∈ es, e.Writable) : Reads Expr.decodeList (.arr (es.map (Expr.encode form))) es :=
  .arr fun n ks hks hdepth => by
    have hes := hks.mapM (Expr.readsAll hform es h) hdepth
    simp [Expr.decodeList, hes]

/-- An expression that may be absent stands under its name, or null does. -/
theorem Expr.reads_option {form : FloatForm} (hform : form.ReadsBack) {o : Option Expr}
    (h : ∀ e ∈ o, e.Writable) :
    Reads (fun n k => optional (Expr.decode n) (some k)) (.ofOption (Expr.encode form) o) o := by
  simpa only [Option.map_id'] using
    Reads.optional (Expr.encode_ne_null form) fun e he => e.reads hform (h e he)

theorem Param.reads_list (ps : List Param) :
    Reads Param.decodeList (.arr (ps.map Param.encode)) ps :=
  .arr fun n ks hks hdepth => by
    have hps := hks.mapM (fun p _ => p.reads) hdepth
    simp [Param.decodeList, hps]

theorem encodeOption_eq_ofOption (form : FloatForm) (s : Option Stmt) :
    encodeOption form s = .ofOption (Stmt.encode form) s := by cases s <;> rfl

theorem encodeAll_eq_map (form : FloatForm) (ss : List Stmt) :
    encodeAll form ss = ss.map (Stmt.encode form) := by
  induction ss with
  | nil => rfl
  | cons s ss ih => rw [encodeAll, ih, List.map_cons]

theorem encodeCases_eq_map (form : FloatForm) (cs : List Case) :
    encodeCases form cs = cs.map (Case.encode form) := by
  induction cs with
  | nil => rfl
  | cons c cs ih => rw [encodeCases, ih, List.map_cons]

@[simp] theorem Stmt.encode_ne_null (form : FloatForm) (s : Stmt) : s.encode form ≠ .null := by
  cases s
  simp [Stmt.encode]

@[simp] theorem Stmt.encode_ne_str (form : FloatForm) (s : Stmt) (t : String) :
    s.encode form ≠ .str t := by
  cases s
  simp [Stmt.encode]

@[simp] theorem Action.encode_ne_null (form : FloatForm) (a : Action) : a.encode form ≠ .null := by
  cases a <;> simp [Action.encode, Json.tagged]

mutual

theorem Stmt.reads {form : FloatForm} (hform : form.ReadsBack) :
    (s : Stmt) → s.Writable → Reads Stmt.decode (s.encode form) s.unnumbered
  | ⟨action, line⟩, h => by
    rw [Stmt.encode]
    refine .record trivial (by simp) ?_
    cases h with | mk _ haction =>
    rintro n k _ hfields (_ | ⟨hfound, _ | ⟨hline, ⟨⟩⟩⟩)
    have haction := hfound.required (by simp) (action.reads hform haction)
    have hline := hline.optional (by simp [encodeLine]) fun line _ => reads_line line
    simp [Stmt.decode, Stmt.unnumbered, hfields, haction, hline]

theorem Action.reads {form : FloatForm} (hform : form.ReadsBack) :
    (a : Action) → a.Writable → Reads Action.decode (a.encode form) a.unnumbered
  | .declare name kind modifiers init, h => by
    rw [Action.encode]
    refine .choice (by simp) (.record trivial (by simp) ?_)
    cases h with | declare _ _ _ hinit =>
    rintro n k _ hfields (_ | ⟨hname, _ | ⟨hkind, _ | ⟨hmodifiers, _ | ⟨hfound, ⟨⟩⟩⟩⟩⟩)
    have hname := hname.required (by simp) (reads_text name)
    have hkind := hkind.required (by simp) kind.reads
    have hmodifiers := hmodifiers.defaulted Modifiers.eq_none_of_omissible modifiers.reads
    have hinit := hfound.optional (by simp) fun e he => e.reads hform (hinit e he)
    simp [Action.decode, Action.unnumbered, hfields, hname, hkind, hmodifiers, hinit]
  | .declareArray name kind modifiers length init, h => by
    rw [Action.encode]
    refine .choice (by simp) (.record trivial (by simp) ?_)
    cases h with | declareArray _ _ _ hlength hinit =>
    rintro n k _ hfields
      (_ | ⟨hname, _ | ⟨hkind, _ | ⟨hmodifiers, _ | ⟨hfoundLength, _ | ⟨hfound, ⟨⟩⟩⟩⟩⟩⟩)
    have hname := hname.required (by simp) (reads_text name)
    have hkind := hkind.required (by simp) kind.reads
    have hmodifiers := hmodifiers.defaulted Modifiers.eq_none_of_omissible modifiers.reads
    have hlength := hfoundLength.required (by simp)
      (reads_natural (by omega : (length : Int) ≤ 18446744073709551615))
    have hinit := hfound.optional (by simp) fun es hes => Expr.reads_list hform (hinit es hes)
    simp [Action.decode, Action.unnumbered, hfields, hname, hkind, hmodifiers, hlength, hinit]
  | .assign name value, h => by
    rw [Action.encode]
    refine .choice (by simp) (.record trivial (by simp) ?_)
    cases h with | assign _ hvalue =>
    rintro n k _ hfields (_ | ⟨htarget, _ | ⟨hfound, ⟨⟩⟩⟩)
    have htarget := htarget.required (by simp [Json.tagged]) (Action.reads_variable name value)
    have hvalue := hfound.required (by simp) (value.reads hform hvalue)
    simp [Action.decode, Action.unnumbered, hfields, htarget, hvalue]
  | .assignElement name index value, h => by
    rw [Action.encode]
    refine .choice (by simp) (.record trivial (by simp) ?_)
    cases h with | assignElement _ hindex hvalue =>
    rintro n k _ hfields (_ | ⟨htarget, _ | ⟨hfound, ⟨⟩⟩⟩)
    have htarget := htarget.required (by simp [Json.tagged])
      (Action.reads_element hform name hindex value)
    have hvalue := hfound.required (by simp) (value.reads hform hvalue)
    simp [Action.decode, Action.unnumbered, hfields, htarget, hvalue]
  | .expr e, h => by
    rw [Action.encode]
    cases h with | expr he =>
    exact .choice (by simp) ((e.reads hform he).map Action.expr fun n k => by rw [Action.decode])
  | .ifElse cond thenBranch elseBranch, h => by
    rw [Action.encode, encodeOption_eq_ofOption]
    refine .choice (by simp) (.record trivial (by simp) ?_)
    cases h with | ifElse hcond hthen helse =>
    rintro n k _ hfields (_ | ⟨hfoundCond, _ | ⟨hfoundThen, _ | ⟨hfoundElse, ⟨⟩⟩⟩⟩)
    have hcond := hfoundCond.required (by simp) (cond.reads hform hcond)
    have hthen := hfoundThen.required (by simp) (thenBranch.reads hform hthen)
    have helse := hfoundElse.optional (by simp) (readsOption hform elseBranch helse)
    simp [Action.decode, Action.unnumbered, unnumberedOption_eq_map, hfields, hcond, hthen, helse]
  | .whileDo cond body, h => by
    rw [Action.encode]
    refine .choice (by simp) (.record trivial (by simp) ?_)
    cases h with | whileDo hcond hbody =>
    rintro n k _ hfields (_ | ⟨hfoundCond, _ | ⟨hfoundBody, ⟨⟩⟩⟩)
    have hcond := hfoundCond.required (by simp) (cond.reads hform hcond)
    have hbody := hfoundBody.required (by simp) (body.reads hform hbody)
    simp [Action.decode, Action.unnumbered, hfields, hcond, hbody]
  | .doWhile body cond, h => by
    rw [Action.encode]
    refine .choice (by simp) (.record trivial (by simp) ?_)
    cases h with | doWhile hbody hcond =>
    rintro n k _ hfields (_ | ⟨hfoundBody, _ | ⟨hfoundCond, ⟨⟩⟩⟩)
    have hbody := hfoundBody.required (by simp) (body.reads hform hbody)
    have hcond := hfoundCond.required (by simp) (cond.reads hform hcond)
    simp [Action.decode, Action.unnumbered, hfields, hcond, hbody]
  | .forLoop init cond step body, h => by
    rw [Action.encode, encodeOption_eq_ofOption, encodeOption_eq_ofOption]
    refine .choice (by simp) (.record trivial (by simp) ?_)
    cases h with | forLoop hinit hcond hstep hbody =>
    rintro n k _ hfields
      (_ | ⟨hfoundInit, _ | ⟨hfoundCond, _ | ⟨hfoundStep, _ | ⟨hfoundBody, ⟨⟩⟩⟩⟩⟩)
    have hinit := hfoundInit.optional (by simp) (readsOption hform init hinit)
    have hcond := hfoundCond.optional (by simp) fun e he => e.reads hform (hcond e he)
    have hstep := hfoundStep.optional (by simp) (readsOption hform step hstep)
    have hbody := hfoundBody.required (by simp) (body.reads hform hbody)
    simp [Action.decode, Action.unnumbered, unnumberedOption_eq_map, hfields, hinit, hcond, hstep,
      hbody]
  | .switch scrutinee cases, h => by
    rw [Action.encode, encodeCases_eq_map]
    refine .choice (by simp) (.record trivial (by simp) ?_)
    cases h with | switch hscrutinee hcases =>
    rintro n k _ hfields (_ | ⟨hfoundScrutinee, _ | ⟨hfoundCases, ⟨⟩⟩⟩)
    obtain ⟨n, ks, rfl, rfl, hks, hdepth⟩ := hfoundCases.arr (by simp)
    have hscrutinee := hfoundScrutinee.required (by simp) (scrutinee.reads hform hscrutinee)
    have hcases := hks.mapM (readsCases hform cases hcases) hdepth
    simp [Action.decode, Action.unnumbered, unnumberedCases_eq_map, hfields, hscrutinee, hcases]
  | .leave, _ => .atom rfl fun _ => by simp [Action.encode, Action.decode, Action.unnumbered]
  | .giveBack value, h => by
    rw [Action.encode]
    cases h with | giveBack hvalue =>
    exact .choice (by simp)
      ((Expr.reads_option hform hvalue).map Action.giveBack fun n k => by rw [Action.decode])
  | .define d, h => by
    rw [Action.encode]
    cases h with | define hd =>
    exact .choice (by simp)
      ((d.reads hform hd).map Action.define fun n k => by rw [Action.decode])
  | .print e, h => by
    rw [Action.encode]
    cases h with | print he =>
    exact .choice (by simp) ((e.reads hform he).map Action.print fun n k => by rw [Action.decode])
  | .printError e, h => by
    rw [Action.encode]
    cases h with | printError he =>
    exact .choice (by simp)
      ((e.reads hform he).map Action.printError fun n k => by rw [Action.decode])
  | .block body, h => by
    rw [Action.encode, encodeAll_eq_map]
    cases h with | block hbody =>
    refine .choice (by simp) (.arr fun n ks hks hdepth => ?_)
    have hbody := hks.mapM (readsAll hform body hbody) hdepth
    simp [Action.decode, Action.unnumbered, unnumberedAll_eq_map, hbody]

theorem Case.reads {form : FloatForm} (hform : form.ReadsBack) :
    (c : Case) → c.Writable → Reads Case.decode (c.encode form) c.unnumbered
  | ⟨label, body⟩, h => by
    rw [Case.encode, encodeAll_eq_map]
    refine .record trivial (by simp) ?_
    cases h with | mk hlabel hbody =>
    rintro n k _ hfields (_ | ⟨hfoundLabel, _ | ⟨hfoundBody, ⟨⟩⟩⟩)
    obtain ⟨n, ks, rfl, rfl, hks, hdepth⟩ := hfoundBody.arr (by simp)
    have hlabel := hfoundLabel.optional (by simp) fun e he => e.reads hform (hlabel e he)
    have hbody := hks.mapM (readsAll hform body hbody) hdepth
    simp [Case.decode, Case.unnumbered, unnumberedAll_eq_map, hfields, hlabel, hbody]

theorem Definition.reads {form : FloatForm} (hform : form.ReadsBack) :
    (d : Definition) → d.Writable → Reads Definition.decode (d.encode form) d.unnumbered
  | ⟨_, name, returns, params, body⟩, h => by
    rw [Definition.encode]
    refine .record trivial (by simp) ?_
    cases h with | mk _ _ _ _ hbody =>
    rintro n k _ hfields (_ | ⟨hname, _ | ⟨hreturns, _ | ⟨hparams, _ | ⟨hfound, ⟨⟩⟩⟩⟩⟩)
    have hname := hname.required (by simp) (reads_text name)
    have hreturns := hreturns.optional (by simp) fun k _ => k.reads
    have hparams := hparams.defaulted (a := []) (by simp) (Param.reads_list params)
    have hbody := hfound.required (by simp) (body.reads hform hbody)
    simp [Definition.decode, Definition.unnumbered, hfields, hname, hreturns, hparams, hbody]

theorem readsOption {form : FloatForm} (hform : form.ReadsBack) :
    (o : Option Stmt) → (∀ s ∈ o, s.Writable) →
      ∀ s ∈ o, Reads Stmt.decode (s.encode form) s.unnumbered
  | some s, h, _, rfl => s.reads hform (h s rfl)

theorem readsAll {form : FloatForm} (hform : form.ReadsBack) :
    (ss : List Stmt) → (∀ s ∈ ss, s.Writable) →
      ∀ s ∈ ss, Reads Stmt.decode (s.encode form) s.unnumbered
  | s :: _, h, _, .head _ => s.reads hform (h s (.head _))
  | _ :: ss, h, _, .tail _ hs => readsAll hform ss (fun s hs => h s (.tail _ hs)) _ hs

theorem readsCases {form : FloatForm} (hform : form.ReadsBack) :
    (cs : List Case) → (∀ c ∈ cs, c.Writable) →
      ∀ c ∈ cs, Reads Case.decode (c.encode form) c.unnumbered
  | c :: _, h, _, .head _ => c.reads hform (h c (.head _))
  | _ :: cs, h, _, .tail _ hc => readsCases hform cs (fun c hc => h c (.tail _ hc)) _ hc

end

theorem Program.reads {form : FloatForm} (hform : form.ReadsBack) {p : Program} (h : p.Writable) :
    Reads Program.decode (p.encode form) p.unnumbered := by
  rw [Program.encode, encodeAll_eq_map]
  refine .record (by simp) (by simp) ?_
  rintro n k _ hfields (_ | ⟨hfound, ⟨⟩⟩)
  obtain ⟨n, ks, rfl, rfl, hks, hdepth⟩ := hfound.arr (by simp)
  have hstatements := hks.mapM (readsAll hform p.statements h) hdepth
  simp [Program.decode, Program.unnumbered, unnumberedAll_eq_map, hfields, hstatements]

/-- A program is read back from every document that says the same as the one it is written as, at
any nesting, and from one within the limit of nesting also under that limit. Only the numbers
of its definitions are lost, which are given anew. -/
theorem programs_read_back {form : FloatForm} (hform : form.ReadsBack) {p : Program}
    (hp : p.Writable) {j : Json} (hj : Variant (p.encode form) j) :
    Program.ofJson? j = some p.unnumbered ∧
      (j.depth ≤ Program.nestingLimit → Program.ofDocument? j = some p.unnumbered) ∧
      ∀ n, p.unnumbered.number n = p.number n := by
  have hreads := Program.reads hform hp hj
  exact ⟨hreads (le_refl _), fun hdepth => hreads hdepth, fun n => p.number_unnumbered n⟩

/-- A function of one and a half, as a run has numbered it. -/
def half : Program :=
  ⟨[⟨.define ⟨7, "half", some .double, [],
    ⟨.giveBack (some (.literal (.double (Float.ofBits 0x3ff8000000000000)))), none⟩⟩, some 3⟩]⟩

/-- The same without the fields that may be left out, and with some that nothing reads. -/
def halfSparse : Json :=
  .obj [("version", .int 2), ("statements", .arr [
    .obj [("span", .obj [("line", .int 3), ("column", .int 8)]),
      ("kind", .tagged "function_def" (.obj [("name", .str "half"), ("return_kind", .str "double"),
        ("body", .obj [("kind", .tagged "return" (.tagged "literal" (.tagged "double"
          (.real (Float.ofBits 0x3ff8000000000000)))))])]))]])]

theorem programs_read_back_sparse :
    Program.ofJson? halfSparse = some half.unnumbered ∧
      Program.ofDocument? halfSparse = some half.unnumbered := by
  have hfinite : (Literal.double (Float.ofBits 0x3ff8000000000000)).Writable := by
    rw [Literal.Writable, ofDouble_ofBits]
    trivial
  have hvalue : ∀ e ∈ some (Expr.literal (.double (Float.ofBits 0x3ff8000000000000))),
      e.Writable := by
    rintro _ ⟨⟩
    exact .literal hfinite
  have hwritable : half.Writable :=
    List.forall_mem_singleton.2 (.mk _ (.define (.mk _ _ _ _ (.mk _ (.giveBack hvalue)))))
  have hvariant : Variant (half.encode .number) halfSparse := by
    refine .record (.inr rfl) (.kept rfl (.arr (.cons (.record trivial ?_) .nil)) (.nil _))
    refine .kept rfl (.choice _ (.record trivial ?_)) (.kept rfl (.record (.inl rfl) ?_) (.nil _))
    · refine .kept rfl (.same _) (.kept rfl (.same _) (.omitted rfl .params ?_))
      refine .kept rfl (.record trivial ?_) (.nil _)
      exact .kept rfl (.same _) (.omitted rfl (.null _) (.nil _))
    · exact .kept rfl (.same _) (.nil _)
  have hread := programs_read_back FloatForm.number_readsBack hwritable hvariant
  exact ⟨hread.1, hread.2.1 (by decide)⟩

end Yap
