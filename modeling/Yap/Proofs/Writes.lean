import Yap.Proofs.Scoping
import Yap.Proofs.Slots

/-! Writes to variables: assignments and steps. Main statement: a target that is unbound or constant
is refused before anything is evaluated, and once the parts of a write are evaluated it changes one
variable, and there only what is asked for, or there is an error or a warning and all variables are
as they were. -/
namespace Yap

namespace Variable

def SetsValue (v : Value) (x x' : Variable) : Prop :=
  x.isArray = false ∧ x' = { x with storage := .scalar (v.convert x.kind) }

/-- An array of which one element got another value. -/
def SetsElement (i : Int32) (v : Value) (x x' : Variable) : Prop :=
  ∃ b b', x.storage = .array b ∧ x' = { x with storage := .array b' } ∧ b'.kind = b.kind ∧
    b'.length = b.length ∧
    ∀ j : Nat, b'.get? j = if (j : Int) = i.toInt then some (v.convert b.kind) else b.get? j

/-- An array that got bytes, and a zero behind them. -/
def SetsText (bytes : List UInt8) (x x' : Variable) : Prop :=
  ∃ b b', x.storage = .array b ∧ x' = { x with storage := .array b' } ∧ b'.kind = b.kind ∧
    b'.length = b.length ∧ bytes.length < b.length ∧
    ∀ j : Nat, b'.get? j = ((bytes.map Buffer.ofByte ++ [Value.int 0])[j]?).or (b.get? j)

theorem setsValue_setValue {x : Variable} (h : x.isArray = false) (v : Value) :
    x.SetsValue v (x.setValue v) := by
  rw [isArray] at h
  rw [SetsValue, isArray, setValue]
  cases hs : x.storage with
  | scalar w => exact ⟨rfl, rfl⟩
  | array b => simp [hs] at h

theorem setsElement_setBuffer {x : Variable} {b : Buffer} {i : Int32} (hs : x.storage = .array b)
    (hi : b.contains i = true) (name : String) (v : Value) :
    x.SetsElement i v (x.setBuffer (b.write name i v).1) := by
  cases hp : Buffer.place? i with
  | none => simp [Buffer.contains, hp] at hi
  | some k =>
    have hk : k < b.length := by simpa [Buffer.contains, hp] using hi
    have hki : (k : Int) = i.toInt := (Buffer.place?_eq_some.1 hp).symm
    obtain ⟨b', hb'⟩ := Option.isSome_iff_exists.1
      ((Buffer.set?_isSome b k v).trans (decide_eq_true hk))
    obtain ⟨hkind, hlength, hcells⟩ := Buffer.set?_eq_some hb'
    have hwrite : (b.write name i v).1 = b' := by simp [Buffer.write, hp, hb']
    refine ⟨b, b', hs, by rw [setBuffer, hs, hwrite], hkind, hlength, fun j => ?_⟩
    rw [hcells, ← hki]
    exact if_congr Int.natCast_inj.symm rfl rfl

theorem setsText_setBuffer {x : Variable} {b b' : Buffer} {bytes : List UInt8}
    (hs : x.storage = .array b) (h : b.store? bytes = some b') :
    x.SetsText bytes (x.setBuffer b') := by
  obtain ⟨hkind, hlength⟩ := Buffer.store?_eq_some h
  have hfits := Buffer.store?_isSome.1 (Option.isSome_of_mem h)
  exact ⟨b, b', hs, by rw [setBuffer, hs], hkind, hlength, hfits.2, Buffer.get?_of_store? h⟩

end Variable

section Specifications

variable {α β : Type}

/-- What a write comes to: the variable of a name changes and no other, or there is a warning or an
error and the variables are those there were. -/
def WritesOnce (name : String) (R : Variable → Variable → Prop) (m : Machine) : Outcome α → Prop
  | .done _ m' => m'.diagnostics = m.diagnostics ∧ m.chain.ChangedAt name R m'.chain ∨
      m'.diagnostics ≠ m.diagnostics ∧ m'.chain = m.chain
  | .stopped _ m' => m'.chain = m.chain
  | .outOfFuel => False

/-- A warning is all there is, and the variables are those there were. -/
def OnlyWarns (w : Warning) (a : α) (m : Machine) (o : Outcome α) : Prop :=
  o = (Run.report w >>= fun _ => pure a) m ∧ ∃ m', o.machine? = some m' ∧ m'.chain = m.chain

/-- A part is evaluated first. Unless it ends with a value that is all there is. -/
def Follows (part : Run α) (rest : α → Machine → Outcome β → Prop) (m : Machine)
    (o : Outcome β) : Prop :=
  match part m with
  | .done a m' => rest a m' o
  | .stopped s m' => o = .stopped s m'
  | .outOfFuel => o = .outOfFuel

/-- A name that is unbound or bound to a constant is refused, and nothing is evaluated. -/
def Targets (name : String) (unbound : Cause) (rest : Variable → Machine → Outcome α → Prop)
    (m : Machine) (o : Outcome α) : Prop :=
  match m.chain.find? name with
  | none => o = .stopped (.fault unbound none) m
  | some x =>
    if x.modifiers.const then o = .stopped (.fault (.constAssignment name) none) m
    else rest x m o

variable {name : String} {R S : Variable → Variable → Prop} {m : Machine}

theorem onlyWarns_report (w : Warning) (a : α) (m : Machine) :
    OnlyWarns w a m ((Run.report w >>= fun _ => pure a) m) := by
  refine ⟨rfl, ?_⟩
  rw [Run.bind_apply, Run.report]
  by_cases hp : m.policy = .abort
  · rw [if_pos hp]
    exact ⟨m, rfl, rfl⟩
  · rw [if_neg hp]
    exact ⟨m.record w, rfl, by simp⟩

theorem follows_bind {part : Run α} {f : α → Run β} {rest : α → Machine → Outcome β → Prop}
    (h : ∀ a m', part m = .done a m' → rest a m' (f a m')) :
    Follows part rest m ((part >>= f) m) := by
  rw [Follows, Run.bind_apply]
  cases hp : part m with
  | done a m' => exact h a m' hp
  | stopped s m' => rfl
  | outOfFuel => rfl

theorem targets_bind {lookup : Run Variable} {unbound : Cause} {f : Variable → Run α}
    {rest : Variable → Machine → Outcome α → Prop}
    (hnone : m.chain.find? name = none → lookup m = .stopped (.fault unbound none) m)
    (hsome : ∀ x, m.chain.find? name = some x → lookup m = .done x m)
    (h : ∀ x, m.chain.find? name = some x → x.modifiers.const = false → rest x m (f x m)) :
    Targets name unbound rest m
      ((lookup >>= fun x => Run.writable x >>= fun _ => f x) m) := by
  rw [Targets, Run.bind_apply]
  cases hx : m.chain.find? name with
  | none =>
    rw [hnone hx]
  | some x =>
    rw [hsome x hx]
    dsimp only
    rw [Run.bind_apply, Run.writable]
    cases hc : x.modifiers.const with
    | true =>
      rw [← Chain.name_of_find? hx]
      rfl
    | false => exact h x hx hc

namespace WritesOnce

theorem mono {o : Outcome α} (h : WritesOnce name R m o) (hRS : ∀ x x', R x x' → S x x') :
    WritesOnce name S m o := by
  cases o with
  | done a m' => exact h.imp (fun h => ⟨h.1, h.2.mono hRS⟩) id
  | stopped s m' => exact h
  | outOfFuel => exact h

/-- What follows a write and leaves the machine alone makes no difference. -/
theorem bind {x : Run α} (h : WritesOnce name R m (x m)) {f : α → Run β}
    (hf : ∀ a m', ∃ b, f a m' = .done b m') : WritesOnce name R m ((x >>= f) m) := by
  rw [Run.bind_apply]
  cases hx : x m with
  | done a m' =>
    obtain ⟨b, hb⟩ := hf a m'
    rw [hx] at h
    dsimp only
    rw [hb]
    exact h
  | stopped s m' =>
    rw [hx] at h
    exact h
  | outOfFuel =>
    rw [hx] at h
    exact h

theorem andPure {x : Run α} (h : WritesOnce name R m (x m)) (b : β) :
    WritesOnce name R m ((x >>= fun _ => pure b) m) := h.bind fun _ _ => ⟨b, rfl⟩

theorem report (w : Warning) : WritesOnce name R m (Run.report w m) := by
  rw [Run.report]
  split
  · exact rfl
  · exact Or.inr ⟨by simp, by simp⟩

theorem of_update {x : Variable} (hx : m.chain.find? name = some x) {f : Variable → Variable}
    (hR : R x (f x)) (a : α) :
    WritesOnce name R m (.done a { m with chain := m.chain.update name f }) :=
  Or.inl ⟨rfl, .update hx hR⟩

theorem overwrite (name : String) (v : Value) (m : Machine) :
    WritesOnce name (·.SetsValue v) m (Run.overwrite name v m) := by
  rw [Run.overwrite, Chain.assign]
  cases hx : m.chain.find? name with
  | none => exact rfl
  | some x =>
    dsimp only
    by_cases hc : x.modifiers.const = true
    · rw [if_pos hc]
      exact rfl
    · rw [if_neg hc]
      cases ha : x.isArray with
      | true => exact report (.arrayAsScalar name)
      | false => exact of_update hx (Variable.setsValue_setValue ha v) ()

theorem writeElement {x : Variable} {b : Buffer} {i : Int32} (hx : m.chain.find? name = some x)
    (hb : x.buffer? = some b) (hi : b.contains i = true) (v : Value) :
    WritesOnce name (·.SetsElement i v) m (Run.writeElement name i v m) := by
  have hs := Variable.buffer?_eq_some.1 hb
  obtain ⟨b', hw, -⟩ := Buffer.write_of_contains hi name v
  have hR := Variable.setsElement_setBuffer hs hi name v
  rw [Run.writeElement, Chain.writeElement, hx]
  simp only [hs]
  rw [hw] at hR ⊢
  exact of_update hx hR ()

end WritesOnce

end Specifications

namespace Runner

variable (n : Nat) (m : Machine) (name : String)

theorem assign_writes (value : Expr) :
    Targets name (.undefinedVariable name)
      (fun x => Follows ((ofFuel n).evalAs value x.kind) fun v => WritesOnce name (·.SetsValue v))
      m ((ofFuel n).assign name value m) := by
  refine targets_bind Run.lookup_of_none (fun x hx => Run.lookup_eq_done.2 ⟨hx, rfl⟩)
    fun x _ _ => ?_
  refine follows_bind fun v m' _ => ?_
  exact (WritesOnce.overwrite name v m').andPure _

variable {n m name} in
/-- What follows the index of an assignment to an element: outside the array that is a warning, and
the value is not evaluated. -/
theorem assignAt_writes {x : Variable} {b : Buffer} {index value : Expr} {i : Int32}
    {m' : Machine} (hx : m.chain.find? name = some x) (hb : x.buffer? = some b)
    (hi : (ofFuel n).evalInt index m = .done i m') :
    (if b.contains i then
      Follows ((ofFuel n).evalAs value x.kind) fun v => WritesOnce name (·.SetsElement i v)
    else OnlyWarns (b.outOfBounds name i) Flow.normal) m'
      (((ofFuel n).assignAt name x.kind i value >>= fun _ => pure .normal) m') := by
  obtain ⟨y, hy, hyx⟩ := find?_of_evalInt hx hi
  obtain ⟨b', hb', hlength⟩ := Variable.buffer?_of_shape hyx hb
  have hcontains : b'.contains i = b.contains i := Buffer.contains_of_length hlength i
  have hwarning : b'.outOfBounds name i = b.outOfBounds name i := by
    rw [Buffer.outOfBounds, hlength, Buffer.outOfBounds]
  rw [assignAt, bind_assoc, Run.bind_of_done (x := Run.gets _) rfl, hy]
  simp only [Option.bind_some, hb', hcontains, hwarning]
  cases hin : b.contains i with
  | false => exact onlyWarns_report _ _ m'
  | true =>
    rw [if_pos rfl, if_pos rfl, bind_assoc]
    refine follows_bind fun v m'' hv => ?_
    have hshapes : SameShapes m' m'' := SameShapes.effects.congruence.evalAs
      (SameShapes.effects.ofFuel n) value x.kind (by rw [hv]; rfl)
    obtain ⟨z, hz, hzy⟩ := Chain.find?_of_shapes hshapes hy
    obtain ⟨b'', hb'', hlength'⟩ := Variable.buffer?_of_shape hzy hb'
    have hin' : b''.contains i = true :=
      (Buffer.contains_of_length hlength' i).trans (hcontains.trans hin)
    exact (WritesOnce.writeElement hz hb'' hin' v).andPure _

theorem assignElement_writes (index value : Expr) :
    Targets name (.undefinedArray name)
      (fun x => match x.buffer? with
        | none => OnlyWarns (.notAnArray name) .normal
        | some b => Follows ((ofFuel n).evalInt index) fun i =>
          if b.contains i then
            Follows ((ofFuel n).evalAs value x.kind) fun v => WritesOnce name (·.SetsElement i v)
          else OnlyWarns (b.outOfBounds name i) .normal)
      m ((ofFuel n).assignElement name index value m) := by
  refine targets_bind Run.lookupArray_of_none
    (fun x hx => Run.lookupArray_eq_done.2 ⟨hx, rfl⟩) fun x hx _ => ?_
  cases hb : x.buffer? with
  | none =>
    have ha : x.isArray = false := by rw [Variable.isArray_eq_isSome, hb]; rfl
    rw [if_neg (by simp [ha])]
    exact onlyWarns_report _ _ m
  | some b =>
    have ha : x.isArray = true := by rw [Variable.isArray_eq_isSome, hb]; rfl
    rw [if_pos ha]
    exact follows_bind fun i m' hi => assignAt_writes hx hb hi

theorem step_writes (delta : Int32) (old : Bool) :
    Targets name (.undefinedVariable name)
      (fun _ => WritesOnce name fun x x' => ∃ v, x.SetsValue v x')
      m (step (.ident name) delta old m) := by
  refine targets_bind Run.lookup_of_none (fun x hx => Run.lookup_eq_done.2 ⟨hx, rfl⟩)
    fun x hx _ => ?_
  cases ha : x.isArray with
  | true => exact (WritesOnce.report _).andPure _
  | false =>
    obtain ⟨v, hv⟩ : ∃ v, x.value = .clean v := by
      rw [Variable.isArray] at ha
      rw [Variable.value]
      cases hs : x.storage with
      | scalar v => exact ⟨v, rfl⟩
      | array b => simp [hs] at ha
    have hold : Run.settle (Checked.clean v) m = .done v m := rfl
    have hsum (b : Value) : Run.settle (Value.binary .add v b false) m =
        .done (Value.binary .add v b false).value m :=
      Run.settle_of_warning_none (Value.warning_binary_add v b false) m
    rw [if_neg (by simp), hv, Run.bind_of_done hold, Run.bind_of_done (hsum _)]
    refine ((WritesOnce.overwrite name _ m).mono fun x x' h => ⟨_, h⟩).bind fun _ m' => ?_
    exact ⟨_, rfl⟩

end Runner

/-- What an increment or decrement comes to. It takes a name. -/
def StepWrites (operand : Expr) (m : Machine) (o : Outcome Value) : Prop :=
  match operand with
  | .ident name =>
    Targets name (.undefinedVariable name)
      (fun _ => WritesOnce name fun x x' => ∃ v, x.SetsValue v x') m o
  | e => o = .stopped (.fault (.invalidIncrementTarget e.description) none) m

theorem Runner.step_stepWrites (operand : Expr) (delta : Int32) (old : Bool) (m : Machine) :
    StepWrites operand m (step operand delta old m) := by
  cases operand with
  | ident name => exact step_writes m name delta old
  | _ => exact rfl

end Yap
