import Yap.Machine.Evaluation

/-! Arguments of formatted output, as the specifications of a format consume them. Main statement:
each specification that has an argument takes it once, in order and up to the first failure, by one
evaluation or none; further specifications stand as written, further arguments are not evaluated,
and what fails prints nothing. -/
namespace Yap

namespace Format

def specs : List Piece → List Spec
  | [] => []
  | .literal _ :: ps => specs ps
  | .spec s :: ps => s :: specs ps

/-- Pieces with texts in the places of the first specifications. Further ones stand as written. -/
def fill : List Piece → List (List Char) → List Char
  | [], _ => []
  | .literal t :: ps, ts => t ++ fill ps ts
  | .spec s :: ps, [] => s.source ++ fill ps []
  | .spec _ :: ps, t :: ts => t ++ fill ps ts

theorem length_specs (ps : List Piece) : (specs ps).length = specCount ps := by
  induction ps with
  | nil => rfl
  | cons p ps ih =>
    cases p with
    | literal t => exact ih
    | spec s => exact congrArg (· + 1) ih

end Format

open Format

/-- An expression can be the argument of a specification: what is known of it without evaluating it
is what the specification asks for, and its value is asked for. -/
inductive Admits (m : Machine) (s : Spec) (e : Expr) : Prop
  | floating {k : Kind} : s.conversion.argClass = .floating → m.kindOf e = .ok k →
      k.isFloating = true → Admits m s e
  | bool : s.conversion = .bool → Admits m s e
  | integer {k : Kind} : s.conversion.argClass = .integer → m.kindOf e = .ok k → Admits m s e

/-- The integer that a value shows as. Of a short kind 16 bits count, of any other 32. -/
def Value.shownInteger (v : Value) (k : Kind) (unsigned : Bool) : Int :=
  if k.numeric = .short then
    if unsigned then v.toInt16.toUInt16.toNat else v.toInt16.toInt
  else if unsigned then v.toInt32.toUInt32.toNat
  else v.toInt32.toInt

namespace Runner

variable (r : Runner)

/-- Expressions are evaluated in order, each once, and all of them have values. -/
inductive Evaluates : List Expr → Machine → Machine → Prop
  | nil {m : Machine} : Evaluates [] m m
  | cons {e : Expr} {es : List Expr} {v : Value} {m m₁ m' : Machine} :
      r.eval e m = .done v m₁ → Evaluates es m₁ m' → Evaluates (e :: es) m m'

/-- A specification takes its argument and has a text for it. A literal is not evaluated, any other
expression is once. -/
inductive Takes (s : Spec) (e : Expr) (m : Machine) : List Char → Machine → Prop
  | literal {t : String} : s.conversion.argClass = .str → e = .text t →
      Takes s e m (s.renderText t.toList) m
  | floating {k : Kind} {v : Value} {m' : Machine} : s.conversion.argClass = .floating →
      m.kindOf e = .ok k → k.isFloating = true → r.eval e m = .done v m' →
      Takes s e m (s.renderFloat v.toFloat) m'
  | bool {v : Value} {m' : Machine} : s.conversion = .bool → r.eval e m = .done v m' →
      Takes s e m (s.renderInteger (if v.isTruthy then 1 else 0)) m'
  | integer {k : Kind} {v : Value} {m' : Machine} : s.conversion.argClass = .integer →
      s.conversion ≠ .bool → m.kindOf e = .ok k → r.eval e m = .done v m' →
      Takes s e m (s.renderInteger (v.shownInteger k (m.isUnsigned e))) m'

/-- A specification fails with its argument: that is rejected as it is, and not evaluated, or its
evaluation does not end with a value. -/
inductive Fails (s : Spec) (e : Expr) (m : Machine) {α : Type} : Outcome α → Prop
  | notLiteral : s.conversion.argClass = .str → (∀ t, e ≠ .text t) →
      Fails s e m (.stopped (.fault (.format (.needsLiteral s.source)) none) m)
  | notFloating {k : Kind} : s.conversion.argClass = .floating → m.kindOf e = .ok k →
      k.isFloating = false →
      Fails s e m (.stopped (.fault (.format (.needsFloat s.source)) none) m)
  | noKind {c : Cause} : s.conversion.argClass ≠ .str → s.conversion ≠ .bool →
      m.kindOf e = .error c → Fails s e m (.stopped (.fault c none) m)
  | stopped {st : Stop} {m' : Machine} : Admits m s e → r.eval e m = .stopped st m' →
      Fails s e m (.stopped st m')
  | outOfFuel : Admits m s e → r.eval e m = .outOfFuel → Fails s e m .outOfFuel

inductive TakesAll : List (Spec × Expr) → Machine → List (List Char) → Machine → Prop
  | nil {m : Machine} : TakesAll [] m [] m
  | cons {s : Spec} {e : Expr} {rest : List (Spec × Expr)} {m m₁ m' : Machine} {t : List Char}
      {ts : List (List Char)} : r.Takes s e m t m₁ → TakesAll rest m₁ ts m' →
      TakesAll ((s, e) :: rest) m (t :: ts) m'

def argText (s : Spec) (e : Expr) : Run (List Char) := do
  let a ← r.formatArg s e
  Run.ofExcept ((s.render a).mapError .format)

variable {s : Spec} {e : Expr} {m : Machine}

/-- A specification ends with its argument: it takes it, or it fails with it. -/
def TakesOrFails (s : Spec) (e : Expr) (m : Machine) (o : Outcome (List Char)) : Prop :=
  (∃ t m', r.Takes s e m t m' ∧ o = .done t m') ∨ r.Fails s e m o

variable {r}

theorem kindOf_of_error {c : Cause} (h : m.kindOf e = .error c) :
    Run.kindOf e m = .stopped (.fault c none) m := by
  rw [Run.kindOf, Run.bind_of_done (x := Run.gets _) rfl, h]
  rfl

/-- A specification that evaluates its argument and renders what becomes of the value. -/
theorem takesOrFails_of_eval {arg : Value → Arg} {text : Value → List Char} (ha : Admits m s e)
    (hr : r.formatArg s e m = (r.eval e >>= fun v => pure (arg v)) m)
    (ht : ∀ v, s.render (arg v) = .ok (text v))
    (hs : ∀ v m', r.eval e m = .done v m' → r.Takes s e m (text v) m') :
    r.TakesOrFails s e m (r.argText s e m) := by
  have hb : r.argText s e m = (r.eval e >>= fun v => pure (text v)) m := by
    rw [argText, Run.bind_apply, hr, Run.bind_apply, Run.bind_apply]
    cases r.eval e m with
    | done v m' =>
      change Run.ofExcept ((s.render (arg v)).mapError .format) m' = _
      rw [ht v]
      rfl
    | stopped st m' => rfl
    | outOfFuel => rfl
  rw [hb, Run.bind_apply]
  cases hv : r.eval e m with
  | done v m' => exact .inl ⟨text v, m', hs v m' hv, rfl⟩
  | stopped st m' => exact .inr (.stopped ha hv)
  | outOfFuel => exact .inr (.outOfFuel ha hv)

/-- A specification that refuses its argument as it is. -/
theorem takesOrFails_of_fault {c : Cause} (hr : r.formatArg s e m = .stopped (.fault c none) m)
    (hf : r.Fails (α := List Char) s e m (.stopped (.fault c none) m)) :
    r.TakesOrFails s e m (r.argText s e m) := by
  rw [argText, Run.bind_apply, hr]
  exact .inr hf

theorem takesOrFails_str (hc : s.conversion.argClass = .str) :
    r.TakesOrFails s e m (r.argText s e m) := by
  by_cases ht : ∃ t, e = .text t
  · obtain ⟨t, rfl⟩ := ht
    have hr : r.formatArg s (.text t) m = .done (.str t.toList) m := by
      simp only [formatArg, hc]
      rfl
    refine .inl ⟨s.renderText t.toList, m, .literal hc rfl, ?_⟩
    rw [argText, Run.bind_of_done hr]
    simp only [Spec.render, hc]
    rfl
  · have ht' : ∀ t, e ≠ .text t := fun t h => ht ⟨t, h⟩
    refine takesOrFails_of_fault ?_ (.notLiteral hc ht')
    cases e with
    | text t => exact absurd rfl (ht' t)
    | _ => simp only [formatArg, hc]; rfl

theorem takesOrFails_floating (hc : s.conversion.argClass = .floating) :
    r.TakesOrFails s e m (r.argText s e m) := by
  have hr : r.formatArg s e = (do
      let k ← Run.kindOf e
      if k.isFloating then r.eval e >>= fun v => pure (.float v.toFloat)
      else Run.fail (.format (.needsFloat s.source))) := by
    simp only [formatArg, hc]
  cases hk : m.kindOf e with
  | error c =>
    have hb : s.conversion ≠ .bool := fun h => by simp [h, Conversion.argClass] at hc
    refine takesOrFails_of_fault ?_ (.noKind (by simp [hc]) hb hk)
    rw [hr, Run.bind_apply, kindOf_of_error hk]
  | ok k =>
    replace hr := (congrFun hr m).trans (Run.bind_of_done (Run.kindOf_eq_done.2 ⟨hk, rfl⟩) _)
    cases hf : k.isFloating with
    | false =>
      rw [hf] at hr
      exact takesOrFails_of_fault hr (.notFloating hc hk hf)
    | true =>
      rw [hf] at hr
      exact takesOrFails_of_eval (.floating hc hk hf) hr (fun v => by simp only [Spec.render, hc])
        fun v m' => .floating hc hk hf

theorem takesOrFails_bool (hb : s.conversion = .bool) : r.TakesOrFails s e m (r.argText s e m) := by
  have hc : s.conversion.argClass = .integer := by rw [hb]; rfl
  have hr : r.formatArg s e =
      (r.eval e >>= fun v => pure (.integer (if v.isTruthy then 1 else 0))) := by
    simp only [formatArg, hc, if_pos hb]
  exact takesOrFails_of_eval (.bool hb) (congrFun hr m) (fun v => by simp only [Spec.render, hc])
    fun v m' => .bool hb

theorem takesOrFails_integer (hc : s.conversion.argClass = .integer) (hb : s.conversion ≠ .bool) :
    r.TakesOrFails s e m (r.argText s e m) := by
  have hr : r.formatArg s e m = (do
      let k ← Run.kindOf e
      let v ← r.eval e
      pure (Arg.integer (v.shownInteger k (m.isUnsigned e)))) m := by
    simp only [formatArg, hc, if_neg hb]
    rfl
  cases hk : m.kindOf e with
  | error c =>
    refine takesOrFails_of_fault ?_ (.noKind (by simp [hc]) hb hk)
    rw [hr, Run.bind_apply, kindOf_of_error hk]
  | ok k =>
    replace hr := hr.trans (Run.bind_of_done (Run.kindOf_eq_done.2 ⟨hk, rfl⟩) _)
    exact takesOrFails_of_eval (.integer hc hk) hr (fun v => by simp only [Spec.render, hc])
      fun v m' => .integer hc hb hk

/-- Each specification takes its argument or fails with it. -/
theorem takesOrFails (r : Runner) (s : Spec) (e : Expr) (m : Machine) :
    r.TakesOrFails s e m (r.argText s e m) := by
  cases hc : s.conversion.argClass with
  | str => exact takesOrFails_str hc
  | floating => exact takesOrFails_floating hc
  | integer =>
    by_cases hb : s.conversion = .bool
    · exact takesOrFails_bool hb
    · exact takesOrFails_integer hc hb

/-! ### Pieces -/

/-- How something ends whose specifications meet arguments in these pairs: the specifications take
their arguments, all of them or up to the first that fails. The texts make up the result. -/
def Consumes {α : Type} (pairs : List (Spec × Expr)) (m : Machine)
    (result : List (List Char) → α) (o : Outcome α) : Prop :=
  ∃ taken rest texts m', pairs = taken ++ rest ∧ r.TakesAll taken m texts m' ∧
    match rest with
    | [] => o = .done (result texts) m'
    | (s, e) :: _ => r.Fails s e m' o

variable {α β : Type} {pairs : List (Spec × Expr)} {result : List (List Char) → α}

/-- What follows an argument does not matter if a specification fails with that. -/
theorem Fails.bind {x : Run α} {o : Machine} (h : r.Fails s e m (x o)) (f : α → Run β) :
    r.Fails s e m ((x >>= f) o) := by
  rw [Run.bind_apply]
  generalize x o = y at h
  cases h with
  | notLiteral hc ht => exact .notLiteral hc ht
  | notFloating hc hk hf => exact .notFloating hc hk hf
  | noKind hc hb hk => exact .noKind hc hb hk
  | stopped ha hv => exact .stopped ha hv
  | outOfFuel ha hv => exact .outOfFuel ha hv

theorem Consumes.map {x : Run α} (h : r.Consumes pairs m result (x m)) (f : α → β) :
    r.Consumes pairs m (fun ts => f (result ts)) ((x >>= fun a => pure (f a)) m) := by
  obtain ⟨taken, rest, texts, m', hp, ht, hr⟩ := h
  refine ⟨taken, rest, texts, m', hp, ht, ?_⟩
  cases rest with
  | nil => exact Run.bind_of_done hr _
  | cons p rest => exact Fails.bind hr _

/-- A further argument in front. -/
theorem Consumes.cons {t : List Char} {m₁ : Machine} {o : Outcome α} (ht : r.Takes s e m t m₁)
    (h : r.Consumes pairs m₁ (fun ts => result (t :: ts)) o) :
    r.Consumes ((s, e) :: pairs) m result o := by
  obtain ⟨taken, rest, texts, m', rfl, hts, hr⟩ := h
  exact ⟨(s, e) :: taken, rest, t :: texts, m', rfl, .cons ht hts, hr⟩

theorem renderPieces_consumes (r : Runner) (ps : List Piece) (args : List Expr) (m : Machine) :
    r.Consumes ((specs ps).zip args) m (fill ps) (r.renderPieces ps args m) := by
  induction ps generalizing args m with
  | nil => exact ⟨[], [], [], m, rfl, .nil, rfl⟩
  | cons p ps ih =>
    cases p with
    | literal t => exact (ih args m).map (t ++ ·)
    | spec s =>
      cases args with
      | nil =>
        -- without an argument there is no pair, and this holds of all further specifications
        obtain ⟨taken, rest, texts, m', hp, ht, hr⟩ := (ih [] m).map (s.source ++ ·)
        obtain ⟨rfl, rfl⟩ := List.append_eq_nil_iff.1 (hp.symm.trans List.zip_nil_right)
        cases ht
        exact ⟨[], [], [], m, rfl, .nil, hr⟩
      | cons e args =>
        have hb : r.renderPieces (.spec s :: ps) (e :: args) =
            (r.argText s e >>= fun t => r.renderPieces ps args >>= fun u => pure (t ++ u)) := by
          rw [argText, bind_assoc]
          rfl
        rw [hb]
        -- the first pair is taken and the others go on from there, or it is the first that fails
        rcases takesOrFails r s e m with ⟨t, m₁, ht, hd⟩ | hf
        · rw [Run.bind_of_done hd]
          exact ((ih args m₁).map (t ++ ·)).cons ht
        · exact ⟨[], (s, e) :: (specs ps).zip args, [], m, rfl, .nil, hf.bind _⟩

/-- A format that parses is rendered as its pieces. -/
theorem render_consumes {format : String} {ps : List Piece} (h : parse format = .ok ps)
    (args : List Expr) (m : Machine) :
    r.Consumes ((specs ps).zip args) m (fun ts => String.ofList (fill ps ts))
      (r.render format args m) := by
  have hr : r.render format args =
      (r.renderPieces ps args >>= fun t => pure (String.ofList t)) := by
    rw [render, h]
    rfl
  exact hr ▸ (renderPieces_consumes r ps args m).map String.ofList

/-! ### Evaluations -/

def evaluated (taken : List (Spec × Expr)) : List Expr :=
  (taken.filter fun p => p.1.conversion.argClass ≠ .str).map Prod.snd

theorem TakesAll.evaluates {taken : List (Spec × Expr)} {ts : List (List Char)} {m' : Machine}
    (h : r.TakesAll taken m ts m') : r.Evaluates (evaluated taken) m m' := by
  induction h with
  | nil => exact .nil
  | cons ht _ ih =>
    cases ht with
    | literal hc _ => simpa [evaluated, hc] using ih
    | floating hc _ _ hv => simpa [evaluated, hc] using Evaluates.cons hv ih
    | bool hb hv => simpa [evaluated, hb, Conversion.argClass] using Evaluates.cons hv ih
    | integer hc _ _ hv => simpa [evaluated, hc] using Evaluates.cons hv ih

theorem TakesAll.length_eq {taken : List (Spec × Expr)} {ts : List (List Char)} {m' : Machine}
    (h : r.TakesAll taken m ts m') : ts.length = taken.length := by
  induction h with
  | nil => rfl
  | cons _ _ ih => exact congrArg (· + 1) ih

/-- Machines that the evaluation of some of the expressions leaves, in order and each at most once.
The last one may have stopped. -/
inductive OnlyEvaluates : List Expr → Machine → Machine → Prop
  | refl {es : List Expr} {m : Machine} : OnlyEvaluates es m m
  | skip {e : Expr} {es : List Expr} {m m' : Machine} :
      OnlyEvaluates es m m' → OnlyEvaluates (e :: es) m m'
  | step {e : Expr} {es : List Expr} {v : Value} {m m₁ m' : Machine} :
      r.eval e m = .done v m₁ → OnlyEvaluates es m₁ m' → OnlyEvaluates (e :: es) m m'
  | stop {e : Expr} {es : List Expr} {st : Stop} {m m' : Machine} :
      r.eval e m = .stopped st m' → OnlyEvaluates (e :: es) m m'

theorem OnlyEvaluates.mono {es fs : List Expr} {m' : Machine} (h : r.OnlyEvaluates es m m')
    (hs : es.Sublist fs) : r.OnlyEvaluates fs m m' := by
  induction hs generalizing m with
  | slnil => exact h
  | cons e _ ih => exact .skip (ih h)
  | cons_cons e _ ih =>
    cases h with
    | refl => exact .refl
    | skip h => exact .skip (ih h)
    | step hv h => exact .step hv (ih h)
    | stop hv => exact .stop hv

theorem Takes.onlyEvaluates {t : List Char} {m₁ m' : Machine} {es : List Expr}
    (ht : r.Takes s e m t m₁) (h : r.OnlyEvaluates es m₁ m') : r.OnlyEvaluates (e :: es) m m' := by
  cases ht with
  | literal => exact .skip h
  | floating _ _ _ hv => exact .step hv h
  | bool _ hv => exact .step hv h
  | integer _ _ _ hv => exact .step hv h

theorem Fails.onlyEvaluates {o : Outcome α} {m' : Machine} {es : List Expr}
    (hf : r.Fails s e m o) (h : o.machine? = some m') : r.OnlyEvaluates (e :: es) m m' := by
  cases hf with
  | notLiteral => cases h; exact .refl
  | notFloating => cases h; exact .refl
  | noKind => cases h; exact .refl
  | stopped _ hv => cases h; exact .stop hv
  | outOfFuel => cases h

theorem Consumes.onlyEvaluates {o : Outcome α} {m' : Machine} (h : r.Consumes pairs m result o)
    (hm : o.machine? = some m') : r.OnlyEvaluates (pairs.map Prod.snd) m m' := by
  obtain ⟨taken, rest, texts, m₁, rfl, ht, hr⟩ := h
  rw [List.map_append]
  induction ht generalizing result with
  | nil =>
    cases rest with
    | nil =>
      subst hr
      cases hm
      exact .refl
    | cons p rest => exact Fails.onlyEvaluates hr hm
  | @cons _ _ _ _ _ _ t _ ht _ ih => exact ht.onlyEvaluates (@ih (fun ts => result (t :: ts)) hr)

theorem map_snd_zip_sublist (as : List α) (bs : List β) :
    ((as.zip bs).map Prod.snd).Sublist bs := by
  induction as generalizing bs with
  | nil => exact List.nil_sublist bs
  | cons a as ih =>
    cases bs with
    | nil => exact .slnil
    | cons b bs => exact (ih bs).cons_cons b

theorem render_onlyEvaluates {format : String} {args : List Expr} {m' : Machine}
    (h : (r.render format args m).machine? = some m') : r.OnlyEvaluates args m m' := by
  cases hp : parse format with
  | error c =>
    rw [render, hp] at h
    cases h
    exact .refl
  | ok ps =>
    exact ((render_consumes hp args m).onlyEvaluates h).mono (map_snd_zip_sublist _ _)

/-- An output builtin writes the text of its format, with an ending, behind the evaluations for it.
If these fail it fails as they do, and a format that is no literal text is refused; then nothing is
written. -/
inductive WritesLast (b : Builtin) (stream : Stream) (ending : String) :
    List Expr → Machine → Outcome Unit → Prop
  | done {format t : String} {es : List Expr} {m m₁ : Machine} :
      r.render format es m = .done t m₁ → r.OnlyEvaluates es m m₁ →
      WritesLast b stream ending (.text format :: es) m (.done () (m₁.write stream (t ++ ending)))
  | stopped {format : String} {es : List Expr} {st : Stop} {m m₁ : Machine} :
      r.render format es m = .stopped st m₁ → r.OnlyEvaluates es m m₁ →
      WritesLast b stream ending (.text format :: es) m (.stopped st m₁)
  | outOfFuel {format : String} {es : List Expr} {m : Machine} :
      r.render format es m = .outOfFuel →
      WritesLast b stream ending (.text format :: es) m .outOfFuel
  | notLiteral {e : Expr} {es : List Expr} {m : Machine} : (∀ t, e ≠ .text t) →
      WritesLast b stream ending (e :: es) m
        (.stopped (.fault (.builtinArgument b .formatNotLiteral) none) m)
  | noFormat {m : Machine} : WritesLast b stream ending [] m
      (.stopped (.fault (.builtinArgument b .noFormat) none) m)

theorem formatted_writesLast (r : Runner) (b : Builtin) (stream : Stream) (ending : String)
    (args : List Expr) (m : Machine) : r.WritesLast b stream ending args m
      ((r.formatted b args >>= fun t => Run.modify (·.write stream (t ++ ending))) m) := by
  rw [Run.bind_apply]
  cases args with
  | nil => exact .noFormat
  | cons e es =>
    cases e with
    | text format =>
      rw [formatted]
      cases ht : r.render format es m with
      | done t m₁ => exact .done ht (render_onlyEvaluates (by rw [ht]; rfl))
      | stopped st m₁ => exact .stopped ht (render_onlyEvaluates (by rw [ht]; rfl))
      | outOfFuel => exact .outOfFuel ht
    | _ => exact .notLiteral nofun

theorem formatted_writesLast_bare (r : Runner) (b : Builtin) (stream : Stream) (args : List Expr)
    (m : Machine) : r.WritesLast b stream "" args m
      ((r.formatted b args >>= fun t => Run.modify (·.write stream t)) m) := by
  have h := formatted_writesLast r b stream "" args m
  simpa only [String.append_empty] using h

/-- A format that does not parse is refused before an argument is evaluated. One with `k`
specifications takes the first `min k n` of `n` arguments, in order and up to the first failure,
each by one evaluation or, as literal text, by none; the specifications behind these stand as
written, and no other argument is evaluated. An output builtin writes the text that this gives when
all of it is done, so one that fails writes none. -/
theorem arguments_consumed (r : Runner) (args : List Expr) (m : Machine) :
    (∀ format, match parse format with
      | .error c => r.render format args m = .stopped (.fault (.format c) none) m
      | .ok ps => ∃ taken rest texts m',
        (specs ps).zip args = taken ++ rest ∧
        taken.length + rest.length = min (specCount ps) args.length ∧
        texts.length = taken.length ∧
        r.TakesAll taken m texts m' ∧ r.Evaluates (evaluated taken) m m' ∧
        match rest with
        | [] => r.render format args m = .done (String.ofList (fill ps texts)) m'
        | (s, e) :: _ => r.Fails s e m' (r.render format args m)) ∧
    r.WritesLast .yapping .out "\n" args (m.note (.builtin .yapping args.length))
      (r.builtin .yapping args m) ∧
    r.WritesLast .yappin .out "" args (m.note (.builtin .yappin args.length))
      (r.builtin .yappin args m) ∧
    if args = [] then
      r.builtin .baka args m = .done () ((m.note (.builtin .baka 0)).write .err "\n")
    else
      r.WritesLast .baka .err "" args (m.note (.builtin .baka args.length))
        (r.builtin .baka args m) := by
  refine ⟨fun format => ?_, formatted_writesLast r _ _ _ args _,
    formatted_writesLast_bare r _ _ args _, ?_⟩
  · cases hp : parse format with
    | error c =>
      change r.render format args m = _
      rw [render, hp]
      rfl
    | ok ps =>
      obtain ⟨taken, rest, texts, m', hz, ht, hr⟩ := render_consumes (r := r) hp args m
      have hl : taken.length + rest.length = min (specCount ps) args.length := by
        rw [← List.length_append, ← hz, List.length_zip, length_specs]
      exact ⟨taken, rest, texts, m', hz, hl, ht.length_eq, ht, ht.evaluates, hr⟩
  · cases args with
    | nil => exact rfl
    | cons e es => exact formatted_writesLast_bare r _ _ (e :: es) _

end Runner

end Yap
