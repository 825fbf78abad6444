import Yap.Proofs.Log
import Yap.Proofs.Registry
import Yap.Proofs.Signals

/-! Definitions at the top level may stand anywhere. Loading registers them all in their order, and
executing one that is registered shows in the log alone, in every machine that a run meets later.
Main statement: a program and the one with its definitions in front end alike, and leave machines
that differ in nothing but the log. -/
namespace Yap

def Stmt.isDefinition (s : Stmt) : Bool :=
  match s.action with
  | .define _ => true
  | _ => false

/-- The program with the definitions at its top level in front of its other statements. -/
def Program.hoisted (p : Program) : Program :=
  ⟨p.statements.filter (·.isDefinition) ++ p.statements.filter (!·.isDefinition)⟩

namespace Stmt

theorem eq_define {s : Stmt} (h : s.isDefinition = true) : ∃ d l, s = ⟨.define d, l⟩ := by
  obtain ⟨a, l⟩ := s
  cases a <;> first | exact ⟨_, _, rfl⟩ | cases h

theorem definitions_cons_of_not {s : Stmt} (h : s.isDefinition = false) (ss : List Stmt) :
    definitions (s :: ss) = definitions ss := by
  obtain ⟨a, l⟩ := s
  cases a <;> first | rfl | cases h

theorem definitions_append (ss ts : List Stmt) :
    definitions (ss ++ ts) = definitions ss ++ definitions ts := List.filterMap_append

theorem definitions_filter (ss : List Stmt) :
    definitions (ss.filter (·.isDefinition)) = definitions ss := by
  induction ss with
  | nil => rfl
  | cons s ss ih =>
    cases hs : s.isDefinition with
    | true =>
      obtain ⟨d, l, rfl⟩ := eq_define hs
      rw [List.filter_cons_of_pos hs]
      exact congrArg ((d, l) :: ·) ih
    | false => rw [List.filter_cons_of_neg (by simp [hs]), ih, definitions_cons_of_not hs]

theorem definitions_others (ss : List Stmt) : definitions (ss.filter (!·.isDefinition)) = [] := by
  induction ss with
  | nil => rfl
  | cons s ss ih =>
    cases hs : s.isDefinition with
    | true => rw [List.filter_cons_of_neg (by simp [hs]), ih]
    | false => rw [List.filter_cons_of_pos (by simp [hs]), definitions_cons_of_not hs, ih]

end Stmt

namespace Program

/-- Both programs load the same definitions in the same order, each at its line. -/
theorem load_hoisted (p : Program) : p.hoisted.load = p.load := by
  have hsame : Stmt.definitions p.hoisted.statements = Stmt.definitions p.statements := by
    rw [hoisted, Stmt.definitions_append, Stmt.definitions_filter, Stmt.definitions_others,
      List.append_nil]
  rw [load, load, Stmt.loadAll_eq, Stmt.loadAll_eq, hsame]

theorem statements_hoisted_eq_nil (p : Program) :
    p.hoisted.statements = [] ↔ p.statements = [] := by
  have hperm : p.hoisted.statements.Perm p.statements := List.filter_append_perm _ _
  exact ⟨fun h => List.nil_perm.1 (h ▸ hperm), fun h => List.perm_nil.1 (h ▸ hperm)⟩

end Program

def SameInterruption (m m' : Machine) : Prop := m'.interrupted = m.interrupted

namespace SameInterruption

theorem of_quiet {m m' : Machine} (h : Quiet m m') : SameInterruption m m' := by
  rw [SameInterruption, h]

theorem bracket {m n n' m' : Machine} (hu : Quiet m n) (hd : Quiet n' m')
    (h : SameInterruption n n') : SameInterruption m m' :=
  ((of_quiet hd).trans h).trans (of_quiet hu)

theorem effects : Effects SameInterruption SameInterruption where
  refl _ := rfl
  trans h₁ h₂ := Eq.trans h₂ h₁
  transQ h₁ h₂ := Eq.trans h₂ h₁
  weaken h := h
  note m e := of_quiet (.note m e)
  write _ _ _ := rfl
  record m w := by
    have hn : SameInterruption m (m.note (.warned m.line w)) := of_quiet (.note m _)
    by_cases h : m.policy = .report <;>
      simpa [SameInterruption, Machine.record, Machine.write, h] using hn
  advance _ _ := rfl
  setValue _ _ _ _ := rfl
  setElement _ _ _ _ := rfl
  setText _ _ _ _ _ := rfl
  declare _ _ := rfl
  replaceArray length _ _ _ _ := of_quiet (.replaceArray _ _ length)
  register m d := by
    have hn : SameInterruption m (m.note (.register d.name d.params.length
      (m.function? d.name).isSome)) := of_quiet (.note m _)
    exact hn
  scope h := bracket (.enterScope _) (.exitScope _) h
  frame k _ _ h := bracket (.pushFrame _ k) (.popFrame _) h
  frameQ k _ _ h := bracket (.pushFrame _ k) (.popFrame _) h
  call _ h := h
  line _ _ _ h := h

end SameInterruption

/-- A load that comes to its end has registered every definition. -/
theorem Run.functions_loadEach {ds : List (Definition × Option Line)} {u : Unit} {m m' : Machine}
    (h : loadEach ds m = .done u m') : m'.functions = m.functions ++ ds.map (·.1) := by
  induction ds generalizing m with
  | nil =>
    cases h
    simp
  | cons d ds ih =>
    by_cases hd : d.1.name ∈ m.functionNames
    · by_cases hp : m.policy = .abort
      · rw [loadEach_of_aborts ds hd hp] at h
        cases h
      · rw [loadEach_of_taken ds hd hp] at h
        simpa using ih h
    · rw [loadEach_of_new ds hd] at h
      simpa using ih h

/-- A machine on which definitions are registered, and that goes on. -/
structure Machine.Prepared (ds : List (Definition × Option Line)) (m : Machine) : Prop where
  interrupted : m.interrupted = false
  known : ∀ d ∈ ds, m.knows d.1 = true

namespace Machine.Prepared

variable {ds : List (Definition × Option Line)} {m m' : Machine}

theorem mono {ds' : List (Definition × Option Line)} (h : m.Prepared ds) (hs : ds' ⊆ ds) :
    m.Prepared ds' := ⟨h.interrupted, fun d hd => h.known d (hs hd)⟩

/-- Registered functions stay registered. -/
theorem exec (h : m.Prepared ds) {n : Nat} {s : Stmt} (hm : (s.exec n m).machine? = some m') :
    m'.Prepared ds where
  interrupted := by
    have hsame : SameInterruption m m' := (SameInterruption.effects.ofFuel n).exec s hm
    exact hsame.trans h.interrupted
  known d hd := by
    have hhistory : History m m' := (History.effects.ofFuel n).exec s hm
    have hmem := (m.knows_iff d.1).1 (h.known d hd)
    exact (m'.knows_iff d.1).2 ((hhistory.functions.sublist.map _).subset hmem)

/-- Behind a load the definitions of the program are registered. -/
theorem load {p : Program} {u : Unit} (hi : m'.interrupted = false) (hm : p.load m = .done u m') :
    m'.Prepared (Stmt.definitions p.statements) := by
  obtain ⟨u', n, hn, hend⟩ := Run.bind_eq_done.1 hm
  cases hend
  rw [Stmt.loadAll_eq] at hn
  refine ⟨hi, fun d hd => ?_⟩
  rw [Machine.knows_iff, ids, Run.functions_loadEach hn]
  simp only [List.map_append, List.map_map, List.mem_append, List.mem_map]
  exact .inr ⟨d, hd, rfl⟩

end Machine.Prepared

/-- A definition that is registered is executed without a trace but in the log. -/
theorem Stmt.exec_of_known {n : Nat} {d : Definition} {l : Option Line} {m : Machine}
    (hi : m.interrupted = false) (hd : m.knows d = true) :
    ∃ m', exec (n + 1) ⟨.define d, l⟩ m = .done .normal m' ∧ m.SameButLog m' := by
  have hdefine : Runner.define d (m.begin ⟨.define d, l⟩) =
      .done .normal (m.begin ⟨.define d, l⟩) := by
    have hknows : (m.begin ⟨.define d, l⟩).knows d = true := by
      simpa [Machine.knows, Machine.begin] using hd
    rw [Runner.define, Run.bind_of_done (x := Run.gets _) rfl, hknows]
    rfl
  refine ⟨{ m.begin ⟨.define d, l⟩ with line := m.line }, ?_, ?_⟩
  · exact (Stmt.exec_eq_done hi).2 ⟨_, hdefine, rfl⟩
  · exact Machine.sameButLog_begin m _

namespace Runner

theorem executeAll_append (r : Runner) (ss ts : List Stmt) :
    r.executeAll (ss ++ ts) = r.executeAll ss >>= fun _ => r.executeAll ts := by
  induction ss with
  | nil => rfl
  | cons s ss ih => simp only [List.cons_append, executeAll, ih, bind_assoc]

variable {n : Nat} {ss : List Stmt} {m m' : Machine}

/-- Statements of which the first does not begin come to the same whichever they are. -/
theorem executeAll_of_stuck {o : Outcome Unit} {r : Runner}
    (h : ∀ (s : Stmt) (rest : Flow → Run Unit), (r.exec s >>= rest) m = o) (ss : List Stmt) :
    r.executeAll ss m = if ss = [] then .done () m else o := by
  cases ss with
  | nil => rfl
  | cons s ss => exact h s _

/-- Registered definitions are executed to the end. -/
theorem executeAll_definitions (h : m.Prepared (Stmt.definitions ss)) :
    ∃ m', (ofFuel (n + 1)).executeAll (ss.filter (·.isDefinition)) m = .done () m' ∧
      m.SameButLog m' := by
  induction ss generalizing m with
  | nil => exact ⟨m, rfl, .refl m⟩
  | cons s ss ih =>
    cases hs : s.isDefinition with
    | true =>
      obtain ⟨d, l, rfl⟩ := Stmt.eq_define hs
      obtain ⟨m₁, hm₁, hsame⟩ :=
        Stmt.exec_of_known (n := n) (l := l) h.interrupted (h.known (d, l) List.mem_cons_self)
      have hrest : m.Prepared (Stmt.definitions ss) := h.mono (List.subset_cons_self _ _)
      obtain ⟨m₂, hm₂, hsame'⟩ := ih (hrest.exec (congrArg Outcome.machine? hm₁))
      refine ⟨m₂, ?_, hsame.trans hsame'⟩
      rw [List.filter_cons_of_pos hs, executeAll]
      exact (Run.bind_of_done hm₁ _).trans hm₂
    | false =>
      rw [Stmt.definitions_cons_of_not hs] at h
      rw [List.filter_cons_of_neg (by simp [hs])]
      exact ih h

/-- Registered definitions among statements may be left out. -/
theorem executeAll_others (h : m.Prepared (Stmt.definitions ss)) (hm : m.SameButLog m') :
    ((ofFuel (n + 1)).executeAll ss m).Alike Machine.SameButLog
      ((ofFuel (n + 1)).executeAll (ss.filter (!·.isDefinition)) m') := by
  induction ss generalizing m m' with
  | nil => exact .done () hm
  | cons s ss ih =>
    cases hs : s.isDefinition with
    | true =>
      obtain ⟨d, l, rfl⟩ := Stmt.eq_define hs
      obtain ⟨m₁, hm₁, hsame⟩ :=
        Stmt.exec_of_known (n := n) (l := l) h.interrupted (h.known (d, l) List.mem_cons_self)
      have hrest : m.Prepared (Stmt.definitions ss) := h.mono (List.subset_cons_self _ _)
      rw [List.filter_cons_of_neg (by simp [hs]), executeAll]
      rw [Run.bind_of_done (x := (ofFuel (n + 1)).exec _) hm₁]
      exact ih (hrest.exec (congrArg Outcome.machine? hm₁)) (hsame.symm.trans hm)
    | false =>
      rw [Stmt.definitions_cons_of_not hs] at h
      rw [List.filter_cons_of_pos (by simp [hs]), executeAll, executeAll]
      have hexec := (Run.LogBlind.ofFuel (n + 1)).exec s hm
      rw [Run.bind_apply, Run.bind_apply]
      cases ho : (ofFuel (n + 1)).exec s m with
      | done f m₁ =>
        rw [ho] at hexec
        generalize (ofFuel (n + 1)).exec s m' = o' at hexec
        cases hexec with
        | done _ hm₁ => exact ih (h.exec (congrArg Outcome.machine? ho)) hm₁
      | stopped t m₁ =>
        rw [ho] at hexec
        generalize (ofFuel (n + 1)).exec s m' = o' at hexec
        cases hexec with
        | stopped _ hm₁ => exact .stopped t hm₁
      | outOfFuel =>
        rw [ho] at hexec
        generalize (ofFuel (n + 1)).exec s m' = o' at hexec
        cases hexec
        exact .outOfFuel

end Runner

theorem Outcome.Alike.refl {α : Type} (o : Outcome α) : o.Alike Machine.SameButLog o := by
  cases o with
  | done a m => exact .done a (.refl m)
  | stopped s m => exact .stopped s (.refl m)
  | outOfFuel => exact .outOfFuel

theorem Program.executes_alike {n : Nat} {p : Program} {m : Machine}
    (h : m.Prepared (Stmt.definitions p.statements)) :
    (p.execute (n + 1) m).Alike Machine.SameButLog (p.hoisted.execute (n + 1) m) := by
  obtain ⟨m', hm', hsame⟩ := Runner.executeAll_definitions (n := n) h
  rw [execute, execute, hoisted, Runner.executeAll_append, Run.bind_of_done hm']
  exact Runner.executeAll_others h hsame

/-- Where no statement begins, both programs end at the first one if they have any. -/
theorem Program.execute_hoisted_of_stuck {n : Nat} {o : Outcome Unit} {p : Program} {m : Machine}
    (h : ∀ (s : Stmt) (rest : Flow → Run Unit), (s.exec n >>= rest) m = o) :
    p.hoisted.execute n m = p.execute n m := by
  rw [execute, execute, Runner.executeAll_of_stuck h, Runner.executeAll_of_stuck h]
  simp only [p.statements_hoisted_eq_nil]

/-- Behind a load both programs execute alike, whether or not there is fuel and statements may
begin. -/
theorem Program.executes_alike_of_load {n : Nat} {p : Program} {u : Unit} {m m' : Machine}
    (h : p.load m = .done u m') :
    (p.execute n m').Alike Machine.SameButLog (p.hoisted.execute n m') := by
  cases n with
  | zero =>
    rw [execute_hoisted_of_stuck (o := .outOfFuel) fun _ _ => rfl]
    exact .refl _
  | succ n =>
    cases hi : m'.interrupted with
    | true =>
      have hstuck (s : Stmt) (rest : Flow → Run Unit) :
          (s.exec (n + 1) >>= rest) m' = .stopped .interrupted m' := by
        rw [Run.bind_apply, Stmt.exec_of_interrupted n s hi]
      rw [execute_hoisted_of_stuck hstuck]
      exact .refl _
    | false => exact executes_alike (.load hi h)

/-- A program and the one with its definitions in front end alike, with the same status or stop, or
both run out of fuel, and so neither of them terminates unless the other does. -/
theorem hoisting_unseen (p : Program) (m : Machine) :
    (∀ n, (p.run n m).Alike Machine.SameButLog (p.hoisted.run n m)) ∧
    ((∀ n, p.run n m = .outOfFuel) ↔ ∀ n, p.hoisted.run n m = .outOfFuel) := by
  have halike (n : Nat) : (p.run n m).Alike Machine.SameButLog (p.hoisted.run n m) := by
    refine Run.LogBlind.exitStatus ?_
    rw [p.load_hoisted, Run.bind_apply, Run.bind_apply]
    cases hload : p.load m with
    | done u m₁ => exact Program.executes_alike_of_load hload
    | stopped s m₁ => exact .stopped s (.refl m₁)
    | outOfFuel => exact .outOfFuel
  exact ⟨halike, forall_congr' fun n => (halike n).outOfFuel_iff⟩

/-- The log does differ: it tells when a definition is executed. -/
example :
    let p : Program := ⟨[⟨.block [], some 1⟩, ⟨.define (idle 1 "f"), some 2⟩]⟩
    let m : Machine := .new 9 .report true []
    ((p.run 3 m).machine?.map (·.events)) ≠ ((p.hoisted.run 3 m).machine?.map (·.events)) := by
  decide +kernel

end Yap
