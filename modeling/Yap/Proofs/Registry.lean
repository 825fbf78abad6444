import Yap.Proofs.Loading

/-! The registry of functions over a session. A definition that is executed is registered unless it is
registered already; a load registers without looking. Main statement: no definition is registered
twice exactly if no load comes to one that is registered, and then a name is reported only for a
definition that is new and whose name is taken. -/
namespace Yap

/-- The numbers of definitions, each of which stands for a node of a tree. -/
def ids (ds : List Definition) : List Nat := ds.map (·.id)

def Warning.redefined? : Warning → Option String
  | .functionRedefined name => some name
  | _ => none

def Stop.redefined : Stop → List String
  | .fault (.aborted w) _ => w.redefined?.toList
  | _ => []

@[simp] theorem Stop.redefined_orLine (l : Option Line) (s : Stop) :
    (s.orLine l).redefined = s.redefined := by
  cases s with
  | fault c k => cases k <;> cases c <;> rfl
  | interrupted => rfl
  | exit code => rfl

theorem Stop.redefined_of_isBare {s : Stop} (h : s.isBare = true) : s.redefined = [] := by
  cases s with
  | fault c k => cases c <;> first | rfl | simp [isBare] at h
  | interrupted => rfl
  | exit code => rfl

theorem Warning.redefined?_of_isPlain {w : Warning} (h : w.isPlain = true) :
    w.redefined? = none := by
  cases w <;> first | rfl | simp [isPlain] at h

/-- The names that were reported as taken. -/
def Machine.redefined (m : Machine) : List String :=
  m.diagnostics.toList.filterMap (·.warning.redefined?)

/-- The same with the one for which the run is aborted. -/
def Outcome.redefined {α : Type} : Outcome α → List String
  | done _ m => m.redefined
  | stopped s m => m.redefined ++ s.redefined
  | outOfFuel => []

/-- Those of some new definitions whose name is taken when they are registered one after another. -/
def shadowed (before : List Definition) : List Definition → List Definition
  | [] => []
  | d :: ds =>
    (if d.name ∈ before.map (·.name) then [d] else []) ++ shadowed (before ++ [d]) ds

theorem shadowed_append (before as bs : List Definition) :
    shadowed before (as ++ bs) = shadowed before as ++ shadowed (before ++ as) bs := by
  induction as generalizing before with
  | nil => simp [shadowed]
  | cons d as ih => simp [shadowed, ih]

/-- New definitions that are not among those before, and of which none occurs twice. -/
structure Fresh (before new : List Definition) : Prop where
  nodup : (ids new).Nodup
  unknown : ∀ d ∈ new, d.id ∉ ids before

theorem nodup_ids_append {before new : List Definition} :
    (ids (before ++ new)).Nodup ↔ (ids before).Nodup ∧ Fresh before new := by
  have happend : ids (before ++ new) = ids before ++ ids new := List.map_append
  rw [happend, List.nodup_append]
  constructor
  · rintro ⟨hb, hn, hdisjoint⟩
    refine ⟨hb, hn, fun d hd hmem => ?_⟩
    exact hdisjoint _ hmem _ (List.mem_map_of_mem hd) rfl
  · rintro ⟨hb, hn, hunknown⟩
    refine ⟨hb, hn, fun a ha b hmem heq => ?_⟩
    obtain ⟨d, hd, rfl⟩ := List.mem_map.1 hmem
    exact hunknown d hd (heq ▸ ha)

theorem nodup_ids_of_prefix {ds es : List Definition} (h : ds <+: es) (hes : (ids es).Nodup) :
    (ids ds).Nodup := by
  obtain ⟨rest, rfl⟩ := h
  exact (nodup_ids_append.1 hes).1

namespace Fresh

theorem nil (before : List Definition) : Fresh before [] := ⟨List.nodup_nil, by simp⟩

theorem append {before as bs : List Definition} (h : Fresh before as)
    (h' : Fresh (before ++ as) bs) : Fresh before (as ++ bs) := by
  have hids (xs ys : List Definition) : ids (xs ++ ys) = ids xs ++ ids ys := List.map_append
  obtain ⟨hn, hunknown⟩ := h'
  simp only [hids, List.mem_append, not_or] at hunknown
  refine ⟨?_, ?_⟩
  · exact nodup_ids_append.2 ⟨h.nodup, hn, fun d hd => (hunknown d hd).2⟩
  · intro d hd
    rcases List.mem_append.1 hd with ha | hb
    · exact h.unknown d ha
    · exact (hunknown d hb).1

end Fresh

structure SameRegistry (m n : Machine) : Prop where
  functions : n.functions = m.functions
  redefined : n.redefined = m.redefined

namespace SameRegistry

theorem refl (m : Machine) : SameRegistry m m := ⟨rfl, rfl⟩

theorem of_quiet {m n : Machine} (h : Quiet m n) : SameRegistry m n where
  functions := h.functions
  redefined := by rw [Machine.redefined, h.diagnostics, Machine.redefined]

/-- A plain warning reports no name. -/
theorem record (m : Machine) {w : Warning} (hw : w.isPlain = true) : SameRegistry m (m.record w) where
  functions := by simp
  redefined := by simp [Machine.redefined, Warning.redefined?_of_isPlain hw]

end SameRegistry

/-- What an outcome has added to the registry, and that it has reported the names that were taken. -/
structure Registers {α : Type} (m : Machine) (o : Outcome α) (new : List Definition) : Prop where
  functions {m' : Machine} : o.machine? = some m' → m'.functions = m.functions ++ new
  redefined {m' : Machine} : o.machine? = some m' →
    o.redefined = m.redefined ++ (shadowed m.functions new).map (·.name)

namespace Registers

variable {α β : Type} {m n : Machine} {as bs : List Definition}

theorem of_machine {o : Outcome α} (ho : o.machine? = some n) (hf : n.functions = m.functions ++ as)
    (hr : o.redefined = m.redefined ++ (shadowed m.functions as).map (·.name)) :
    Registers m o as where
  functions hm := by
    rw [ho] at hm
    cases hm
    exact hf
  redefined _ := hr

theorem outOfFuel : Registers m (.outOfFuel : Outcome α) [] := ⟨nofun, nofun⟩

theorem done {a : α} (h : SameRegistry m n) : Registers m (.done a n) [] := by
  apply of_machine rfl
  · simp [h.functions]
  · simp [Outcome.redefined, h.redefined, shadowed]

theorem stopped {s : Stop} (h : SameRegistry m n) (hs : s.redefined = []) :
    Registers m (.stopped s n : Outcome α) [] := by
  apply of_machine rfl
  · simp [h.functions]
  · simp [Outcome.redefined, h.redefined, hs, shadowed]

theorem andThen {a : α} {o : Outcome β} (h : Registers m (.done a n) as) (h' : Registers n o bs) :
    Registers m o (as ++ bs) where
  functions hm := by rw [h'.functions hm, h.functions rfl, List.append_assoc]
  redefined hm := by
    have hn : n.redefined = m.redefined ++ (shadowed m.functions as).map (·.name) :=
      h.redefined rfl
    rw [h'.redefined hm, hn, h.functions rfl, shadowed_append, List.map_append, List.append_assoc]

theorem bind {x : Run α} {f : α → Run β} (hx : Registers m (x m) as)
    (hf : ∀ a n, ∃ bs, Registers n (f a n) bs ∧ Fresh n.functions bs) :
    ∃ bs, Registers m ((x >>= f) m) (as ++ bs) ∧ Fresh (m.functions ++ as) bs := by
  rw [Run.bind_apply]
  cases hr : x m with
  | done a n =>
    rw [hr] at hx
    obtain ⟨bs, hbs, hfresh⟩ := hf a n
    rw [hx.functions rfl] at hfresh
    exact ⟨bs, hx.andThen hbs, hfresh⟩
  | stopped s n =>
    rw [hr] at hx
    refine ⟨[], ?_, .nil _⟩
    rw [List.append_nil]
    exact ⟨hx.functions, hx.redefined⟩
  | outOfFuel => exact ⟨[], ⟨nofun, nofun⟩, .nil _⟩

theorem mapMachine {down : Machine → Machine} {o : Outcome α} (h : Registers n o as)
    (hu : SameRegistry m n) (hd : ∀ n, SameRegistry n (down n)) :
    Registers m (o.mapMachine down) as where
  functions hm := by
    rw [Outcome.machine?_mapMachine] at hm
    obtain ⟨n, hn, rfl⟩ := Option.map_eq_some_iff.1 hm
    rw [(hd n).functions, h.functions hn, hu.functions]
  redefined hm := by
    rw [Outcome.machine?_mapMachine] at hm
    obtain ⟨n, hn, rfl⟩ := Option.map_eq_some_iff.1 hm
    have hsame : (o.mapMachine down).redefined = o.redefined := by
      cases o <;> simp [Outcome.mapMachine, Outcome.redefined, (hd _).redefined]
    rw [hsame, h.redefined hn, hu.redefined, hu.functions]

theorem orLine {o : Outcome α} (l : Option Line) (h : Registers m o as) :
    Registers m (o.mapStop (·.orLine l)) as := by
  have hsame : (o.mapStop (·.orLine l)).redefined = o.redefined := by
    cases o <;> simp [Outcome.mapStop, Outcome.redefined]
  refine ⟨fun hm => ?_, fun hm => ?_⟩
  · rw [Outcome.machine?_mapStop] at hm
    exact h.functions hm
  · rw [Outcome.machine?_mapStop] at hm
    rw [hsame]
    exact h.redefined hm

end Registers

theorem redefined_exitStatus (x : Run Unit) (m : Machine) :
    (Program.exitStatus x m).redefined = (x m).redefined := by
  rw [Program.exitStatus]
  cases x m with
  | done u n => rfl
  | stopped s n =>
    cases s with
    | fault c l => rfl
    | interrupted => rfl
    | exit code =>
      have hnote : SameRegistry n (n.note (.exited code)) := .of_quiet (.note n _)
      simp [Outcome.redefined, Stop.redefined, hnote.redefined]
  | outOfFuel => rfl

theorem Registers.exitStatus {x : Run Unit} {m : Machine} {as : List Definition}
    (h : Registers m (x m) as) : Registers m (Program.exitStatus x m) as where
  functions hm := by
    obtain ⟨n, hn, rfl | ⟨code, rfl⟩⟩ := Program.machine?_exitStatus hm
    · exact h.functions hn
    · rw [Machine.functions_note, h.functions hn]
  redefined hm := by
    obtain ⟨n, hn, -⟩ := Program.machine?_exitStatus hm
    rw [redefined_exitStatus, h.redefined hn]

/-- A run that registers nothing but what is new to the registry. -/
def Run.Enrols {α : Type} (x : Run α) : Prop :=
  ∀ m, ∃ new, Registers m (x m) new ∧ Fresh m.functions new

namespace Run.Enrols

variable {α β : Type}

theorem pure (a : α) : (Pure.pure a : Run α).Enrols :=
  fun m => ⟨[], .done (.refl m), .nil _⟩

theorem gets (q : Machine → α) : (gets q).Enrols := fun m => ⟨[], .done (.refl m), .nil _⟩

theorem modify {f : Machine → Machine} (hf : ∀ m, SameRegistry m (f m)) : (modify f).Enrols :=
  fun m => ⟨[], .done (hf m), .nil _⟩

theorem stop {s : Stop} (hs : s.isBare = true) : (stop s : Run α).Enrols :=
  fun m => ⟨[], .stopped (.refl m) (Stop.redefined_of_isBare hs), .nil _⟩

theorem report {w : Warning} (hw : w.isPlain = true) : (report w).Enrols := by
  intro m
  refine ⟨[], ?_, .nil _⟩
  rw [Run.report]
  split
  · have hnone : (Stop.fault (.aborted w) m.line).redefined = [] := by
      simp [Stop.redefined, Warning.redefined?_of_isPlain hw]
    exact .stopped (.refl m) hnone
  · exact .done (.record m hw)

theorem bind {x : Run α} {f : α → Run β} (hx : x.Enrols) (hf : ∀ a, (f a).Enrols) :
    (x >>= f).Enrols := by
  intro m
  obtain ⟨as, has, hfresh⟩ := hx m
  obtain ⟨bs, hbs, hfresh'⟩ := has.bind fun a n => hf a n
  exact ⟨as ++ bs, hbs, hfresh.append hfresh'⟩

theorem bracket {up down : Machine → Machine} {x : Run α} (hx : x.Enrols)
    (hu : ∀ m, Quiet m (up m)) (hd : ∀ m, Quiet m (down m)) : (Run.bracket up down x).Enrols := by
  intro m
  obtain ⟨new, hnew, hfresh⟩ := hx (up m)
  rw [(hu m).functions] at hfresh
  exact ⟨new, hnew.mapMachine (.of_quiet (hu m)) fun n => .of_quiet (hd n), hfresh⟩

theorem atLine (l : Option Line) {x : Run α} (hx : x.Enrols) : (Run.atLine l x).Enrols := by
  intro m
  obtain ⟨new, hnew, hfresh⟩ := hx { m with line := l.or m.line }
  have hup : SameRegistry m { m with line := l.or m.line } := ⟨rfl, rfl⟩
  have hdown (n : Machine) : SameRegistry n { n with line := m.line } := ⟨rfl, rfl⟩
  exact ⟨new, (hnew.mapMachine hup hdown).orLine _, hfresh⟩

theorem basis : Basis fun _ x _ => Enrols x where
  done := pure
  stop := stop
  bind := bind
  gets _ := gets _
  note _ := modify fun m => .of_quiet (.note m _)
  write _ _ := modify fun _ => ⟨rfl, rfl⟩
  report := report
  mapChain _ := modify fun _ => ⟨rfl, rfl⟩
  advance _ := modify fun _ => ⟨rfl, rfl⟩
  replaceArray x length := modify fun m => .of_quiet (.replaceArray m x length)
  inScope hx := bracket hx .enterScope .exitScope
  underFrame k _ _ hx := bracket hx (fun m => .pushFrame m k) .popFrame
  onChain c _ _ hx := bracket hx (fun m => .chain m c) fun m => .chain m _
  atLine l _ _ hx := atLine l hx

end Run.Enrols

namespace Machine

theorem knows_iff (m : Machine) (d : Definition) : m.knows d = true ↔ d.id ∈ ids m.functions := by
  rw [knows, List.any_eq_true, ids, List.mem_map]
  simp only [decide_eq_true_eq]

variable (m : Machine) (d : Definition × Option Line)

@[simp] theorem functions_load : (m.load d).functions = m.functions ++ [d.1] := rfl

@[simp] theorem redefined_load : (m.load d).redefined = m.redefined := by
  simp [redefined, load, register]

@[simp] theorem redefined_record_functionRedefined (name : String) :
    (m.record (.functionRedefined name)).redefined = m.redefined ++ [name] := by
  simp [redefined, Warning.redefined?]

end Machine

namespace Registers

variable {m : Machine} {d : Definition × Option Line}

theorem load_of_new (h : d.1.name ∉ m.functionNames) :
    Registers m (.done () (m.load d)) [d.1] := by
  have hnone : shadowed m.functions [d.1] = [] := by
    simpa [shadowed, Machine.functionNames] using h
  apply of_machine rfl (m.functions_load d)
  simp [Outcome.redefined, hnone]

theorem shadowed_of_taken (h : d.1.name ∈ m.functionNames) :
    shadowed m.functions [d.1] = [d.1] := by
  simpa [shadowed, Machine.functionNames] using h

theorem load_of_taken (h : d.1.name ∈ m.functionNames) :
    Registers m (.done () ((m.load d).record (.functionRedefined d.1.name))) [d.1] := by
  apply of_machine rfl
  · simp
  · simp [Outcome.redefined, shadowed_of_taken h]

theorem load_of_aborts (h : d.1.name ∈ m.functionNames) : Registers m (.stopped
    (.fault (.aborted (.functionRedefined d.1.name)) d.2) (m.load d) : Outcome Unit) [d.1] := by
  apply of_machine rfl (m.functions_load d)
  simp [Outcome.redefined, Stop.redefined, Warning.redefined?, shadowed_of_taken h]

/-- To register a definition is to load it at the current line. -/
theorem register (d : Definition) (m : Machine) : Registers m (Runner.register d m) [d] := by
  have hload : Runner.register d m = (if (m.function? d.name).isSome then
      Run.report (.functionRedefined d.name) else Pure.pure ()) (m.load (d, m.line)) := rfl
  have hpolicy : (m.load (d, m.line)).policy = m.policy := Machine.policy_load m _
  have hline : (m.load (d, m.line)).line = m.line := Machine.line_load m _
  rw [hload]
  by_cases hd : (m.function? d.name).isSome = true
  · have hname := (m.isSome_function? d.name).1 hd
    rw [if_pos hd, Run.report, hpolicy, hline]
    split
    · exact @load_of_aborts m (d, m.line) hname
    · exact @load_of_taken m (d, m.line) hname
  · have hname := mt (m.isSome_function? d.name).2 hd
    rw [if_neg hd]
    exact @load_of_new m (d, m.line) hname

end Registers

namespace Run.Enrols

/-- A definition that is executed is registered only if it is new. -/
theorem define (d : Definition) : (Runner.define d).Enrols := by
  intro m
  rw [Runner.define, bind_of_done (x := Run.gets _) rfl]
  by_cases hk : m.knows d = true
  · rw [if_pos hk]
    exact ⟨[], .done (.refl m), .nil _⟩
  · have hnew : Fresh m.functions [d] := by
      rw [m.knows_iff d] at hk
      exact ⟨by simp [ids], by simpa using hk⟩
    have hrest (u : Unit) (n : Machine) : ∃ bs, Registers n ((Pure.pure Flow.normal : Run Flow) n) bs ∧
        Fresh n.functions bs := Enrols.pure _ n
    obtain ⟨bs, hbs, hfresh⟩ := (Registers.register d m).bind hrest
    rw [if_neg hk]
    exact ⟨[d] ++ bs, hbs, hnew.append hfresh⟩

theorem ofFuel (n : Nat) : (Runner.ofFuel n).Related (fun _ x _ => Enrols x)
    (fun _ x _ => Enrols x) (Runner.ofFuel n) := by
  have hc := basis.core
  refine hc.ofFuel (fun m => ⟨[], .outOfFuel, .nil _⟩) (fun k hr => ?_) define n
  exact hc.assignElement hr basis.steps.writeElement

end Run.Enrols

/-- The definitions that loading comes to: all of them, or those up to the first whose name is taken
if it aborts the run. -/
def reached (p : Policy) (names : List String) :
    List (Definition × Option Line) → List Definition
  | [] => []
  | d :: ds =>
    if p = .abort ∧ d.1.name ∈ names then [d.1] else d.1 :: reached p (names ++ [d.1.name]) ds

theorem reached_prefix (p : Policy) (names : List String) (ds : List (Definition × Option Line)) :
    reached p names ds <+: ds.map (·.1) := by
  induction ds generalizing names with
  | nil => exact List.prefix_rfl
  | cons d ds ih =>
    rw [reached, List.map_cons]
    split
    · simp
    · exact List.cons_prefix_cons.2 ⟨rfl, ih _⟩

theorem Registers.loadEach (ds : List (Definition × Option Line)) (m : Machine) :
    Registers m (Run.loadEach ds m) (reached m.policy m.functionNames ds) := by
  induction ds generalizing m with
  | nil => exact .done (.refl m)
  | cons d ds ih =>
    rw [reached]
    by_cases hd : d.1.name ∈ m.functionNames
    · by_cases hp : m.policy = .abort
      · rw [if_pos ⟨hp, hd⟩, Run.loadEach_of_aborts ds hd hp]
        exact load_of_aborts hd
      · have hrest := ih ((m.load d).record (.functionRedefined d.1.name))
        simp only [Machine.policy_record, Machine.functionNames_record, Machine.policy_load,
          Machine.functionNames_load] at hrest
        rw [if_neg (fun h => hp h.1), Run.loadEach_of_taken ds hd hp]
        exact (load_of_taken hd).andThen hrest
    · rw [if_neg (fun h => hd h.2), Run.loadEach_of_new ds hd]
      have hrest := ih (m.load d)
      rw [Machine.policy_load, Machine.functionNames_load] at hrest
      exact (load_of_new hd).andThen hrest

namespace Task

def definitions : Task → List (Definition × Option Line)
  | .load p | .run p => Stmt.definitions p.statements
  | _ => []

/-- The definitions that it comes to when it loads them. -/
def loaded (t : Task) (m : Machine) : List Definition :=
  reached m.policy m.functionNames t.definitions

/-- A task registers what it loads, and after that only what is new. -/
theorem registers (fuel : Nat) (t : Task) (m : Machine) :
    ∃ new, Registers m (t.perform fuel m) (t.loaded m ++ new) ∧
      Fresh (m.functions ++ t.loaded m) new := by
  have hr := Run.Enrols.ofFuel fuel
  have hc := Run.Enrols.basis.core
  have hexecute (p : Program) : (p.execute fuel).Enrols := hc.executeAll hr p.statements
  have hline : (Run.modify fun m => { m with line := none }).Enrols := .modify fun _ => ⟨rfl, rfl⟩
  have hnone {x : Run t.Result} (hx : x.Enrols) (ht : t.loaded m = []) :
      ∃ new, Registers m (x m) (t.loaded m ++ new) ∧ Fresh (m.functions ++ t.loaded m) new := by
    simpa [ht] using hx m
  cases t with
  | eval e => exact hnone (hr.eval e) rfl
  | exec s => exact hnone (hr.exec s) rfl
  | execAll ss => exact hnone (hc.execAll hr ss) rfl
  | call name args => exact hnone (hc.call hr name args) rfl
  | execute p => exact hnone (hexecute p) rfl
  | load p =>
    have hload := Registers.loadEach (Stmt.definitions p.statements) m
    have hbind := hload.bind fun _ n => hline n
    rw [← Stmt.loadAll_eq] at hbind
    exact hbind
  | run p =>
    have hload := Registers.loadEach (Stmt.definitions p.statements) m
    obtain ⟨new, hnew, hfresh⟩ := hload.bind fun _ n => (hline.bind fun _ => hexecute p) n
    rw [← Stmt.loadAll_eq, ← Run.bind_assoc_run] at hnew
    exact ⟨new, hnew.exitStatus, hfresh⟩

/-- If no definition is registered twice before a task, then none is behind it exactly if the task
comes to load none that is registered. -/
theorem nodup_iff {fuel : Nat} {t : Task} {m m' : Machine} (hm : (ids m.functions).Nodup)
    (ht : (ids (t.definitions.map (·.1))).Nodup) (h : (t.perform fuel m).machine? = some m') :
    (ids m'.functions).Nodup ↔ ∀ d ∈ t.loaded m, d.id ∉ ids m.functions := by
  obtain ⟨new, hnew, hfresh⟩ := t.registers fuel m
  have hloaded : (ids (t.loaded m)).Nodup := by
    have hprefix := reached_prefix m.policy m.functionNames t.definitions
    exact nodup_ids_of_prefix hprefix ht
  rw [hnew.functions h, ← List.append_assoc, nodup_ids_append, nodup_ids_append]
  constructor
  · rintro ⟨⟨-, hl⟩, -⟩
    exact hl.unknown
  · intro hunknown
    exact ⟨⟨hm, hloaded, hunknown⟩, hfresh⟩

def performAll (fuel : Nat) : List Task → Machine → Option Machine
  | [], m => some m
  | t :: ts, m => (t.perform fuel m).machine?.bind (performAll fuel ts)

theorem performAll_cons_eq_some {fuel : Nat} {t : Task} {ts : List Task} {m m' : Machine} :
    performAll fuel (t :: ts) m = some m' ↔
      ∃ n, (t.perform fuel m).machine? = some n ∧ performAll fuel ts n = some m' :=
  Option.bind_eq_some_iff

/-- A session asks one of its tasks of a machine. -/
inductive Asked (fuel : Nat) : List Task → Machine → Task → Machine → Prop
  | here {t : Task} {ts : List Task} {m : Machine} : Asked fuel (t :: ts) m t m
  | later {t u : Task} {ts : List Task} {m n n' : Machine} : (t.perform fuel m).machine? = some n →
      Asked fuel ts n u n' → Asked fuel (t :: ts) m u n'

theorem functions_performAll {fuel : Nat} {ts : List Task} {m m' : Machine}
    (h : performAll fuel ts m = some m') : m.functions <+: m'.functions := by
  induction ts generalizing m with
  | nil =>
    cases h
    exact List.prefix_rfl
  | cons t ts ih =>
    obtain ⟨n, hn, hrest⟩ := performAll_cons_eq_some.1 h
    have hstep : History m n := History.task fuel t hn
    exact hstep.functions.trans (ih hrest)

/-- What a task has registered when it is asked in a session is there at the end. -/
theorem Asked.functions {fuel : Nat} {ts : List Task} {t : Task} {m m₁ m' : Machine}
    (h : Asked fuel ts m t m₁) (hall : performAll fuel ts m = some m') :
    ∃ m₂, (t.perform fuel m₁).machine? = some m₂ ∧ m₂.functions <+: m'.functions := by
  induction h with
  | here =>
    obtain ⟨n, hn, hrest⟩ := performAll_cons_eq_some.1 hall
    exact ⟨n, hn, functions_performAll hrest⟩
  | later hstep _ ih =>
    obtain ⟨n, hn, hrest⟩ := performAll_cons_eq_some.1 hall
    obtain rfl := Option.some.inj (hn.symm.trans hstep)
    exact ih hrest

theorem nodup_performAll {fuel : Nat} {ts : List Task} {m m' : Machine}
    (hm : (ids m.functions).Nodup) (hts : ∀ t ∈ ts, (ids (t.definitions.map (·.1))).Nodup)
    (h : performAll fuel ts m = some m') : (ids m'.functions).Nodup ↔
      ∀ t m₁, Asked fuel ts m t m₁ → ∀ d ∈ t.loaded m₁, d.id ∉ ids m₁.functions := by
  induction ts generalizing m with
  | nil =>
    cases h
    constructor
    · intro _ t m₁ hasked
      cases hasked
    · exact fun _ => hm
  | cons t ts ih =>
    obtain ⟨n, hn, hrest⟩ := performAll_cons_eq_some.1 h
    have hstep := nodup_iff hm (hts t List.mem_cons_self) hn
    have htail : ∀ u ∈ ts, (ids (u.definitions.map (·.1))).Nodup :=
      fun u hu => hts u (List.mem_cons_of_mem t hu)
    constructor
    · intro hm' u m₁ hasked
      have hnodup := nodup_ids_of_prefix (functions_performAll hrest) hm'
      cases hasked with
      | here => exact hstep.1 hnodup
      | later hn' hlater =>
        obtain rfl := Option.some.inj (hn.symm.trans hn')
        exact (ih hnodup htail hrest).1 hm' u m₁ hlater
    · intro hunknown
      have hnodup := hstep.2 (hunknown t m .here)
      apply (ih hnodup htail hrest).2
      intro u m₁ hasked
      exact hunknown u m₁ (.later hn hasked)

end Task

/-- In a session whose programs have every definition once, none is registered twice exactly if no
load comes to one that is registered already. Then every task registers new definitions only, and
the names that it reports are those of the new definitions whose name is taken. -/
theorem registered_once_iff (fuel : Nat) (ts : List Task) (m m' : Machine)
    (hm : (ids m.functions).Nodup) (hts : ∀ t ∈ ts, (ids (t.definitions.map (·.1))).Nodup)
    (h : Task.performAll fuel ts m = some m') :
    ((ids m'.functions).Nodup ↔ ∀ t m₁, Task.Asked fuel ts m t m₁ →
      ∀ d ∈ t.loaded m₁, d.id ∉ ids m₁.functions) ∧
    ((ids m'.functions).Nodup → ∀ t m₁, Task.Asked fuel ts m t m₁ →
      ∃ m₂ new, (t.perform fuel m₁).machine? = some m₂ ∧ m₂.functions = m₁.functions ++ new ∧
        Fresh m₁.functions new ∧ (t.perform fuel m₁).redefined =
          m₁.redefined ++ (shadowed m₁.functions new).map (·.name)) := by
  refine ⟨Task.nodup_performAll hm hts h, fun hm' t m₁ hasked => ?_⟩
  obtain ⟨m₂, hm₂, hprefix⟩ := hasked.functions h
  obtain ⟨new, hnew, -⟩ := t.registers fuel m₁
  have hfunctions := hnew.functions hm₂
  have hnodup : (ids (m₁.functions ++ (t.loaded m₁ ++ new))).Nodup := by
    rw [← hfunctions]
    exact nodup_ids_of_prefix hprefix hm'
  have hfresh := (nodup_ids_append.1 hnodup).2
  exact ⟨m₂, _, hm₂, hfunctions, hfresh, hnew.redefined hm₂⟩

def defining (id : Nat) (name : String) : Program := ⟨[⟨.define (idle id name), none⟩]⟩

/-- A session that comes to one definition three times, and to another one of its name. -/
def reusing : List Task :=
  [.load (defining 1 "f"), .exec ⟨.define (idle 2 "f"), none⟩, .execute (defining 1 "f"),
    .run (defining 3 "g"), .execute (defining 1 "f")]

theorem registered_once_iff_reusing : ∃ m' m₁ m₂ : Machine, ∃ new : List Definition,
    Task.performAll 9 reusing (.new 9 .collect false []) = some m' ∧
    ids m'.functions = [1, 2, 3] ∧
    Task.Asked 9 reusing (.new 9 .collect false []) (.exec ⟨.define (idle 2 "f"), none⟩) m₁ ∧
    m₂.functions = m₁.functions ++ new ∧ Fresh m₁.functions new ∧
    (shadowed m₁.functions new).map (·.name) = ["f"] := by
  obtain ⟨m', hm', hids⟩ : ∃ m', Task.performAll 9 reusing (.new 9 .collect false []) = some m' ∧
      ids m'.functions = [1, 2, 3] := ⟨_, rfl, rfl⟩
  obtain ⟨-, hreports⟩ :=
    registered_once_iff 9 reusing (.new 9 .collect false []) m' (by decide) (by decide) hm'
  have hasked : Task.Asked 9 reusing (.new 9 .collect false [])
      (.exec ⟨.define (idle 2 "f"), none⟩) _ := .later rfl .here
  have hnodup : (ids m'.functions).Nodup := by
    rw [hids]
    decide
  obtain ⟨m₂, new, -, hfunctions, hfresh, hredefined⟩ := hreports hnodup _ _ hasked
  exact ⟨m', _, m₂, new, hm', hids, hasked, hfunctions, hfresh, hredefined.symm⟩

theorem not_registered_once_loadedTwice : ∃ m' : Machine,
    Task.performAll 9 [.load (defining 1 "f"), .load (defining 1 "f")]
      (.new 9 .collect false []) = some m' ∧
    ids m'.functions = [1, 1] ∧ m'.redefined = ["f"] :=
  ⟨_, rfl, rfl, rfl⟩

end Yap
