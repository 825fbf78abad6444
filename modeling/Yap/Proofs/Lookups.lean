import Yap.Proofs.History
import Yap.Proofs.Isolation

/-! Sessions. Whatever is asked of a machine one after another, its records only grow, and that
already holds in the middle of what is asked. Main statement: a name that stands for a function
stands for that function from then on. -/
namespace Yap

/-- The machines met from one on: behind the tasks asked of it one after another, and within the
next one. -/
inductive Later (m₀ : Machine) : Machine → Prop
  | start : Later m₀ m₀
  | task {m m' : Machine} (fuel : Nat) (t : Task) :
      Later m₀ m → (t.perform fuel m).machine? = some m' → Later m₀ m'
  | within {m m' : Machine} : Later m₀ m → During m m' → Later m₀ m'

namespace History

theorem interrupt (m : Machine) (b : Bool) : History m { m with interrupted := b } :=
  ⟨List.prefix_rfl, List.prefix_rfl, List.prefix_rfl, List.prefix_rfl, rfl, Nat.le_refl _, rfl⟩

/-- What is made of effects and brackets adds to the records. -/
theorem run {α : Type} {x : Run α} (hx : x.Proper) {m m' : Machine}
    (h : (x m).machine? = some m') : History m m' := hx _ _ effects h

end History

/-- Setting brackets up and taking them down leaves the records alone, so it does not matter where
within a task a machine is met. -/
theorem During.history {m₀ m : Machine} (h : During m₀ m) : History m₀ m := by
  induction h with
  | start => exact .refl m₀
  | run hx _ hm ih => exact ih.trans (.run hx hm)
  | interrupt b _ ih => exact ih.trans (.interrupt _ b)
  | line l _ ih => exact ih.trans (.of_quiet (.line _ l))
  | enterScope _ ih => exact ih.trans (.of_quiet (.enterScope _))
  | exitScope _ _ ih => exact ih.trans (.of_quiet (.exitScope _))
  | pushFrame k _ ih => exact ih.trans (.of_quiet (.pushFrame _ k))
  | popFrame _ ih => exact ih.trans (.of_quiet (.popFrame _))
  | enterCall _ _ ih => exact ih.trans (.of_quiet (.chain _ _))
  | exitCall _ ih => exact ih.trans (.of_quiet (.chain _ _))

namespace Later

variable {m₀ m m' : Machine}

theorem history (h : Later m₀ m) : History m₀ m := by
  induction h with
  | start => exact .refl m₀
  | task fuel t _ hm ih =>
    have htask := History.task fuel t hm
    exact ih.trans htask
  | within _ hd ih =>
    have hduring := hd.history
    exact ih.trans hduring

/-- A call from a later machine enters the function that the name stood for first. -/
theorem eq_of_enters {n : Nat} {name : String} {args : List Expr} {d e : Definition}
    (h : Later m₀ m) (hd : m₀.function? name = some d) (he : Enters (.ofFuel n) name args m e m') :
    e = d := by
  have hlookup := h.history.function?_eq_some hd
  obtain ⟨hfound, -⟩ := he
  rw [hlookup] at hfound
  exact (Option.some.inj hfound).symm

end Later

/-- However a task ends, both outputs, the warnings and the registered functions have only grown, and
the input that was read stays read. So a name that stands for a function stands for that function
later on, in the tasks that follow and in the middle of them, and calls enter it. -/
theorem histories_grow :
    (∀ (fuel : Nat) (t : Task) (m m' : Machine), (t.perform fuel m).machine? = some m' →
      History m m') ∧
    ∀ m₀ m : Machine, Later m₀ m → History m₀ m ∧
      ∀ (name : String) (d : Definition), m₀.function? name = some d →
        m.function? name = some d ∧
        ∀ (n : Nat) (args : List Expr) (e : Definition) (m' : Machine),
          Enters (.ofFuel n) name args m e m' → e = d := by
  constructor
  · intro fuel t m m' hm
    exact History.task fuel t hm
  · intro m₀ m h
    refine ⟨h.history, fun name d hd => ⟨h.history.function?_eq_some hd, ?_⟩⟩
    intro n args e m' he
    exact h.eq_of_enters hd he

def usurper : Definition := ⟨2, "f", none, [], ⟨.block [], none⟩⟩

/-- A function that defines another one of its name, prints, and ends with an error. -/
def usurped : Definition :=
  ⟨1, "f", none, [], ⟨.block [⟨.define usurper, none⟩, ⟨.print (.text "still"), none⟩,
    ⟨.leave, none⟩], none⟩⟩

def Machine.ofUsurped : Machine :=
  { Machine.new 9 .collect false [] with functions := [usurped] }

theorem histories_grow_usurped : ∃ m' : Machine,
    ((Task.call "f" []).perform 9 .ofUsurped).machine? = some m' ∧
    m'.functions.map (·.id) = [1, 2] ∧ m'.console.out = "still\n" ∧
    [] <+: m'.diagnostics.toList ∧ m'.function? "f" = some usurped ∧
    ∀ (e : Definition) (m'' : Machine), Enters (.ofFuel 9) "f" [] m' e m'' → e = usurped := by
  have hends : (((Task.call "f" []).perform 9 .ofUsurped).machine?.map fun m' =>
      (m'.functions.map (·.id), m'.console.out)) = some ([1, 2], "still\n") := by
    decide +kernel
  obtain ⟨m', hm', hrecords⟩ := Option.map_eq_some_iff.1 hends
  obtain ⟨hids, hout⟩ := Prod.mk.inj hrecords
  have hlater : Later .ofUsurped m' := Later.start.task 9 _ hm'
  obtain ⟨hgrow, hlookup⟩ := histories_grow
  have hhistory := hgrow 9 _ _ m' hm'
  obtain ⟨-, hnames⟩ := hlookup _ m' hlater
  obtain ⟨hfound, henters⟩ := hnames "f" usurped rfl
  exact ⟨m', hm', hids, hout, hhistory.diagnostics, hfound, fun e m'' he => henters 9 [] e m'' he⟩

end Yap
