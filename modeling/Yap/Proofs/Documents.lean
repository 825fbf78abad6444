import Mathlib.Data.List.Forall2
import Yap.Json.Shape
import Yap.Tree.Encode

/-! Documents that say the same. A record may have its fields in any order and fields under other
names, and may leave out a field that is null, empty modifiers and an empty list of parameters;
the name of a case may not be joined by another. Main statements: what the fields of such a
record are, and that a field, an optional field and a list are read from it as from the document
as written. -/
namespace Yap.Json

/-- Whether an object of a written tree is a record. The others have one field, named for a case. -/
def IsRecord : List (String × Json) → Prop
  | [(name, _)] => name = "line" ∨ name = "statements"
  | _ => True

@[simp] theorem isRecord_singleton (name : String) (j : Json) :
    IsRecord [(name, j)] ↔ name = "line" ∨ name = "statements" := Iff.rfl

/-- The fields that a record may leave out. -/
inductive Omissible : String → Json → Prop
  | null (name : String) : Omissible name .null
  | modifiers : Omissible "modifiers" (.str "")
  | params : Omissible "params" (.arr [])

@[simp] theorem omissible_iff {name : String} {j : Json} :
    Omissible name j ↔
      j = .null ∨ name = "modifiers" ∧ j = .str "" ∨ name = "params" ∧ j = .arr [] := by
  constructor
  · rintro (_ | _ | _)
    exacts [.inl rfl, .inr (.inl ⟨rfl, rfl⟩), .inr (.inr ⟨rfl, rfl⟩)]
  · rintro (rfl | ⟨rfl, rfl⟩ | ⟨rfl, rfl⟩)
    exacts [.null name, .modifiers, .params]

mutual

/-- The second document says what the first one does, as written in a tree. -/
inductive Variant : Json → Json → Prop
  | same (j : Json) : Variant j j
  | arr {js ks : List Json} : Variants js ks → Variant (.arr js) (.arr ks)
  | choice (tag : String) {j k : Json} : Variant j k → Variant (.obj [(tag, j)]) (.obj [(tag, k)])
  | record {fs gs : List (String × Json)} :
    IsRecord fs → Fields fs gs → Variant (.obj fs) (.obj gs)

inductive Variants : List Json → List Json → Prop
  | nil : Variants [] []
  | cons {j k : Json} {js ks : List Json} :
    Variant j k → Variants js ks → Variants (j :: js) (k :: ks)

/-- Among the second fields stands each of the first once, unless it is left out. -/
inductive Fields : List (String × Json) → List (String × Json) → Prop
  | nil (gs : List (String × Json)) : Fields [] gs
  | kept {name : String} {j k : Json} {fs gs : List (String × Json)} :
    fieldsNamed name gs = [k] → Variant j k → Fields fs gs → Fields ((name, j) :: fs) gs
  | omitted {name : String} {j : Json} {fs gs : List (String × Json)} :
    fieldsNamed name gs = [] → Omissible name j → Fields fs gs → Fields ((name, j) :: fs) gs

end

theorem Variants.refl : (js : List Json) → Variants js js
  | [] => .nil
  | j :: js => .cons (.same j) (refl js)

theorem fieldsNamed_of_mem {name : String} {j : Json} {fs : List (String × Json)}
    (hnames : (fs.map Prod.fst).Nodup) (h : (name, j) ∈ fs) : fieldsNamed name fs = [j] := by
  induction fs with
  | nil => cases h
  | cons f fs ih =>
    obtain ⟨hfresh, hnames⟩ := List.nodup_cons.1 hnames
    obtain rfl | h := List.mem_cons.1 h
    · rw [fieldsNamed_cons_self, fieldsNamed_eq_nil]
      exact fun g hg hname => hfresh (List.mem_map.2 ⟨g, hg, hname⟩)
    · have hne : f.1 ≠ name := fun hname => hfresh (List.mem_map.2 ⟨_, h, hname.symm⟩)
      rw [fieldsNamed_cons_of_ne hne, ih hnames h]

theorem Fields.of_nodup {fs gs : List (String × Json)} (hnames : (gs.map Prod.fst).Nodup)
    (hsub : fs ⊆ gs) : Fields fs gs := by
  induction fs with
  | nil => exact .nil gs
  | cons f fs ih =>
    obtain ⟨hf, hfs⟩ := List.cons_subset.1 hsub
    exact .kept (fieldsNamed_of_mem hnames hf) (.same f.2) (ih hfs)

theorem Variant.of_arr {js : List Json} {k : Json} (h : Variant (.arr js) k) :
    ∃ ks, k = .arr ks ∧ Variants js ks := by
  cases h with
  | same => exact ⟨js, rfl, .refl js⟩
  | arr h => exact ⟨_, rfl, h⟩

theorem Variant.of_choice {tag : String} {j k : Json} (hcase : ¬IsRecord [(tag, j)])
    (h : Variant (.obj [(tag, j)]) k) : ∃ i, k = .obj [(tag, i)] ∧ Variant j i := by
  cases h with
  | same => exact ⟨j, rfl, .same j⟩
  | choice _ h => exact ⟨_, rfl, h⟩
  | record hrecord _ => exact absurd hrecord hcase

theorem Variant.of_record {fs : List (String × Json)} {k : Json} (hrecord : IsRecord fs)
    (hnames : (fs.map Prod.fst).Nodup) (h : Variant (.obj fs) k) :
    ∃ gs, k = .obj gs ∧ Fields fs gs := by
  cases h with
  | same => exact ⟨fs, rfl, .of_nodup hnames (List.Subset.refl fs)⟩
  | choice tag h =>
    exact ⟨_, rfl, .kept (fieldsNamed_cons_self _ _ _) h (.nil _)⟩
  | record _ h => exact ⟨_, rfl, h⟩

theorem Variant.of_atom {j k : Json} (hatom : j.depth = 0) (h : Variant j k) : k = j := by
  cases h with
  | same => rfl
  | arr _ => cases hatom
  | choice _ _ => cases hatom
  | record _ _ => cases hatom

theorem Variant.eq_null {j : Json} (h : Variant j .null) : j = .null := by
  cases h
  rfl

theorem depth_le_of_mem_fieldsNamed {name : String} {j : Json} {fs : List (String × Json)}
    (h : j ∈ fieldsNamed name fs) : j.depth ≤ depth.fieldDepths fs := by
  induction fs with
  | nil => cases h
  | cons f fs ih =>
    by_cases hname : f.1 = name
    · subst hname
      rw [fieldsNamed_cons_self] at h
      obtain rfl | h := List.mem_cons.1 h
      · exact Nat.le_max_left _ _
      · exact Nat.le_trans (ih h) (Nat.le_max_right _ _)
    · rw [fieldsNamed_cons_of_ne hname] at h
      exact Nat.le_trans (ih h) (Nat.le_max_right _ _)

/-- What is found for a field: a variant of it, nested no deeper than allowed, or nothing if it may
be left out. -/
inductive Found (n : Nat) : String × Json → Option Json → Prop
  | kept {name : String} {j k : Json} : Variant j k → k.depth ≤ n → Found n (name, j) (some k)
  | omitted {name : String} {j : Json} : Omissible name j → Found n (name, j) none

theorem Fields.pick? {n : Nat} {fs gs : List (String × Json)} (hdepth : depth.fieldDepths gs ≤ n)
    (h : Fields fs gs) :
    ∃ found, pick? gs (fs.map Prod.fst) = some found ∧ List.Forall₂ (Found n) fs found := by
  induction fs with
  | nil => exact ⟨[], rfl, .nil⟩
  | cons f fs ih =>
    cases h with
    | @kept _ _ k _ _ hnamed hvariant h =>
      obtain ⟨found, hpick, hfound⟩ := ih h
      have hmem : k ∈ fieldsNamed _ gs := hnamed ▸ List.mem_singleton_self k
      have hk := Nat.le_trans (depth_le_of_mem_fieldsNamed hmem) hdepth
      refine ⟨_ :: found, ?_, .cons (.kept hvariant hk) hfound⟩
      simp only [List.map_cons, Json.pick?, hnamed, sole?, hpick]
    | omitted hnamed homit h =>
      obtain ⟨found, hpick, hfound⟩ := ih h
      refine ⟨none :: found, ?_, .cons (.omitted homit) hfound⟩
      simp only [List.map_cons, Json.pick?, hnamed, sole?, hpick]

/-- Every variant of the document is read as `a` at every allowance that it fits. -/
def Reads {α : Type} (read : Nat → Json → Option α) (j : Json) (a : α) : Prop :=
  ∀ ⦃k : Json⦄, Variant j k → ∀ ⦃n : Nat⦄, k.depth ≤ n → read n k = some a

section Reading

variable {α β : Type} {read : Nat → Json → Option α}

/-- A value in no array or object has no variant but itself. -/
theorem Reads.atom {j : Json} {a : α} (hatom : j.depth = 0) (h : ∀ n, read n j = some a) :
    Reads read j a := by
  intro k hvariant n _
  rw [hvariant.of_atom hatom, h]

theorem Reads.map {readAs : Nat → Json → Option β} {j : Json} {a : α} (h : Reads read j a)
    (f : α → β) (hreadAs : ∀ n k, readAs n k = (read n k).map f) : Reads readAs j (f a) := by
  intro k hvariant n hdepth
  rw [hreadAs, h hvariant hdepth, Option.map_some]

/-- A record is read off what is found for its fields. Their names stand in an equation, so that
a reader's own list of them is rewritten. -/
theorem Reads.record {fs : List (String × Json)} {a : α} (hrecord : IsRecord fs)
    (hnames : (fs.map Prod.fst).Nodup)
    (h : ∀ n k found, (∀ names, fs.map Prod.fst = names → fields? names k = some found) →
      List.Forall₂ (Found n) fs found → read (n + 1) k = some a) :
    Reads read (.obj fs) a := by
  intro k hvariant n hdepth
  obtain ⟨gs, rfl, hfields⟩ := hvariant.of_record hrecord hnames
  cases n with
  | zero => cases hdepth
  | succ n =>
    obtain ⟨found, hpick, hfound⟩ := hfields.pick? (Nat.le_of_succ_le_succ hdepth)
    exact h n _ found (fun names hmap => hmap ▸ hpick) hfound

/-- A case is read off the document under its name. -/
theorem Reads.choice {tag : String} {j : Json} {a : α} (hcase : ¬IsRecord [(tag, j)])
    (h : Reads (fun n k => read (n + 1) (.obj [(tag, k)])) j a) :
    Reads read (.tagged tag j) a := by
  intro k hvariant n hdepth
  obtain ⟨i, rfl, hi⟩ := hvariant.of_choice hcase
  cases n with
  | zero => cases hdepth
  | succ n => exact h hi (by simpa [depth, depth.fieldDepths] using hdepth)

/-- A list is read item by item. -/
theorem Variants.mapM {write : β → Json} {value : β → α} {bs : List β} {ks : List Json} {n : Nat}
    (hreads : ∀ b ∈ bs, Reads read (write b) (value b)) (h : Variants (bs.map write) ks)
    (hdepth : depth.depths ks ≤ n) : ks.mapM (read n) = some (bs.map value) := by
  induction bs generalizing ks with
  | nil =>
    cases h
    rfl
  | cons b bs ih =>
    cases h with
    | cons hb hbs =>
      obtain ⟨hk, hks⟩ := Nat.max_le.1 hdepth
      obtain ⟨hread, hreads⟩ := List.forall_mem_cons.1 hreads
      rw [List.mapM_cons, hread hb hk, ih hreads hbs hks]
      rfl

/-- A list is read off the items of an array. -/
theorem Reads.arr {js : List Json} {a : α}
    (h : ∀ n ks, Variants js ks → depth.depths ks ≤ n → read (n + 1) (.arr ks) = some a) :
    Reads read (.arr js) a := by
  intro k hvariant n hdepth
  obtain ⟨ks, rfl, hks⟩ := hvariant.of_arr
  cases n with
  | zero => cases hdepth
  | succ n => exact h n ks hks (Nat.le_of_succ_le_succ hdepth)

/-- What may be absent is read off null, or off a document that is not null. -/
theorem Reads.optional {write : β → Json} {value : β → α} {b : Option β}
    (hwrite : ∀ c, write c ≠ .null) (hreads : ∀ c ∈ b, Reads read (write c) (value c)) :
    Reads (fun n k => optional (read n) (some k)) (ofOption write b) (b.map value) := by
  intro k hvariant n hdepth
  cases b with
  | none =>
    cases hvariant
    rfl
  | some c =>
    have hread := hreads c rfl hvariant hdepth
    cases k with
    | null => exact absurd hvariant.eq_null (hwrite c)
    | _ => simp [Json.optional, hread]

theorem Found.required {n : Nat} {name : String} {j : Json} {a : α} {o : Option Json}
    (h : Found n (name, j) o) (hname : ¬Omissible name j) (hreads : Reads read j a) :
    o.bind (read n) = some a := by
  cases h with
  | kept hvariant hdepth => exact hreads hvariant hdepth
  | omitted homit => exact absurd homit hname

theorem Found.optional {n : Nat} {name : String} {write : β → Json} {value : β → α}
    {b : Option β} {o : Option Json} (h : Found n (name, .ofOption write b) o)
    (hname : ∀ c, ¬Omissible name (write c))
    (hreads : ∀ c ∈ b, Reads read (write c) (value c)) :
    optional (read n) o = some (b.map value) := by
  cases h with
  | kept hvariant hdepth =>
    have hwrite (c : β) : write c ≠ .null := fun hnull => hname c (hnull ▸ .null name)
    exact Reads.optional hwrite hreads hvariant hdepth
  | omitted homit =>
    cases b with
    | none => rfl
    | some c => exact absurd homit (hname c)

/-- A field that has a value when it is left out, written so that only this value may be. -/
theorem Found.defaulted {n : Nat} {name : String} {j : Json} {a b : α} {o : Option Json}
    (h : Found n (name, j) o) (hname : Omissible name j → b = a) (hreads : Reads read j b) :
    defaulted a (read n) o = some b := by
  cases h with
  | kept hvariant hdepth => exact hreads hvariant hdepth
  | omitted homit => exact congrArg some (hname homit).symm

theorem Found.arr {n : Nat} {name : String} {js : List Json} {o : Option Json}
    (h : Found n (name, .arr js) o) (hname : ¬Omissible name (.arr js)) :
    ∃ m ks, n = m + 1 ∧ o = some (.arr ks) ∧ Variants js ks ∧ depth.depths ks ≤ m := by
  cases h with
  | kept hvariant hdepth =>
    obtain ⟨ks, rfl, hks⟩ := hvariant.of_arr
    obtain ⟨m, rfl⟩ := Nat.exists_eq_succ_of_ne_zero (Nat.ne_zero_of_lt hdepth)
    exact ⟨m, ks, rfl, rfl, hks, Nat.le_of_succ_le_succ hdepth⟩
  | omitted homit => exact absurd homit hname

end Reading

end Yap.Json
