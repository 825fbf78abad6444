import Mathlib.Data.List.Chain
import Mathlib.Data.List.DropRight
import Yap.Format.Spec

/-! Formats and their pieces. Pieces are written back as text, with every percent sign of literal
text doubled. Main statements: a specification is read from what it shows, whatever is behind it,
and pieces are what comes from parsing if and only if they are read back from what they are written
as. -/
namespace Yap.Format

section Scanning

variable {u v rest : List Char} {c : Char}

/-- What is left of a text whose first character is dropped is shorter. -/
theorem not_dropWhile_keeps {p : Char → Bool} (hc : p c = true) :
    (c :: rest).dropWhile p ≠ v ++ c :: rest := by
  intro h
  have hle := (List.dropWhile_suffix (l := rest) p).length_le
  rw [List.dropWhile_cons_of_pos hc] at h
  simp only [h, List.length_append, List.length_cons] at hle
  omega

/-- Dropping looks at nothing behind a character that it leaves. -/
theorem dropWhile_replace {p : Char → Bool} (h : (u ++ c :: rest).dropWhile p = v ++ c :: rest)
    (rest' : List Char) : (u ++ c :: rest').dropWhile p = v ++ c :: rest' ∧
      (u ++ c :: rest').takeWhile p = (u ++ c :: rest).takeWhile p := by
  induction u with
  | nil =>
    cases hc : p c with
    | true => exact absurd h (not_dropWhile_keeps hc)
    | false =>
      rw [List.nil_append, List.dropWhile_cons_of_neg (by simp [hc]), List.self_eq_append_left] at h
      simp [hc, h]
  | cons d u ih =>
    cases hd : p d with
    | true =>
      simp only [List.cons_append, List.dropWhile_cons, List.takeWhile_cons, hd, if_true] at h ⊢
      exact ⟨(ih h).1, congrArg (d :: ·) (ih h).2⟩
    | false =>
      rw [List.cons_append, List.dropWhile_cons_of_neg (by simp [hd])] at h
      have hv : d :: u = v := List.append_cancel_right h
      simp [← hv, hd]

theorem takeNumber_replace {n : Option Nat}
    (h : takeNumber (u ++ c :: rest) = (n, v ++ c :: rest)) (rest' : List Char) :
    takeNumber (u ++ c :: rest') = (n, v ++ c :: rest') := by
  obtain ⟨hn, hv⟩ := Prod.mk.inj h
  obtain ⟨hdrop, htake⟩ := dropWhile_replace hv rest'
  simp only [takeNumber, hdrop, htake, ← hn]

theorem takeFlags_replace {f : Flags} (h : takeFlags (u ++ c :: rest) = (f, v ++ c :: rest))
    (rest' : List Char) : takeFlags (u ++ c :: rest') = (f, v ++ c :: rest') := by
  induction u generalizing f with
  | nil =>
    rw [List.nil_append, takeFlags] at h ⊢
    cases hc : Flags.ofChar? c with
    | none =>
      simp only [hc, Prod.mk.injEq, List.self_eq_append_left] at h
      simp [h]
    | some g =>
      simp only [hc, Prod.mk.injEq] at h
      have hle := (takeFlags_suffix rest).length_le
      simp only [h.2, List.length_append, List.length_cons] at hle
      omega
  | cons d u ih =>
    rw [List.cons_append, takeFlags] at h ⊢
    cases hd : Flags.ofChar? d with
    | none =>
      simp only [hd, Prod.mk.injEq] at h
      have hv : d :: u = v := List.append_cancel_right h.2
      simp [← hv, h.1]
    | some g =>
      simp only [hd, Prod.mk.injEq] at h
      rw [ih (Prod.ext rfl h.2)]
      simp [h.1]

theorem takePrecision_of_ne {s : List Char} (h : s.head? ≠ some '.') :
    takePrecision s = .ok (none, s) := by
  unfold takePrecision
  split
  · exact absurd rfl h
  · exact absurd rfl h
  · rfl

theorem takePrecision_point {s : List Char} (h : s.head? ≠ some '*') :
    takePrecision ('.' :: s) = .ok (some ((takeNumber s).1.getD 0), (takeNumber s).2) := by
  unfold takePrecision
  split
  · rename_i heq
    cases heq
    exact absurd rfl h
  · rename_i heq
    cases heq
    rfl
  · rename_i hne
    exact absurd rfl (hne s)

theorem takePrecision_star {s : List Char} (h : s.head? = some '*') :
    takePrecision ('.' :: s) = .error .starPrecision := by
  obtain ⟨s, rfl⟩ := List.head?_eq_some_iff.1 h
  rfl

/-- The first character of a text is not told by what is behind a character that is kept. -/
theorem head?_replace (rest' : List Char) :
    (u ++ c :: rest').head? = (u ++ c :: rest).head? := by
  cases u <;> rfl

theorem takePrecision_replace {p : Option Nat}
    (h : takePrecision (u ++ c :: rest) = .ok (p, v ++ c :: rest)) (rest' : List Char) :
    takePrecision (u ++ c :: rest') = .ok (p, v ++ c :: rest') := by
  by_cases hpoint : (u ++ c :: rest).head? = some '.'
  · obtain ⟨s, hs⟩ := List.head?_eq_some_iff.1 hpoint
    have hstar : s.head? ≠ some '*' := fun hstar => by
      rw [hs, takePrecision_star hstar] at h
      cases h
    rw [hs, takePrecision_point hstar, Except.ok.injEq, Prod.mk.injEq] at h
    cases u with
    | nil =>
      have hle := (takeNumber_suffix s).length_le
      obtain ⟨-, rfl⟩ := List.cons.inj hs
      simp only [h.2, List.length_append, List.length_cons] at hle
      omega
    | cons d u =>
      rw [List.cons_append] at hs
      obtain ⟨rfl, rfl⟩ := List.cons.inj hs
      have hnumber := takeNumber_replace (Prod.ext rfl h.2) rest'
      rw [List.cons_append, takePrecision_point ((head?_replace rest').trans_ne hstar), hnumber,
        ← h.1]
  · rw [takePrecision_of_ne hpoint, Except.ok.injEq, Prod.mk.injEq] at h
    rw [takePrecision_of_ne ((head?_replace rest').trans_ne hpoint), ← h.1,
      List.append_cancel_right h.2]

/-- How a specification is read from a text: up to which places its parts reach, and its last
character. -/
structure Spec.Reads (spec : Spec) (u w p l : List Char) (c : Char) (rest : List Char) : Prop where
  flags : takeFlags (u ++ c :: rest) = (spec.flags, w ++ c :: rest)
  width : takeNumber (w ++ c :: rest) = (spec.width, p ++ c :: rest)
  no_star : (p ++ c :: rest).head? ≠ some '*'
  precision : takePrecision (p ++ c :: rest) = .ok (spec.precision, l ++ c :: rest)
  lengths : (l ++ c :: rest).dropWhile isLength = c :: rest
  conversion : Conversion.ofChar? c = some spec.conversion
  source : spec.source = '%' :: (u ++ [c])

/-- What is behind a specification has no say in it. -/
theorem Spec.Reads.replace {spec : Spec} {w p l : List Char} (h : spec.Reads u w p l c rest)
    (rest' : List Char) : spec.Reads u w p l c rest' where
  flags := takeFlags_replace h.flags rest'
  width := takeNumber_replace h.width rest'
  no_star := (head?_replace rest').trans_ne h.no_star
  precision := takePrecision_replace h.precision rest'
  lengths := (dropWhile_replace (v := []) h.lengths rest').1
  conversion := h.conversion
  source := h.source

theorem takeSpec_of_reads {spec : Spec} {w p l : List Char} (h : spec.Reads u w p l c rest) :
    takeSpec (u ++ c :: rest) = .ok (spec, rest) := by
  have hlength : (u ++ c :: rest).length - rest.length = (u ++ [c]).length := by
    simp only [List.length_append, List.length_cons, List.length_nil]
    omega
  have htake : (u ++ c :: rest).take (u ++ [c]).length = u ++ [c] := by
    have hsplit : u ++ c :: rest = (u ++ [c]) ++ rest := List.append_cons u c rest
    rw [hsplit, List.take_left' rfl]
  simp only [takeSpec, h.flags, h.width, if_neg h.no_star, h.precision, h.lengths, h.conversion,
    hlength, htake]
  rw [← h.source]

theorem reads_of_takeSpec {s : List Char} {spec : Spec} (h : takeSpec s = .ok (spec, rest)) :
    ∃ u w p l c, s = u ++ c :: rest ∧ spec.Reads u w p l c rest := by
  have hsource := (takeSpec_source h).1
  cases hf : takeFlags s with
  | mk flags s₁ =>
  cases hn : takeNumber s₁ with
  | mk width s₂ =>
  rw [takeSpec, hf] at h
  dsimp only at h
  rw [hn] at h
  dsimp only at h
  split at h
  · cases h
  rename_i hstar
  split at h
  · cases h
  rename_i precision s₃ hp
  split at h
  · cases h
  rename_i c rest' hl
  split at h
  · cases h
  rename_i conversion hc
  obtain ⟨rfl, rfl⟩ := Prod.mk.inj (Except.ok.inj h)
  have h₃ : (c :: rest') <:+ s₃ := hl ▸ List.dropWhile_suffix isLength
  have h₂ : (c :: rest') <:+ s₂ := h₃.trans (takePrecision_suffix hp)
  have h₁ : (c :: rest') <:+ s₁ := by
    have hsuffix := takeNumber_suffix s₁
    rw [hn] at hsuffix
    exact h₂.trans hsuffix
  have h₀ : (c :: rest') <:+ s := by
    have hsuffix := takeFlags_suffix s
    rw [hf] at hsuffix
    exact h₁.trans hsuffix
  obtain ⟨l, rfl⟩ := h₃
  obtain ⟨p, rfl⟩ := h₂
  obtain ⟨w, rfl⟩ := h₁
  obtain ⟨u, rfl⟩ := h₀
  refine ⟨u, w, p, l, c, rfl, hf, hn, hstar, hp, hl, hc, ?_⟩
  have hcut : ('%' :: (u ++ [c])) ++ rest' = '%' :: (u ++ c :: rest') := by simp
  exact (List.append_cancel_right (hcut.trans hsource)).symm

/-- A specification is read from what it shows, whatever is behind it. -/
theorem takeSpec_replace {s body : List Char} {spec : Spec} (h : takeSpec s = .ok (spec, rest))
    (hbody : spec.source = '%' :: body) (rest' : List Char) :
    takeSpec (body ++ rest') = .ok (spec, rest') := by
  obtain ⟨u, w, p, l, c, rfl, hreads⟩ := reads_of_takeSpec h
  have hsource := hbody.symm.trans hreads.source
  obtain ⟨-, rfl⟩ := List.cons.inj hsource
  have hread := takeSpec_of_reads (hreads.replace rest')
  simpa using hread

/-- No specification is read from a text that starts with a percent sign. -/
theorem takeSpec_percent (s : List Char) : takeSpec ('%' :: s) = .error (.unsupported '%') := rfl

end Scanning

section Pieces

variable {literal s t rest : List Char} {c : Char} {spec : Spec} {ps : List Piece}

/-- Text with every percent sign doubled. -/
def escape (t : List Char) : List Char := t.flatMap fun c => if c = '%' then ['%', '%'] else [c]

def Piece.text : Piece → List Char
  | .literal t => escape t
  | .spec s => s.source

def unparse (ps : List Piece) : String := String.ofList (ps.flatMap Piece.text)

def Piece.isLiteral : Piece → Bool
  | .literal _ => true
  | .spec _ => false

/-- Literal pieces are not empty, and never next to each other. -/
structure Tidy (ps : List Piece) : Prop where
  nonempty : .literal [] ∉ ps
  apart : ps.IsChain fun p q => p.isLiteral = false ∨ q.isLiteral = false

def Spec.Parsed (s : Spec) : Prop := ∃ format ps, parse format = .ok ps ∧ .spec s ∈ ps

/-- The text with its last percent sign doubled if that stands alone: if there is an odd number of
them at the end. -/
def paired (s : List Char) : List Char :=
  if (s.rtakeWhile (· = '%')).length % 2 = 1 then s ++ ['%'] else s

theorem rtakeWhile_behind {p : Char → Bool} (hc : ¬ p c) (t s : List Char) :
    (t ++ c :: s).rtakeWhile p = s.rtakeWhile p := by
  induction s using List.reverseRecOn with
  | nil => rw [List.rtakeWhile_concat_neg p t c hc, List.rtakeWhile_nil]
  | append_singleton s x ih =>
    rw [← List.cons_append, ← List.append_assoc]
    by_cases hx : p x
    · rw [List.rtakeWhile_concat_pos p _ x hx, List.rtakeWhile_concat_pos p _ x hx, ih]
    · rw [List.rtakeWhile_concat_neg p _ x hx, List.rtakeWhile_concat_neg p _ x hx]

theorem paired_append (hc : c ≠ '%') (t s : List Char) :
    paired (t ++ c :: s) = t ++ c :: paired s := by
  rw [paired, paired, rtakeWhile_behind (by simpa using hc)]
  split
  · simp
  · rfl

theorem paired_cons (hc : c ≠ '%') (s : List Char) : paired (c :: s) = c :: paired s :=
  paired_append hc [] s

theorem paired_nil : paired [] = [] := rfl

theorem paired_lone : paired ['%'] = ['%', '%'] := rfl

/-- A specification does not end with a percent sign. -/
theorem paired_spec (h : takeSpec s = .ok (spec, rest)) :
    paired ('%' :: s) = spec.source ++ paired rest := by
  obtain ⟨u, w, p, l, c, rfl, hreads⟩ := reads_of_takeSpec h
  have hc : c ≠ '%' := by
    rintro rfl
    exact nomatch hreads.conversion
  rw [hreads.source, ← List.cons_append, paired_append hc]
  simp

/-- Two percent signs in front change nothing about the last one standing alone. -/
theorem paired_percent (s : List Char) : paired ('%' :: '%' :: s) = '%' :: '%' :: paired s := by
  have hend : (('%' :: '%' :: s).rtakeWhile (· = '%')).length % 2 =
      (s.rtakeWhile (· = '%')).length % 2 := by
    induction s using List.reverseRecOn with
    | nil => rfl
    | append_singleton s x ih =>
      rw [← List.cons_append, ← List.cons_append]
      by_cases hx : x = '%'
      · have hx : decide (x = '%') = true := by simpa using hx
        rw [List.rtakeWhile_concat_pos _ _ x hx, List.rtakeWhile_concat_pos _ _ x hx,
          List.length_append, List.length_append, Nat.add_mod, ih, ← Nat.add_mod]
      · have hx : ¬ decide (x = '%') = true := by simpa using hx
        rw [List.rtakeWhile_concat_neg _ _ x hx, List.rtakeWhile_concat_neg _ _ x hx]
  rw [paired, paired, hend]
  split
  · simp
  · rfl

@[simp] theorem escape_nil : escape [] = [] := rfl

@[simp] theorem escape_append (s t : List Char) : escape (s ++ t) = escape s ++ escape t := by
  simp [escape]

@[simp] theorem escape_percent : escape ['%'] = ['%', '%'] := rfl

theorem escape_singleton (hc : c ≠ '%') : escape [c] = [c] := by simp [escape, hc]

theorem parseFrom_nil (literal : List Char) :
    parseFrom literal [] = .ok (consLiteral literal.reverse []) := by rw [parseFrom]

theorem parseFrom_cons (hc : c ≠ '%') (literal s : List Char) :
    parseFrom literal (c :: s) = parseFrom (c :: literal) s := by
  rw [parseFrom.eq_def]
  simp only [if_neg hc]

theorem parseFrom_percent (literal s : List Char) :
    parseFrom literal ('%' :: '%' :: s) = parseFrom ('%' :: literal) s := by
  rw [parseFrom, if_pos rfl]
  simp only [if_pos]

theorem parseFrom_lone (literal : List Char) :
    parseFrom literal ['%'] = .ok (consLiteral ('%' :: literal).reverse []) := by
  rw [parseFrom, if_pos rfl]

/-- A specification ends the literal text in front of it. -/
theorem parseFrom_spec (h : takeSpec s = .ok (spec, rest)) (literal : List Char) :
    parseFrom literal ('%' :: s) =
      (parseFrom [] rest).map fun ps => consLiteral literal.reverse (.spec spec :: ps) := by
  cases s with
  | nil => cases h
  | cons d s =>
    have hd : d ≠ '%' := by
      rintro rfl
      rw [takeSpec_percent] at h
      cases h
    rw [parseFrom, if_pos rfl]
    simp only [if_neg hd]
    split
    · rename_i h'
      rw [h] at h'
      cases h'
    · rename_i h'
      rw [h] at h'
      cases h'
      rfl

theorem parseFrom_error {e : FormatFault} (hc : c ≠ '%') (h : takeSpec (c :: s) = .error e)
    (literal : List Char) : parseFrom literal ('%' :: c :: s) = .error e := by
  rw [parseFrom, if_pos rfl, if_neg hc]
  split
  · rename_i h'
    rw [h] at h'
    cases h'
    rfl
  · rename_i h'
    rw [h] at h'
    cases h'

theorem parseFrom_escape (t literal s : List Char) :
    parseFrom literal (escape t ++ s) = parseFrom (t.reverse ++ literal) s := by
  induction t generalizing literal with
  | nil => rfl
  | cons c t ih =>
    rw [← List.singleton_append, escape_append, List.append_assoc]
    by_cases hc : c = '%'
    · subst hc
      rw [escape_percent, List.cons_append, List.singleton_append, parseFrom_percent, ih]
      simp
    · rw [escape_singleton hc, List.singleton_append, parseFrom_cons hc, ih]
      simp

theorem consLiteral_of_ne (ht : t ≠ []) (ps : List Piece) :
    consLiteral t ps = .literal t :: ps := by
  rw [consLiteral, if_neg (by simpa using ht)]

theorem Tidy.nil : Tidy [] := ⟨List.not_mem_nil, .nil⟩

theorem tidy_spec_cons : Tidy (.spec spec :: ps) ↔ Tidy ps := by
  constructor
  · intro h
    exact ⟨fun hmem => h.nonempty (List.mem_cons_of_mem _ hmem), h.apart.tail⟩
  · intro h
    refine ⟨?_, h.apart.cons fun p _ => .inl rfl⟩
    rw [List.mem_cons]
    rintro (heq | hmem)
    · cases heq
    · exact h.nonempty hmem

theorem tidy_literal_cons :
    Tidy (.literal t :: ps) ↔ t ≠ [] ∧ (∀ p ∈ ps.head?, p.isLiteral = false) ∧ Tidy ps := by
  constructor
  · intro h
    refine ⟨?_, ?_, fun hmem => h.nonempty (List.mem_cons_of_mem _ hmem), h.apart.tail⟩
    · rintro rfl
      exact h.nonempty List.mem_cons_self
    · intro p hp
      exact (h.apart.rel_head? hp).resolve_left Bool.noConfusion
  · rintro ⟨ht, hp, h⟩
    refine ⟨?_, h.apart.cons fun p hmem => .inr (hp p hmem)⟩
    rw [List.mem_cons]
    rintro (heq | hmem)
    · exact ht (Piece.literal.inj heq).symm
    · exact h.nonempty hmem

theorem tidy_consLiteral (t : List Char) (h : Tidy ps) (hp : ∀ p ∈ ps.head?, p.isLiteral = false) :
    Tidy (consLiteral t ps) := by
  by_cases ht : t = []
  · subst ht
    exact h
  · rw [consLiteral_of_ne ht]
    exact tidy_literal_cons.2 ⟨ht, hp, h⟩

theorem text_consLiteral (t : List Char) (ps : List Piece) :
    (consLiteral t ps).flatMap Piece.text = escape t ++ ps.flatMap Piece.text := by
  by_cases ht : t = []
  · subst ht
    rfl
  · rw [consLiteral_of_ne ht]
    rfl

theorem spec_mem_consLiteral : .spec spec ∈ consLiteral t ps ↔ .spec spec ∈ ps := by
  by_cases ht : t = []
  · subst ht
    rfl
  · rw [consLiteral_of_ne ht]
    simp

/-- What parsing makes of a text behind literal text already read. -/
structure Accounts (literal s : List Char) (ps : List Piece) : Prop where
  tidy : Tidy ps
  text : ps.flatMap Piece.text = escape literal.reverse ++ paired s
  read : ∀ spec, .spec spec ∈ ps → ∃ s rest, takeSpec s = .ok (spec, rest)

theorem accounts_of_parseFrom (h : parseFrom literal s = .ok ps) : Accounts literal s ps := by
  induction literal, s using parseFrom.induct generalizing ps with
  | case1 literal =>
    rw [parseFrom_nil] at h
    cases h
    exact ⟨tidy_consLiteral _ .nil (by simp), by simp [text_consLiteral, paired_nil], by
      simp [spec_mem_consLiteral]⟩
  | case2 literal =>
    rw [parseFrom_lone] at h
    cases h
    exact ⟨tidy_consLiteral _ .nil (by simp), by simp [text_consLiteral, paired_lone], by
      simp [spec_mem_consLiteral]⟩
  | case3 literal s ih =>
    rw [parseFrom_percent] at h
    have hs := ih h
    exact ⟨hs.tidy, by simp [hs.text, paired_percent], hs.read⟩
  | case4 literal c s hc e he =>
    rw [parseFrom_error hc he] at h
    cases h
  | case5 literal c s hc spec rest hspec hlt ih =>
    rw [parseFrom_spec hspec] at h
    cases hrest : parseFrom [] rest with
    | error e =>
      rw [hrest] at h
      cases h
    | ok qs =>
      rw [hrest] at h
      cases h
      have hs := ih hrest
      refine ⟨tidy_consLiteral _ (tidy_spec_cons.2 hs.tidy) (by simp [Piece.isLiteral]), ?_, ?_⟩
      · simp [text_consLiteral, Piece.text, hs.text, paired_spec hspec]
      · intro spec' hmem
        rw [spec_mem_consLiteral, List.mem_cons] at hmem
        rcases hmem with heq | hmem
        · cases heq
          exact ⟨_, _, hspec⟩
        · exact hs.read spec' hmem
  | case6 literal c s hc ih =>
    rw [parseFrom_cons hc] at h
    have hs := ih h
    exact ⟨hs.tidy, by simp [hs.text, escape_singleton hc, paired_cons hc], hs.read⟩

theorem parseFrom_source (h : takeSpec s = .ok (spec, rest)) (literal rest' : List Char) :
    parseFrom literal (spec.source ++ rest') =
      (parseFrom [] rest').map fun ps => consLiteral literal.reverse (.spec spec :: ps) := by
  obtain ⟨u, w, p, l, c, rfl, hreads⟩ := reads_of_takeSpec h
  rw [hreads.source, List.cons_append, parseFrom_spec (takeSpec_replace h hreads.source rest')]

/-- Pieces are read back behind literal text that they do not go on with. -/
theorem parseFrom_unparse (h : Tidy ps)
    (hread : ∀ spec, .spec spec ∈ ps → ∃ s rest, takeSpec s = .ok (spec, rest))
    (hp : literal ≠ [] → ∀ p ∈ ps.head?, p.isLiteral = false) :
    parseFrom literal (ps.flatMap Piece.text) = .ok (consLiteral literal.reverse ps) := by
  induction ps generalizing literal with
  | nil => exact parseFrom_nil literal
  | cons p ps ih =>
    have hreads : ∀ spec, .spec spec ∈ ps → ∃ s rest, takeSpec s = .ok (spec, rest) :=
      fun spec hmem => hread spec (List.mem_cons_of_mem _ hmem)
    cases p with
    | spec spec =>
      obtain ⟨s, rest, hspec⟩ := hread spec List.mem_cons_self
      have hps : parseFrom [] (ps.flatMap Piece.text) = .ok ps :=
        ih (tidy_spec_cons.1 h) hreads (absurd rfl)
      rw [List.flatMap_cons, Piece.text, parseFrom_source hspec, hps]
      rfl
    | literal t =>
      obtain ⟨ht, hhead, htidy⟩ := tidy_literal_cons.1 h
      have hnil : literal = [] :=
        Decidable.byContradiction fun hne => Bool.noConfusion (hp hne _ rfl)
      subst hnil
      have hps : parseFrom t.reverse (ps.flatMap Piece.text) =
          .ok (consLiteral t.reverse.reverse ps) := ih htidy hreads fun _ => hhead
      rw [List.flatMap_cons, Piece.text, parseFrom_escape, List.append_nil, hps,
        List.reverse_reverse, consLiteral_of_ne ht]
      rfl

theorem parse_unparse_iff :
    parse (unparse ps) = .ok ps ↔ Tidy ps ∧ ∀ spec, .spec spec ∈ ps → spec.Parsed := by
  constructor
  · intro h
    exact ⟨(accounts_of_parseFrom h).tidy, fun spec hmem => ⟨_, _, h, hmem⟩⟩
  · rintro ⟨htidy, hparsed⟩
    have hread : ∀ spec, .spec spec ∈ ps → ∃ s rest, takeSpec s = .ok (spec, rest) := by
      intro spec hmem
      obtain ⟨format, qs, hqs, hmem'⟩ := hparsed spec hmem
      exact (accounts_of_parseFrom hqs).read spec hmem'
    rw [parse, unparse, String.toList_ofList]
    exact parseFrom_unparse htidy hread (absurd rfl)

end Pieces

end Yap.Format
