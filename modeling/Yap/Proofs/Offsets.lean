import Mathlib
import Yap.Proofs.Decoding
import Yap.Proofs.Unparsing
import Yap.Text.Utf8

/-! Formats parsed by the offsets of their bytes. A specification is scanned byte by byte, and texts
are cut at the offsets that come of it, which is refused inside a character. Main statement: what is
parsed is written back as it was, pieces are what comes from parsing if and only if they are read
back from what they are written as, and no text is ever cut inside a character. -/
namespace Yap.Format

open Text

/-- The parts of a text in front of an offset and behind it. None if the offset is inside of a
character or behind the end. -/
def cut? : List Char → Nat → Option (List Char × List Char)
  | s, 0 => some ([], s)
  | [], _ + 1 => none
  | c :: s, n + 1 =>
    if c.utf8Size ≤ n + 1 then
      (cut? s (n + 1 - c.utf8Size)).map fun parts => (c :: parts.1, parts.2)
    else none

theorem cut?_append (t s : List Char) :
    cut? (t ++ s) (Utf8.encode t).length = some (t, s) := by
  induction t with
  | nil => cases s <;> rfl
  | cons c t ih =>
    have hsize : (Utf8.encode (c :: t)).length = c.utf8Size + (Utf8.encode t).length := by
      simp [String.length_utf8EncodeChar]
    have hpos := c.utf8Size_pos
    obtain ⟨n, hn⟩ : ∃ n, c.utf8Size + (Utf8.encode t).length = n + 1 :=
      Nat.exists_eq_succ_of_ne_zero (by omega)
    have hleft : n + 1 - c.utf8Size = (Utf8.encode t).length := by omega
    rw [List.cons_append, hsize, hn, cut?, if_pos (by omega), hleft, ih]
    rfl

/-- A text is cut exactly where a character starts or the text ends. -/
theorem cut?_eq_some {s t rest : List Char} {n : Nat} :
    cut? s n = some (t, rest) ↔ s = t ++ rest ∧ n = (Utf8.encode t).length := by
  constructor
  · intro h
    induction s generalizing t n with
    | nil =>
      cases n with
      | zero =>
        cases h
        exact ⟨rfl, rfl⟩
      | succ n => cases h
    | cons c s ih =>
      cases n with
      | zero =>
        cases h
        exact ⟨rfl, rfl⟩
      | succ n =>
        rw [cut?] at h
        split at h
        · rename_i hsize
          obtain ⟨parts, hparts, heq⟩ := Option.map_eq_some_iff.1 h
          cases heq
          obtain ⟨hs, hn⟩ := ih hparts
          refine ⟨congrArg (c :: ·) hs, ?_⟩
          rw [Utf8.encode_cons, List.length_append, String.length_utf8EncodeChar, ← hn]
          omega
        · cases h
  · rintro ⟨rfl, rfl⟩
    exact cut?_append t rest

/-- A cut behind the start leaves less. -/
theorem length_lt_of_cut? {s t rest : List Char} {n : Nat} (h : cut? s (n + 1) = some (t, rest)) :
    rest.length < s.length := by
  obtain ⟨rfl, hn⟩ := cut?_eq_some.1 h
  have hpos : 0 < t.length := List.length_pos_iff.2 fun ht => by
    subst ht
    cases hn
  rw [List.length_append]
  omega

/-- The first of some bytes, as the character that it stands for by itself. -/
def lead (bs : List UInt8) : Option Char := bs.head?.map Char.ofUInt8

/-- The flags at the start of some bytes, and how many bytes they are. -/
def flagBytes : List UInt8 → Flags × Nat
  | [] => (Flags.none, 0)
  | b :: bs =>
    match Flags.ofChar? (Char.ofUInt8 b) with
    | some f => (f.union (flagBytes bs).1, (flagBytes bs).2 + 1)
    | none => (Flags.none, 0)

/-- The number at the start of some bytes, held at the greatest one at every digit, and how many
bytes it is. -/
def numberBytes (bs : List UInt8) : Option Nat × Nat :=
  let ds := bs.takeWhile fun b => (Char.ofUInt8 b).isDigit
  (if ds.isEmpty then none
   else some (ds.foldl (fun n b => min limit (min limit (n * 10) + (b.toNat - 48))) 0), ds.length)

/-- The precision at the start of some bytes, and how many bytes it is with its point. -/
def precisionBytes (bs : List UInt8) : Except FormatFault (Option Nat × Nat) :=
  if lead bs = some '.' then
    if lead bs.tail = some '*' then .error .starPrecision
    else .ok (some ((numberBytes bs.tail).1.getD 0), (numberBytes bs.tail).2 + 1)
  else .ok (none, 0)

def lengthBytes (bs : List UInt8) : Nat :=
  (bs.takeWhile fun b => isLength (Char.ofUInt8 b)).length

/-- The conversion at an offset. None if the text is cut inside a character. -/
def conversionAt? (text : List Char) (i : Nat) : Option (Except FormatFault Conversion) :=
  match lead ((Utf8.encode text).drop i) with
  | none => some (.error .incomplete)
  | some c =>
    match Conversion.ofChar? c with
    | none => (cut? text i).map fun parts => .error (.unsupported (parts.2.head?.getD '?'))
    | some conversion => some (.ok conversion)

/-- The specification that a text starts with, its source left out, and the offset of its last
character. None if the text is cut inside a character. -/
def scanSpec? (text : List Char) : Option (Except FormatFault (Spec × Nat)) :=
  let bs := Utf8.encode text
  let (flags, i) := flagBytes bs
  let (width, used) := numberBytes (bs.drop i)
  let i := i + used
  if lead (bs.drop i) = some '*' then some (.error .starWidth)
  else
    match precisionBytes (bs.drop i) with
    | .error e => some (.error e)
    | .ok (precision, used) =>
      let i := i + used
      let i := i + lengthBytes (bs.drop i)
      (conversionAt? text i).map fun found => found.map fun conversion =>
        (⟨flags, width, precision, conversion, []⟩, i)

def percent? (s : List Char) : Option Nat :=
  if '%' ∈ s then some (Utf8.encode (s.takeWhile (· ≠ '%'))).length else none

/-- The pieces of a format behind literal text already read. None if a text is cut inside a
character. -/
def scan? (literal s : List Char) : Option (Except FormatFault (List Piece)) :=
  match percent? s with
  | none => some (.ok (consLiteral (literal ++ s) []))
  | some i =>
    match cut? s i, _hs : cut? s (i + 1) with
    | some (front, _), some (_, after) =>
      match after with
      | [] => some (.ok (consLiteral (literal ++ front ++ ['%']) []))
      | c :: tail =>
        if c = '%' then scan? (literal ++ front ++ ['%']) tail
        else
          match scanSpec? (c :: tail) with
          | none => none
          | some (.error e) => some (.error e)
          | some (.ok (spec, j)) =>
            match _hrest : cut? (c :: tail) (j + 1) with
            | none => none
            | some (source, rest) =>
              (scan? [] rest).map fun pieces => pieces.map fun ps =>
                consLiteral (literal ++ front) (.spec { spec with source := '%' :: source } :: ps)
    | _, _ => none
termination_by s.length
decreasing_by
  · have hlt := length_lt_of_cut? _hs
    simp only [List.length_cons] at hlt
    omega
  · exact (length_lt_of_cut? _hrest).trans (length_lt_of_cut? _hs)

def scanFormat? (format : String) : Option (Except FormatFault (List Piece)) :=
  scan? [] format.toList

section Bytes

variable {c a : Char}

theorem encode_cons_ascii (hc : c.toNat < 128) (s : List Char) :
    Utf8.encode (c :: s) = UInt8.ofNat c.toNat :: Utf8.encode s := by
  rw [Utf8.encode_cons, Utf8.encodeChar_ascii hc, List.singleton_append]

theorem toNat_ofNat_ascii (hc : c.toNat < 128) : (UInt8.ofNat c.toNat).toNat = c.toNat := by
  rw [UInt8.toNat_ofNat']
  omega

theorem ofUInt8_ascii (hc : c.toNat < 128) : Char.ofUInt8 (UInt8.ofNat c.toNat) = c :=
  Char.toNat_inj.1 (toNat_ofNat_ascii hc)

/-- The first byte of a character beyond the first 128 stands for no such character. -/
theorem encode_cons_wide (hc : ¬ c.toNat < 128) (s : List Char) :
    ∃ b bs, Utf8.encode (c :: s) = b :: bs ∧ ¬ (Char.ofUInt8 b).toNat < 128 := by
  have hpos : 0 < (String.utf8EncodeChar c).length := by
    rw [String.length_utf8EncodeChar]
    exact c.utf8Size_pos
  obtain ⟨b, bs, hb⟩ := List.exists_cons_of_length_pos hpos
  refine ⟨b, bs ++ Utf8.encode s, by rw [Utf8.encode_cons, hb, List.cons_append], fun hlt => ?_⟩
  exact Utf8.encodeChar_wide hc b (by simp [hb]) (UInt8.lt_iff_toNat_lt.2 hlt)

theorem isEmpty_encode (s : List Char) : (Utf8.encode s).isEmpty = s.isEmpty := by
  cases s with
  | nil => rfl
  | cons c s =>
    by_cases hc : c.toNat < 128
    · rw [encode_cons_ascii hc]
      rfl
    · obtain ⟨b, bs, hb, -⟩ := encode_cons_wide hc s
      rw [hb]
      rfl

theorem lead_encode (ha : a.toNat < 128) (s : List Char) :
    lead (Utf8.encode s) = some a ↔ s.head? = some a := by
  cases s with
  | nil => rfl
  | cons c s =>
    by_cases hc : c.toNat < 128
    · simp [lead, encode_cons_ascii hc, ofUInt8_ascii hc]
    · obtain ⟨b, bs, hb, hwide⟩ := encode_cons_wide hc s
      rw [lead, hb]
      simp only [List.head?_cons, Option.map_some, Option.some.injEq]
      constructor
      · rintro rfl
        exact absurd ha hwide
      · rintro rfl
        exact absurd ha hc

theorem Flags.ofChar?_of_wide (hc : ¬ c.toNat < 128) : Flags.ofChar? c = Option.none := by
  unfold Flags.ofChar?
  split <;> first | rfl | exact absurd (by decide) hc

theorem Conversion.ofChar?_of_wide (hc : ¬ c.toNat < 128) : Conversion.ofChar? c = none := by
  unfold Conversion.ofChar?
  split <;> first | rfl | exact absurd (by decide) hc

theorem isLength_of_wide (hc : ¬ c.toNat < 128) : isLength c = false := by
  have hne (a : Char) (ha : a.toNat < 128) : (c == a) = false := by
    simp only [beq_eq_false_iff_ne]
    rintro rfl
    exact hc ha
  simp [isLength, hne]

theorem isDigit_of_wide (hc : ¬ c.toNat < 128) : c.isDigit = false := by
  rw [Char.isDigit, Bool.and_eq_false_iff]
  right
  rw [decide_eq_false_iff_not, UInt32.le_iff_toNat_le]
  exact fun hle => hc (Nat.lt_of_le_of_lt hle (by decide))

theorem takeWhile_encode {p : Char → Bool} (hp : ∀ c : Char, ¬ c.toNat < 128 → p c = false)
    (s : List Char) :
    (Utf8.encode s).takeWhile (fun b => p (Char.ofUInt8 b)) = Utf8.encode (s.takeWhile p) := by
  induction s with
  | nil => rfl
  | cons c s ih =>
    by_cases hc : c.toNat < 128
    · rw [encode_cons_ascii hc, List.takeWhile_cons, List.takeWhile_cons, ofUInt8_ascii hc, ih]
      split
      · exact (encode_cons_ascii hc _).symm
      · rfl
    · obtain ⟨b, bs, hb, hwide⟩ := encode_cons_wide hc s
      rw [hb, List.takeWhile_cons_of_neg (by simp [hp _ hwide]),
        List.takeWhile_cons_of_neg (by simp [hp _ hc])]
      rfl

theorem flagBytes_encode (s : List Char) :
    ∃ t, s = t ++ (takeFlags s).2 ∧
      flagBytes (Utf8.encode s) = ((takeFlags s).1, (Utf8.encode t).length) := by
  induction s with
  | nil => exact ⟨[], rfl, rfl⟩
  | cons c s ih =>
    by_cases hc : c.toNat < 128
    · obtain ⟨t, hs, ht⟩ := ih
      rw [encode_cons_ascii hc, flagBytes, ofUInt8_ascii hc, takeFlags]
      cases hf : Flags.ofChar? c with
      | none => exact ⟨[], rfl, rfl⟩
      | some f =>
        refine ⟨c :: t, congrArg (c :: ·) hs, ?_⟩
        simp only [ht, encode_cons_ascii hc, List.length_cons]
    · obtain ⟨b, bs, hb, hwide⟩ := encode_cons_wide hc s
      rw [hb, flagBytes, takeFlags, Flags.ofChar?_of_wide hwide, Flags.ofChar?_of_wide hc]
      exact ⟨[], rfl, rfl⟩

/-- A number that is held at the greatest one at every digit is the one that is held there at the
end. -/
theorem foldl_limit {ds : List Char} (hds : ∀ c ∈ ds, c.isDigit = true) (n : Nat) :
    (Utf8.encode ds).foldl (fun n b => min limit (min limit (n * 10) + (b.toNat - 48)))
        (min limit n) =
      min limit (ds.foldl (fun n c => n * 10 + (c.toNat - 48)) n) := by
  induction ds generalizing n with
  | nil => rfl
  | cons c ds ih =>
    have hc : c.toNat < 128 := Decidable.byContradiction fun hc => by
      have hdigit := hds c List.mem_cons_self
      rw [isDigit_of_wide hc] at hdigit
      cases hdigit
    have hstep : min limit (min limit (min limit n * 10) + (c.toNat - 48)) =
        min limit (n * 10 + (c.toNat - 48)) := by
      unfold limit
      omega
    rw [encode_cons_ascii hc, List.foldl_cons, List.foldl_cons, toNat_ofNat_ascii hc, hstep]
    exact ih (fun d hd => hds d (List.mem_cons_of_mem c hd)) _

theorem numberBytes_encode (s : List Char) :
    ∃ t, s = t ++ (takeNumber s).2 ∧
      numberBytes (Utf8.encode s) = ((takeNumber s).1, (Utf8.encode t).length) := by
  refine ⟨s.takeWhile Char.isDigit, List.takeWhile_append_dropWhile.symm, ?_⟩
  have hdigits : ∀ c ∈ s.takeWhile Char.isDigit, c.isDigit = true :=
    fun c hc => List.mem_takeWhile_imp hc
  have hvalue := foldl_limit hdigits 0
  have hempty : (Utf8.encode (s.takeWhile Char.isDigit)).isEmpty =
      (s.takeWhile Char.isDigit).isEmpty := isEmpty_encode _
  rw [numberBytes, takeWhile_encode fun _ => isDigit_of_wide, takeNumber, ← hvalue, ← hempty]
  rfl

theorem precisionBytes_encode (s : List Char) :
    match takePrecision s with
    | .error e => precisionBytes (Utf8.encode s) = .error e
    | .ok (p, rest) =>
      ∃ t, s = t ++ rest ∧ precisionBytes (Utf8.encode s) = .ok (p, (Utf8.encode t).length) := by
  have hpoint := lead_encode (a := '.') (by decide) s
  by_cases h : s.head? = some '.'
  · obtain ⟨s, rfl⟩ := List.head?_eq_some_iff.1 h
    have hstar := lead_encode (a := '*') (by decide) s
    have htail : (Utf8.encode ('.' :: s)).tail = Utf8.encode s := rfl
    obtain ⟨t, hs, ht⟩ := numberBytes_encode s
    rw [precisionBytes, if_pos (hpoint.2 h), htail]
    by_cases h' : s.head? = some '*'
    · rw [takePrecision_star h', if_pos (hstar.2 h')]
    · rw [takePrecision_point h', if_neg (mt hstar.1 h'), ht]
      exact ⟨'.' :: t, congrArg ('.' :: ·) hs, rfl⟩
  · rw [takePrecision_of_ne h, precisionBytes, if_neg (mt hpoint.1 h)]
    exact ⟨[], rfl, rfl⟩

theorem lengthBytes_encode (s : List Char) :
    lengthBytes (Utf8.encode s) = (Utf8.encode (s.takeWhile isLength)).length :=
  congrArg List.length (takeWhile_encode (fun _ => isLength_of_wide) s)

theorem drop_encode (t s : List Char) :
    (Utf8.encode (t ++ s)).drop (Utf8.encode t).length = Utf8.encode s := by
  rw [Utf8.encode_append, List.drop_left]

theorem length_encode_append (t s : List Char) :
    (Utf8.encode t).length + (Utf8.encode s).length = (Utf8.encode (t ++ s)).length := by
  rw [Utf8.encode_append, List.length_append]

theorem split_lengths (t s : List Char) :
    t ++ s = (t ++ s.takeWhile isLength) ++ s.dropWhile isLength := by
  rw [List.append_assoc, List.takeWhile_append_dropWhile]

/-- What is found behind lengths is seen as a whole, a conversion or not. -/
theorem conversionAt?_encode (t s : List Char) :
    conversionAt? (t ++ s) (Utf8.encode (t ++ s.takeWhile isLength)).length =
      some (match s.dropWhile isLength with
        | [] => .error .incomplete
        | c :: _ =>
          match Conversion.ofChar? c with
          | none => .error (.unsupported c)
          | some conversion => .ok conversion) := by
  rw [split_lengths t s, conversionAt?, drop_encode, cut?_append]
  rcases s.dropWhile isLength with _ | ⟨c, rest⟩
  · rfl
  by_cases hc : c.toNat < 128
  · rw [(lead_encode hc (c :: rest)).2 rfl]
    cases hconversion : Conversion.ofChar? c with
    | none => simp only [hconversion, Option.map_some, List.head?_cons, Option.getD_some]
    | some conversion => simp only [hconversion]
  · obtain ⟨b, bs, hb, hwide⟩ := encode_cons_wide hc rest
    simp only [hb, lead, List.head?_cons, Option.map_some, Conversion.ofChar?_of_wide hwide,
      Conversion.ofChar?_of_wide hc, Option.getD_some]

theorem ascii_of_conversion {conversion : Conversion}
    (h : Conversion.ofChar? c = some conversion) : c.toNat < 128 :=
  Decidable.byContradiction fun hc => by
    rw [Conversion.ofChar?_of_wide hc] at h
    cases h

/-- A conversion takes one byte. -/
theorem offset_of_conversion {conversion : Conversion} (h : Conversion.ofChar? c = some conversion)
    (t s : List Char) :
    (Utf8.encode (t ++ c :: s)).length - (Utf8.encode s).length - 1 = (Utf8.encode t).length := by
  rw [Utf8.encode_append, encode_cons_ascii (ascii_of_conversion h), List.length_append,
    List.length_cons]
  omega

/-- Scanning by bytes reads the specification that is read by characters. -/
theorem scanSpec?_eq (s : List Char) :
    scanSpec? s = some ((takeSpec s).map fun read =>
      ({ read.1 with source := [] },
        (Utf8.encode s).length - (Utf8.encode read.2).length - 1)) := by
  -- Each part is scanned from the offset where the part in front of it ends.
  obtain ⟨t₁, hs₁, hflags⟩ := flagBytes_encode s
  rcases hf : takeFlags s with ⟨flags, s₁⟩
  simp only [hf] at hs₁ hflags
  subst hs₁
  obtain ⟨t₂, hs₂, hwidth⟩ := numberBytes_encode s₁
  rcases hn : takeNumber s₁ with ⟨width, s₂⟩
  simp only [hn] at hs₂ hwidth
  subst hs₂
  have hstar := lead_encode (a := '*') (by decide) s₂
  have hp := precisionBytes_encode s₂
  have hdrop := drop_encode (t₁ ++ t₂) s₂
  rw [List.append_assoc] at hdrop
  simp only [takeSpec, scanSpec?, hf, hn, hflags, hwidth, drop_encode, length_encode_append, hdrop]
  by_cases hs : s₂.head? = some '*'
  · rw [if_pos hs, if_pos (hstar.2 hs)]
    rfl
  · rw [if_neg hs, if_neg (mt hstar.1 hs)]
    cases ht : takePrecision s₂ with
    | error e =>
      simp only [ht] at hp
      simp only [hp, Except.map]
    | ok read =>
      obtain ⟨precision, s₃⟩ := read
      simp only [ht] at hp
      obtain ⟨t₃, rfl, hprecision⟩ := hp
      have hsplit : t₁ ++ (t₂ ++ (t₃ ++ s₃)) = (t₁ ++ t₂ ++ t₃) ++ s₃ := by simp
      simp only [hprecision, length_encode_append, hsplit, drop_encode, lengthBytes_encode]
      generalize t₁ ++ t₂ ++ t₃ = u
      rw [conversionAt?_encode]
      have hs₃ := split_lengths u s₃
      rcases hs₄ : s₃.dropWhile isLength with _ | ⟨c, rest⟩
      · rfl
      · rw [hs₄] at hs₃
        cases hconversion : Conversion.ofChar? c with
        | none => simp only [hconversion, Option.map_some, Except.map]
        | some conversion =>
          have hoffset := offset_of_conversion hconversion (u ++ s₃.takeWhile isLength) rest
          simp only [hconversion, Option.map_some, Except.map, hs₃, hoffset]

theorem cut?_behind (hc : c.toNat < 128) (t s : List Char) :
    cut? (t ++ c :: s) ((Utf8.encode t).length + 1) = some (t ++ [c], s) := by
  have hcut := cut?_append (t ++ [c]) s
  have hlength : (Utf8.encode (t ++ [c])).length = (Utf8.encode t).length + 1 := by
    rw [Utf8.encode_append, List.length_append, encode_cons_ascii hc]
    rfl
  rwa [hlength, List.append_assoc, List.singleton_append] at hcut

/-- Behind a specification there is no cut inside a character. -/
theorem cut?_spec {s rest : List Char} {spec : Spec} (h : takeSpec s = .ok (spec, rest)) :
    ∃ source, spec.source = '%' :: source ∧
      cut? s ((Utf8.encode s).length - (Utf8.encode rest).length - 1 + 1) =
        some (source, rest) := by
  obtain ⟨u, w, p, l, c, rfl, hreads⟩ := reads_of_takeSpec h
  refine ⟨u ++ [c], hreads.source, ?_⟩
  rw [offset_of_conversion hreads.conversion]
  exact cut?_behind (ascii_of_conversion hreads.conversion) u rest

theorem escape_of_not_mem {t : List Char} (ht : '%' ∉ t) : escape t = t := by
  induction t with
  | nil => rfl
  | cons c t ih =>
    rw [List.mem_cons, not_or] at ht
    rw [← List.singleton_append, escape_append, escape_singleton (Ne.symm ht.1), ih ht.2]

theorem parseFrom_plain {t : List Char} (ht : '%' ∉ t) (literal s : List Char) :
    parseFrom literal (t ++ s) = parseFrom (t.reverse ++ literal) s := by
  conv_lhs => rw [← escape_of_not_mem ht]
  exact parseFrom_escape t literal s

theorem percent?_of_not_mem {s : List Char} (h : '%' ∉ s) : percent? s = none := if_neg h

theorem percent?_append {t : List Char} (ht : '%' ∉ t) (s : List Char) :
    percent? (t ++ '%' :: s) = some (Utf8.encode t).length := by
  have hplain : ∀ c ∈ t, decide (c ≠ '%') = true := by
    intro c hc
    rw [decide_eq_true_eq]
    rintro rfl
    exact ht hc
  have htake : (t ++ '%' :: s).takeWhile (· ≠ '%') = t := by
    rw [List.takeWhile_append_of_pos hplain]
    simp
  rw [percent?, if_pos (by simp), htake]

/-- Up to the first percent sign and behind it nothing is cut inside a character. -/
theorem scan?_append {t : List Char} (ht : '%' ∉ t) (literal s : List Char) :
    scan? literal (t ++ '%' :: s) =
      match s with
      | [] => some (.ok (consLiteral (literal ++ t ++ ['%']) []))
      | c :: tail =>
        if c = '%' then scan? (literal ++ t ++ ['%']) tail
        else
          match scanSpec? (c :: tail) with
          | none => none
          | some (.error e) => some (.error e)
          | some (.ok (spec, j)) =>
            match cut? (c :: tail) (j + 1) with
            | none => none
            | some (source, rest) =>
              (scan? [] rest).map fun pieces => pieces.map fun ps =>
                consLiteral (literal ++ t) (.spec { spec with source := '%' :: source } :: ps) := by
  have hcut := cut?_append t ('%' :: s)
  have hcut' := cut?_behind (c := '%') (by decide) t s
  rw [scan?]
  simp only [percent?_append ht]
  rw [hcut]
  split
  · rename_i hfront hafter
    cases hfront
    obtain ⟨rfl, rfl⟩ := Prod.mk.inj (Option.some.inj (hcut'.symm.trans hafter))
    rcases s with _ | ⟨c, tail⟩
    · rfl
    · dsimp only
      split
      · rfl
      · rcases scanSpec? (c :: tail) with _ | e | ⟨spec, j⟩
        · rfl
        · rfl
        · dsimp only
          split
          · rename_i hnone
            rw [hnone]
          · rename_i hsome
            rw [hsome]
  · rename_i hnone
    exact absurd hcut' (hnone _ _ _ _ rfl)

/-- No cut is refused, and scanning by offsets parses what is parsed by characters. -/
theorem scan?_eq (literal s : List Char) :
    scan? literal s = some (parseFrom literal.reverse s) := by
  by_cases hmem : '%' ∈ s
  · obtain ⟨t, after, hs, ht⟩ := List.eq_append_cons_of_mem hmem
    have hlt : after.length < s.length := by
      rw [hs, List.length_append, List.length_cons]
      omega
    rw [hs, scan?_append ht, parseFrom_plain ht]
    rcases after with _ | ⟨c, tail⟩
    · rw [parseFrom_lone]
      simp
    have htail : tail.length < s.length := Nat.lt_of_succ_lt hlt
    by_cases hc : c = '%'
    · simp only [hc, if_true, parseFrom_percent, scan?_eq (literal ++ t ++ ['%']) tail]
      simp
    · simp only [if_neg hc, scanSpec?_eq]
      rcases hspec : takeSpec (c :: tail) with e | ⟨spec, rest⟩
      · rw [parseFrom_error hc hspec]
        rfl
      · obtain ⟨source, hsource, hrest⟩ := cut?_spec hspec
        have hless : rest.length < s.length := (takeSpec_source hspec).2.trans hlt
        rw [parseFrom_spec hspec]
        simp only [Except.map, hrest, scan?_eq [] rest, ← hsource]
        simp
  · have hplain := parseFrom_plain hmem literal.reverse []
    rw [List.append_nil] at hplain
    rw [scan?, percent?_of_not_mem hmem, hplain, parseFrom_nil]
    simp
termination_by s.length

end Bytes

/-- Formats and pieces stand for each other. -/
theorem formats_read_back :
    (∀ format ps, parse format = .ok ps →
      Tidy ps ∧ unparse ps = String.ofList (paired format.toList)) ∧
    (∀ ps, parse (unparse ps) = .ok ps ↔ Tidy ps ∧ ∀ spec, .spec spec ∈ ps → spec.Parsed) ∧
    ∀ format, scanFormat? format = some (parse format) := by
  refine ⟨fun format ps h => ?_, fun ps => parse_unparse_iff, fun format => scan?_eq [] _⟩
  have hps := accounts_of_parseFrom h
  refine ⟨hps.tidy, congrArg String.ofList ?_⟩
  simpa using hps.text

/-- A literal with a percent sign, a specification with all its parts, and a percent sign that
stands alone. -/
theorem formats_read_back_lone :
    parse "5%% of %-08.3lld%" = .ok
      [.literal "5% of ".toList,
        .spec ⟨{ left := true, zero := true }, some 8, some 3, .signed, "%-08.3lld".toList⟩,
        .literal ['%']] ∧
    unparse
      [.literal "5% of ".toList,
        .spec ⟨{ left := true, zero := true }, some 8, some 3, .signed, "%-08.3lld".toList⟩,
        .literal ['%']] = "5%% of %-08.3lld%%" := by
  have hparse : parse "5%% of %-08.3lld%" = .ok
      [.literal "5% of ".toList,
        .spec ⟨{ left := true, zero := true }, some 8, some 3, .signed, "%-08.3lld".toList⟩,
        .literal ['%']] := by cbv
  exact ⟨hparse, (formats_read_back.1 _ _ hparse).2.trans (by cbv)⟩

end Yap.Format
