import Aipcs.Common.Binary64
import Mathlib.Data.List.TakeWhile
import Mathlib.Data.List.Basic
import Mathlib.Tactic.IntervalCases

/-!
# Number literals — the numbers of JSON text

A JSON number is an optional minus sign, an integer part without
leading zeros, and optionally a fraction and an exponent. `Literal` is
the literal taken apart, `Literal.text` its spelling and `scanNumber`
the scanner, which takes the longest literal it can. `scanNumber_text`
is the rule the readers use: a well-formed literal is scanned back
whenever what follows cannot extend it. `Literal.decimal` is the
decimal `d · 10ᵗ` a literal denotes.
-/

namespace Aipcs

/-! ## Digits -/

/-- An ASCII decimal digit. -/
def isDigit (c : Char) : Bool := '0' ≤ c && c ≤ '9'

theorem isDigit_eq (c : Char) : isDigit c = c.isDigit := rfl

/-- The decimal digits of a natural number. -/
def natText (n : ℕ) : List Char := Nat.toDigits 10 n

/-- The number a string of digits spells. -/
def digitsValue (ds : List Char) : ℕ := Nat.ofDigitChars 10 ds 0

@[simp] theorem digitsValue_natText (n : ℕ) : digitsValue (natText n) = n :=
  Nat.ofDigitChars_ten_toDigits

theorem isDigit_of_mem_natText {n : ℕ} {c : Char} (h : c ∈ natText n) : isDigit c = true :=
  Nat.isDigit_of_mem_toDigits (by omega) (by omega) h

theorem natText_ne_nil (n : ℕ) : natText n ≠ [] := Nat.toDigits_ne_nil

/-- Zeros after the digits multiply the number they spell. -/
theorem digitsValue_append_zeros (ds : List Char) (k : ℕ) :
    digitsValue (ds ++ List.replicate k '0') = digitsValue ds * 10 ^ k := by
  rw [digitsValue, Nat.ofDigitChars_append, Nat.ofDigitChars_replicate_zero, digitsValue,
    Nat.mul_comm]

/-- Zeros before the digits do not. -/
theorem digitsValue_zeros_append (ds : List Char) (k : ℕ) :
    digitsValue (List.replicate k '0' ++ ds) = digitsValue ds := by
  rw [digitsValue, Nat.ofDigitChars_append, Nat.ofDigitChars_replicate_zero, Nat.mul_zero,
    digitsValue]

/-- Appending zeros to a positive number's digits spells a multiple. -/
theorem natText_mul_pow {n : ℕ} (hn : 0 < n) (k : ℕ) :
    natText (n * 10 ^ k) = natText n ++ List.replicate k '0' := by
  induction k with
  | zero => simp
  | succ k ih =>
    have hpos : 0 < n * 10 ^ k := Nat.mul_pos hn (ten_pow_pos k)
    have hstep := Nat.toDigits_append_toDigits (b := 10) (n := n * 10 ^ k) (d := 0) (by omega) hpos
      (by omega)
    rw [Nat.toDigits_zero, Nat.add_zero] at hstep
    rw [List.replicate_succ', ← List.append_assoc, ← ih, pow_succ, ← Nat.mul_assoc,
      Nat.mul_comm _ 10]
    exact hstep.symm

/-- A positive number's digits do not start with a zero. -/
theorem natText_head {n : ℕ} (hn : 0 < n) : ∃ c rest, natText n = c :: rest ∧ isDigit c = true ∧ c ≠ '0' := by
  induction n using Nat.strongRecOn with
  | ind n ih =>
    rcases Nat.lt_or_ge n 10 with hlt | hge
    · refine ⟨n.digitChar, [], Nat.toDigits_of_lt_base hlt, ?_, ?_⟩
      · exact isDigit_of_mem_natText (n := n) (by rw [natText, Nat.toDigits_of_lt_base hlt]; simp)
      · interval_cases n <;> decide
    · obtain ⟨c, rest, h, hd, h0⟩ := ih (n / 10) (by omega) (by omega)
      refine ⟨c, rest ++ [(n % 10).digitChar], ?_, hd, h0⟩
      rw [natText, Nat.toDigits_of_base_le (by omega) hge, ← natText, h, List.cons_append]

/-! ## Literals -/

/-- A number literal taken apart. The exponent keeps its sign as a flag;
a positive one is spelled with a plus. -/
structure Literal where
  neg : Bool
  int : List Char
  frac : Option (List Char)
  exp : Option (Bool × List Char)
deriving DecidableEq

namespace Literal

def fracText (l : Literal) : List Char := l.frac.elim [] fun ds => '.' :: ds

def expText (l : Literal) : List Char :=
  l.exp.elim [] fun e => 'e' :: (if e.1 then '-' else '+') :: e.2

/-- The spelling of a literal. -/
def text (l : Literal) : List Char :=
  (if l.neg then ['-'] else []) ++ l.int ++ l.fracText ++ l.expText

/-- A nonempty run of digits. -/
def Digits (ds : List Char) : Prop := ds ≠ [] ∧ ∀ c ∈ ds, isDigit c = true

/-- The literals the grammar admits: the integer part is a zero or does
not start with one. -/
structure WellFormed (l : Literal) : Prop where
  int : Digits l.int
  noLeadingZero : l.int = ['0'] ∨ l.int.head? ≠ some '0'
  frac : ∀ ds ∈ l.frac, Digits ds
  exp : ∀ e ∈ l.exp, Digits e.2

/-- Neither a fraction nor an exponent: the literal is read as an integer. -/
def isInteger (l : Literal) : Bool := l.frac.isNone && l.exp.isNone

/-- The integer a literal without fraction and exponent spells. -/
def integer (l : Literal) : ℤ := if l.neg then -(digitsValue l.int : ℤ) else digitsValue l.int

/-- The signed exponent. -/
def exponent (l : Literal) : ℤ :=
  l.exp.elim 0 fun e => if e.1 then -(digitsValue e.2 : ℤ) else digitsValue e.2

/-- The decimal `d · 10ᵗ` of the magnitude. -/
def decimal (l : Literal) : ℕ × ℤ :=
  (digitsValue (l.int ++ l.frac.getD []), l.exponent - (l.frac.getD []).length)

/-- The characters of a literal's text. -/
theorem mem_text {l : Literal} (hl : l.WellFormed) {c : Char} (hc : c ∈ l.text) :
    isDigit c = true ∨ c = '-' ∨ c = '+' ∨ c = '.' ∨ c = 'e' := by
  rw [text, List.mem_append, List.mem_append, List.mem_append] at hc
  rcases hc with ((hc | hc) | hc) | hc
  · split_ifs at hc
    · exact Or.inr (Or.inl (List.mem_singleton.mp hc))
    · exact absurd hc List.not_mem_nil
  · exact Or.inl (hl.int.2 c hc)
  · unfold fracText at hc
    cases hfrac : l.frac with
    | none => rw [hfrac] at hc; exact absurd hc List.not_mem_nil
    | some ds =>
      rw [hfrac, Option.elim_some] at hc
      rcases List.mem_cons.mp hc with rfl | hc
      · simp
      · exact Or.inl ((hl.frac ds hfrac).2 c hc)
  · unfold expText at hc
    cases hexp : l.exp with
    | none => rw [hexp] at hc; exact absurd hc List.not_mem_nil
    | some e =>
      rw [hexp, Option.elim_some] at hc
      rcases List.mem_cons.mp hc with rfl | hc
      · simp
      rcases List.mem_cons.mp hc with rfl | hc
      · split_ifs <;> simp
      · exact Or.inl ((hl.exp e hexp).2 c hc)

end Literal

/-! ## Scanning -/

/-- The integer part: a zero, or a digit that is not and those after it. -/
def scanInt : List Char → Option (List Char × List Char)
  | [] => none
  | c :: rest =>
    if c = '0' then some (['0'], rest)
    else if isDigit c then some (c :: rest.takeWhile isDigit, rest.dropWhile isDigit)
    else none

/-- The fraction, if a digit follows the point. -/
def scanFrac (input : List Char) : Option (List Char) × List Char :=
  match input with
  | '.' :: rest =>
    if rest.takeWhile isDigit = [] then (none, input)
    else (some (rest.takeWhile isDigit), rest.dropWhile isDigit)
  | _ => (none, input)

/-- The digits of an exponent, if there are any. -/
def scanExpDigits (neg : Bool) (input rest : List Char) : Option (Bool × List Char) × List Char :=
  if rest.takeWhile isDigit = [] then (none, input)
  else (some (neg, rest.takeWhile isDigit), rest.dropWhile isDigit)

/-- The exponent, if a digit follows its mark and sign. -/
def scanExp (input : List Char) : Option (Bool × List Char) × List Char :=
  match input with
  | c :: rest =>
    if c = 'e' ∨ c = 'E' then
      match rest with
      | '+' :: more => scanExpDigits false input more
      | '-' :: more => scanExpDigits true input more
      | _ => scanExpDigits false input rest
    else (none, input)
  | [] => (none, input)

/-- The number scanner: the longest literal at the front of the input. -/
def scanNumber (input : List Char) : Option (Literal × List Char) :=
  let neg := input.head? = some '-'
  let unsigned := if neg then input.drop 1 else input
  match scanInt unsigned with
  | none => none
  | some (int, rest) =>
    let (frac, rest) := scanFrac rest
    let (exp, rest) := scanExp rest
    some (⟨neg, int, frac, exp⟩, rest)

/-- What follows a number and cannot extend it. -/
def EndsNumber (rest : List Char) : Prop :=
  ∀ c ∈ rest.head?, isDigit c = false ∧ c ≠ '.' ∧ c ≠ 'e' ∧ c ≠ 'E'

/-- A digit run ends where the input's next character is no digit. -/
def EndsDigits (rest : List Char) : Prop := ∀ c ∈ rest.head?, isDigit c = false

theorem EndsNumber.endsDigits {rest : List Char} (h : EndsNumber rest) : EndsDigits rest :=
  fun c hc => (h c hc).1

theorem takeWhile_digits {ds rest : List Char} (hds : ∀ c ∈ ds, isDigit c = true)
    (hrest : EndsDigits rest) : (ds ++ rest).takeWhile isDigit = ds := by
  rw [List.takeWhile_append_of_pos hds]
  cases rest with
  | nil => simp
  | cons c rest => rw [List.takeWhile_cons_of_neg (by simp [hrest c (by simp)]), List.append_nil]

theorem dropWhile_digits {ds rest : List Char} (hds : ∀ c ∈ ds, isDigit c = true)
    (hrest : EndsDigits rest) : (ds ++ rest).dropWhile isDigit = rest := by
  rw [List.dropWhile_append_of_pos hds]
  cases rest with
  | nil => simp
  | cons c rest => rw [List.dropWhile_cons_of_neg (by simp [hrest c (by simp)])]

theorem scanInt_append {ds rest : List Char} (hds : Literal.Digits ds)
    (hzero : ds = ['0'] ∨ ds.head? ≠ some '0') (hrest : EndsDigits rest) :
    scanInt (ds ++ rest) = some (ds, rest) := by
  obtain ⟨hne, hall⟩ := hds
  cases ds with
  | nil => exact absurd rfl hne
  | cons c ds =>
    rw [List.cons_append, scanInt]
    by_cases hc : c = '0'
    · rcases hzero with h | h
      · obtain ⟨-, rfl⟩ := List.cons.inj h
        rw [if_pos hc, List.nil_append, hc]
      · exact absurd (by rw [List.head?_cons, hc]) h
    · have hds : ∀ c ∈ ds, isDigit c = true := fun c h => hall c (List.mem_cons_of_mem _ h)
      rw [if_neg hc, if_pos (hall c List.mem_cons_self), takeWhile_digits hds hrest,
        dropWhile_digits hds hrest]

theorem scanFrac_append {frac : Option (List Char)} {rest : List Char}
    (hfrac : ∀ ds ∈ frac, Literal.Digits ds) (hrest : EndsDigits rest)
    (hdot : rest.head? ≠ some '.') :
    scanFrac (frac.elim [] (fun ds => '.' :: ds) ++ rest) = (frac, rest) := by
  cases frac with
  | none =>
    cases rest with
    | nil => rfl
    | cons c rest =>
      have hc : c ≠ '.' := fun h => hdot (by rw [h, List.head?_cons])
      rw [Option.elim_none, List.nil_append, scanFrac]
      rintro rest' ⟨⟩
      exact hc rfl
  | some ds =>
    obtain ⟨hne, hall⟩ := hfrac ds rfl
    rw [Option.elim_some, List.cons_append, scanFrac, takeWhile_digits hall hrest,
      dropWhile_digits hall hrest, if_neg hne]

theorem scanExp_append {exp : Option (Bool × List Char)} {rest : List Char}
    (hexp : ∀ e ∈ exp, Literal.Digits e.2) (hrest : EndsNumber rest) :
    scanExp (exp.elim [] (fun e => 'e' :: (if e.1 then '-' else '+') :: e.2) ++ rest)
      = (exp, rest) := by
  cases exp with
  | none =>
    cases rest with
    | nil => rfl
    | cons c rest =>
      obtain ⟨-, -, h1, h2⟩ := hrest c (by simp)
      simp [scanExp, h1, h2]
  | some e =>
    obtain ⟨neg, ds⟩ := e
    obtain ⟨hne, hall⟩ := hexp _ rfl
    cases neg with
    | true =>
      simp only [Option.elim_some, if_true, List.cons_append, scanExp, true_or]
      rw [scanExpDigits, takeWhile_digits hall hrest.endsDigits,
        dropWhile_digits hall hrest.endsDigits, if_neg hne]
    | false =>
      simp only [Option.elim_some, Bool.false_eq_true, if_false, List.cons_append, scanExp, true_or,
        if_true]
      rw [scanExpDigits, takeWhile_digits hall hrest.endsDigits,
        dropWhile_digits hall hrest.endsDigits, if_neg hne]

theorem endsDigits_fracText {l : Literal} {rest : List Char} (hrest : EndsDigits rest) :
    EndsDigits (l.fracText ++ rest) := by
  unfold Literal.fracText
  cases l.frac with
  | none => exact hrest
  | some ds => intro c hc; simp at hc; subst hc; decide

theorem endsDigits_expText {l : Literal} {rest : List Char} (hrest : EndsNumber rest) :
    EndsDigits (l.expText ++ rest) ∧ (l.expText ++ rest).head? ≠ some '.' := by
  unfold Literal.expText
  cases l.exp with
  | none =>
    refine ⟨hrest.endsDigits, fun h => ?_⟩
    exact (hrest '.' (by simpa using h)).2.1 rfl
  | some e => exact ⟨by intro c hc; simp at hc; subst hc; decide, by simp⟩

/-- **A literal is scanned back**, whenever what follows cannot extend it. -/
theorem scanNumber_text {l : Literal} (hl : l.WellFormed) {rest : List Char}
    (hrest : EndsNumber rest) : scanNumber (l.text ++ rest) = some (l, rest) := by
  obtain ⟨hexpD, hexpDot⟩ := endsDigits_expText (l := l) hrest
  have hint := scanInt_append hl.int hl.noLeadingZero (endsDigits_fracText (l := l) hexpD)
  have hfrac : scanFrac (l.fracText ++ (l.expText ++ rest)) = (l.frac, l.expText ++ rest) :=
    scanFrac_append hl.frac hexpD hexpDot
  have hexp : scanExp (l.expText ++ rest) = (l.exp, rest) := scanExp_append hl.exp hrest
  obtain ⟨neg, int, frac, exp⟩ := l
  obtain ⟨c, ds, rfl⟩ : ∃ c ds, int = c :: ds := List.exists_cons_of_ne_nil hl.int.1
  have hc : c ≠ '-' := by
    rintro rfl
    exact absurd (hl.int.2 '-' (by simp)) (by decide)
  simp only [Literal.text, List.append_assoc] at *
  cases neg with
  | true =>
    simp only [if_true, List.singleton_append, scanNumber, List.head?_cons, List.drop_one,
      List.tail_cons, decide_true, hint, hfrac, hexp]
  | false =>
    simp only [Bool.false_eq_true, if_false, List.nil_append, scanNumber, List.cons_append,
      List.head?_cons, Option.some.injEq, hc, decide_false]
    rw [← List.cons_append]
    simp only [hint, hfrac, hexp]

end Aipcs
