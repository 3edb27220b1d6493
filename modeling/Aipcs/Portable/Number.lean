import Aipcs.Common.NumberLiteral
import Aipcs.Portable.Value

/-!
# Portable — canonical numbers

`encodeBinary64` prints a float by taking Python's `repr` apart and
putting its digits together again without a trailing `.0`, without an
exponent between `10⁻⁶` and `10²¹`, and without padding in the exponent.
`encodeBinary64_eq_text` says what comes out: one literal, the digits of
the shortest decimal with the point moved. `numberValue` is what the
reading side makes of a literal: an integer where there is neither point
nor exponent, a correctly rounded float otherwise. The two meet in
`numberValue_canonicalLiteral`: a float comes back as itself, unless its
canonical spelling is an integer's (`spelledInteger`), and then the
integer spelled comes back instead.
-/

namespace Aipcs

namespace Portable

/-! ## Python's number texts -/

/-- `str` of an integer. -/
def intText (i : ℤ) : List Char := if i < 0 then '-' :: natText i.natAbs else natText i.natAbs

/-- `int` of an optionally signed digit string. -/
def pyInt : List Char → ℤ
  | '-' :: ds => -(digitsValue ds : ℤ)
  | '+' :: ds => digitsValue ds
  | ds => digitsValue ds

/-- The exponent of a `repr`: signed, and padded to two digits. -/
def reprExponent (e : ℤ) : List Char :=
  (if e < 0 then '-' else '+') ::
    (if e.natAbs < 10 then '0' :: natText e.natAbs else natText e.natAbs)

/-- The layout of a `repr`, from its digits and the place of the point. -/
def reprText (ds : List Char) (point : ℤ) : List Char :=
  if -4 < point ∧ point ≤ 16 then
    if point ≤ 0 then '0' :: '.' :: (List.replicate (-point).toNat '0' ++ ds)
    else if ds.length ≤ point.toNat then
      ds ++ List.replicate (point.toNat - ds.length) '0' ++ ['.', '0']
    else ds.take point.toNat ++ '.' :: ds.drop point.toNat
  else
    ds.take 1 ++ (if 1 < ds.length then '.' :: ds.drop 1 else []) ++ 'e' :: reprExponent (point - 1)

/-- The digits of the shortest decimal. -/
def shortDigits (bits : ℕ) : List Char := natText (shortest bits).1

/-- Where the decimal point stands, counted from the first digit. -/
def pointOf (bits : ℕ) : ℤ := (shortDigits bits).length + (shortest bits).2

/-- `repr` of a positive finite float. -/
def pyRepr (bits : ℕ) : List Char := reprText (shortDigits bits) (pointOf bits)

/-- `_encode_binary64`. -/
def encodeBinary64 (x : FiniteFloat) : List Char :=
  if x.1.bits = 0 then ['0']
  else
    let raw := pyRepr x.1.bits
    let sign := if x.1.neg then ['-'] else []
    if 'e' ∉ raw then
      sign ++ (if ['.', '0'] <:+ raw then raw.take (raw.length - 2) else raw)
    else
      let mantissa := raw.takeWhile (· ≠ 'e')
      let exponent := pyInt ((raw.dropWhile (· ≠ 'e')).drop 1)
      let digits := mantissa.filter (· ≠ '.')
      if ofDecimal 1 (-6) ≤ x.1.bits ∧ x.1.bits < ofDecimal 1 21 then
        let position := exponent + 1
        let body :=
          if position ≤ 0 then '0' :: '.' :: (List.replicate (-position).toNat '0' ++ digits)
          else if digits.length ≤ position.toNat then
            digits ++ List.replicate (position.toNat - digits.length) '0'
          else digits.take position.toNat ++ '.' :: digits.drop position.toNat
        sign ++ body
      else
        let scientific := digits.take 1 ++ (if 1 < digits.length then '.' :: digits.drop 1 else [])
        let rendered := (if 0 ≤ exponent then ['+'] else []) ++ intText exponent
        sign ++ scientific ++ 'e' :: rendered

/-! ## What is printed -/

/-- The digits with the point in its place, padded with zeros. -/
def plainLiteral (neg : Bool) (ds : List Char) (point : ℤ) : Literal :=
  if point ≤ 0 then ⟨neg, ['0'], some (List.replicate (-point).toNat '0' ++ ds), none⟩
  else if ds.length ≤ point.toNat then
    ⟨neg, ds ++ List.replicate (point.toNat - ds.length) '0', none, none⟩
  else ⟨neg, ds.take point.toNat, some (ds.drop point.toNat), none⟩

/-- One digit before the point, and an exponent. -/
def scientificLiteral (neg : Bool) (ds : List Char) (point : ℤ) : Literal :=
  ⟨neg, ds.take 1, if 1 < ds.length then some (ds.drop 1) else none,
    some (decide (point - 1 < 0), natText (point - 1).natAbs)⟩

/-- Is the float printed without an exponent? -/
def printedPlain (bits : ℕ) : Prop :=
  (-4 < pointOf bits ∧ pointOf bits ≤ 16) ∨ (ofDecimal 1 (-6) ≤ bits ∧ bits < ofDecimal 1 21)

instance (bits : ℕ) : Decidable (printedPlain bits) := inferInstanceAs (Decidable (_ ∨ _))

/-- The literal a finite float is printed as. -/
def canonicalLiteral (x : FiniteFloat) : Literal :=
  if x.1.bits = 0 then ⟨false, ['0'], none, none⟩
  else if printedPlain x.1.bits then
    plainLiteral x.1.neg (shortDigits x.1.bits) (pointOf x.1.bits)
  else scientificLiteral x.1.neg (shortDigits x.1.bits) (pointOf x.1.bits)

section Layout

variable {ds : List Char} {point : ℤ}

theorem digit_ne {c : Char} (h : isDigit c = true) : c ≠ 'e' ∧ c ≠ '.' ∧ c ≠ '-' ∧ c ≠ '+' := by
  refine ⟨?_, ?_, ?_, ?_⟩ <;> rintro rfl <;> exact absurd h (by decide)

theorem filter_point (hds : ∀ c ∈ ds, isDigit c = true) : ds.filter (· ≠ '.') = ds :=
  List.filter_eq_self.mpr fun c hc => decide_eq_true (digit_ne (hds c hc)).2.1

theorem plainLiteral_text (neg : Bool) :
    (plainLiteral neg ds point).text = (if neg then ['-'] else []) ++
      (if point ≤ 0 then '0' :: '.' :: (List.replicate (-point).toNat '0' ++ ds)
      else if ds.length ≤ point.toNat then ds ++ List.replicate (point.toNat - ds.length) '0'
      else ds.take point.toNat ++ '.' :: ds.drop point.toNat) := by
  unfold plainLiteral
  by_cases hp : point ≤ 0
  · simp [hp, Literal.text, Literal.fracText, Literal.expText]
  · by_cases hl : ds.length ≤ point.toNat
    · simp [hp, hl, Literal.text, Literal.fracText, Literal.expText]
    · simp [hp, hl, Literal.text, Literal.fracText, Literal.expText]

theorem scientificLiteral_text (neg : Bool) :
    (scientificLiteral neg ds point).text = (if neg then ['-'] else []) ++
      (ds.take 1 ++ (if 1 < ds.length then '.' :: ds.drop 1 else [])) ++
      'e' :: ((if 0 ≤ point - 1 then ['+'] else []) ++ intText (point - 1)) := by
  have hexp : (if decide (point - 1 < 0) = true then '-' else '+') :: natText (point - 1).natAbs
      = (if 0 ≤ point - 1 then ['+'] else []) ++ intText (point - 1) := by
    by_cases h : point - 1 < 0
    · rw [if_pos (decide_eq_true h), if_neg (by omega), intText, if_pos h, List.nil_append]
    · rw [if_neg (by simpa using h), if_pos (by omega), intText, if_neg h, List.singleton_append]
  unfold scientificLiteral
  simp only [Literal.text, Literal.fracText, Literal.expText, Option.elim_some, hexp]
  by_cases h : 1 < ds.length
  · simp [h]
  · simp [h]

theorem e_notMem_of_digits (hds : ∀ c ∈ ds, isDigit c = true) : 'e' ∉ ds := fun h =>
  (digit_ne (hds _ h)).1 rfl

/-- Taking the trailing `.0` off a `repr` without an exponent leaves the
plain layout: only padded digits end in `.0`. -/
theorem trimmed_repr (hds : ∀ c ∈ ds, isDigit c = true) (hlast : point < ds.length →
    ds.getLast? ≠ some '0') (hfix : -4 < point ∧ point ≤ 16) (hne : ds ≠ []) :
    'e' ∉ reprText ds point ∧
      (if ['.', '0'] <:+ reprText ds point then
        (reprText ds point).take ((reprText ds point).length - 2) else reprText ds point) =
      (if point ≤ 0 then '0' :: '.' :: (List.replicate (-point).toNat '0' ++ ds)
      else if ds.length ≤ point.toNat then ds ++ List.replicate (point.toNat - ds.length) '0'
      else ds.take point.toNat ++ '.' :: ds.drop point.toNat) := by
  have hlen : 0 < ds.length := List.length_pos_iff.mpr hne
  have hsuffix : ∀ front : List Char, ∀ back : List Char, back ≠ [] →
      back.getLast? ≠ some '0' → ¬ ['.', '0'] <:+ front ++ back := by
    rintro front back hb hl ⟨init, hinit⟩
    have h0 : (front ++ back).getLast? = some '0' := by
      rw [← hinit, List.getLast?_append]; rfl
    rw [List.getLast?_append_of_ne_nil _ hb] at h0
    exact hl h0
  have he := e_notMem_of_digits hds
  rw [reprText, if_pos hfix]
  by_cases hp : point ≤ 0
  · rw [if_pos hp, if_pos hp]
    have hns : ¬ ['.', '0'] <:+ '0' :: '.' :: (List.replicate (-point).toNat '0' ++ ds) :=
      hsuffix ('0' :: '.' :: List.replicate (-point).toNat '0') ds hne (hlast (by omega))
    rw [if_neg hns]
    exact ⟨by simp [he], rfl⟩
  · rw [if_neg hp, if_neg hp]
    by_cases hl : ds.length ≤ point.toNat
    · rw [if_pos hl, if_pos hl, if_pos (List.suffix_append _ _)]
      refine ⟨by simp [he], ?_⟩
      rw [List.length_append, show ['.', '0'].length = 2 from rfl, Nat.add_sub_cancel,
        List.take_left']
      rfl
    · rw [if_neg hl, if_neg hl]
      have hdrop : ds.drop point.toNat ≠ [] := by
        rw [Ne, List.drop_eq_nil_iff]; omega
      have hgl : (ds.drop point.toNat).getLast? ≠ some '0' := by
        rw [List.getLast?_drop, if_neg (by omega)]
        exact hlast (by omega)
      have hns : ¬ ['.', '0'] <:+ ds.take point.toNat ++ '.' :: ds.drop point.toNat := by
        have h := hsuffix (ds.take point.toNat ++ ['.']) _ hdrop hgl
        rwa [List.append_assoc, List.singleton_append] at h
      rw [if_neg hns]
      refine ⟨?_, rfl⟩
      simp only [List.mem_append, List.mem_cons, not_or]
      exact ⟨fun h => he (List.mem_of_mem_take h), by decide, fun h => he (List.mem_of_mem_drop h)⟩

/-- The `repr` with an exponent comes apart into its digits and the
exponent. -/
theorem parted_repr (hds : ∀ c ∈ ds, isDigit c = true) (hfix : ¬ (-4 < point ∧ point ≤ 16)) :
    'e' ∈ reprText ds point ∧
      ((reprText ds point).takeWhile (· ≠ 'e')).filter (· ≠ '.') = ds ∧
      pyInt (((reprText ds point).dropWhile (· ≠ 'e')).drop 1) = point - 1 := by
  have he := e_notMem_of_digits hds
  have hmantissa : ∀ c ∈ ds.take 1 ++ (if 1 < ds.length then '.' :: ds.drop 1 else []),
      (decide (c ≠ 'e')) = true := by
    intro c hc
    refine decide_eq_true ?_
    rintro rfl
    rcases List.mem_append.mp hc with h | h
    · exact he (List.mem_of_mem_take h)
    · split_ifs at h with h1
      · rcases List.mem_cons.mp h with h | h
        · exact absurd h (by decide)
        · exact he (List.mem_of_mem_drop h)
      · exact absurd h List.not_mem_nil
  rw [reprText, if_neg hfix]
  refine ⟨by simp, ?_, ?_⟩
  · rw [List.takeWhile_append_of_pos hmantissa, List.takeWhile_cons_of_neg (by decide),
      List.append_nil, List.filter_append,
      filter_point fun c hc => hds c (List.mem_of_mem_take hc)]
    by_cases h1 : 1 < ds.length
    · rw [if_pos h1, List.filter_cons_of_neg (by decide),
        filter_point fun c hc => hds c (List.mem_of_mem_drop hc), List.take_append_drop]
    · rw [if_neg h1, List.filter_nil, List.append_nil, List.take_of_length_le (by omega)]
  · rw [List.dropWhile_append_of_pos hmantissa, List.dropWhile_cons_of_neg (by decide),
      List.drop_one, List.tail_cons, reprExponent]
    have hpad : ∀ n : ℕ, digitsValue ('0' :: natText n) = n := fun n =>
      (digitsValue_zeros_append (natText n) 1).trans (digitsValue_natText n)
    by_cases hneg : point - 1 < 0
    · rw [if_pos hneg, pyInt]
      split_ifs
      · rw [hpad]; omega
      · rw [digitsValue_natText]; omega
    · rw [if_neg hneg, pyInt]
      split_ifs
      · rw [hpad]; omega
      · rw [digitsValue_natText]; omega

end Layout

/-! ## The encoder prints the literal -/

section Printed

variable {bits : ℕ}

theorem isDigit_of_mem_shortDigits {c : Char} (h : c ∈ shortDigits bits) : isDigit c = true :=
  isDigit_of_mem_natText h

theorem shortDigits_ne_nil : shortDigits bits ≠ [] := natText_ne_nil _

theorem length_shortDigits_pos : 0 < (shortDigits bits).length :=
  List.length_pos_iff.mpr shortDigits_ne_nil

/-- The last digit spells the remainder. -/
theorem natText_getLast (n : ℕ) : (natText n).getLast? = some (n % 10).digitChar := by
  rcases Nat.lt_or_ge n 10 with h | h
  · rw [natText, Nat.toDigits_of_lt_base h, Nat.mod_eq_of_lt h]; rfl
  · rw [natText, Nat.toDigits_of_base_le (by omega) h, List.getLast?_append]; rfl

theorem digitChar_ne_zero {n : ℕ} (h0 : n ≠ 0) (hn : n < 10) : n.digitChar ≠ '0' := by
  interval_cases n <;> first | exact absurd rfl h0 | decide

/-- Digits after the point do not end in a zero. -/
theorem shortDigits_last (hpos : 0 < bits) (hbits : bits < infBits)
    (h : pointOf bits < (shortDigits bits).length) :
    (shortDigits bits).getLast? ≠ some '0' := by
  have hmod : (shortest bits).1 % 10 ≠ 0 :=
    shortest_no_trailing_zero hpos hbits (by unfold pointOf at h; omega)
  rw [shortDigits, natText_getLast, Ne, Option.some.injEq]
  exact digitChar_ne_zero hmod (Nat.mod_lt _ (by omega))

/-- **The encoder prints one literal.** -/
theorem encodeBinary64_eq_text (x : FiniteFloat) : encodeBinary64 x = (canonicalLiteral x).text := by
  unfold encodeBinary64 canonicalLiteral
  by_cases h0 : x.1.bits = 0
  · rw [if_pos h0, if_pos h0]; rfl
  rw [if_neg h0, if_neg h0]
  have hds : ∀ c ∈ shortDigits x.1.bits, isDigit c = true := fun c => isDigit_of_mem_shortDigits
  by_cases hfix : -4 < pointOf x.1.bits ∧ pointOf x.1.bits ≤ 16
  · obtain ⟨he, htrim⟩ := trimmed_repr hds (shortDigits_last (Nat.pos_of_ne_zero h0) x.2) hfix
      shortDigits_ne_nil
    rw [if_pos (show printedPlain x.1.bits from Or.inl hfix), plainLiteral_text, ← htrim, pyRepr,
      if_pos he]
  · obtain ⟨he, hdigits, hexp⟩ := parted_repr hds hfix
    simp only [pyRepr, not_not.mpr he, if_false, hdigits, hexp, Int.sub_add_cancel]
    by_cases hplain : ofDecimal 1 (-6) ≤ x.1.bits ∧ x.1.bits < ofDecimal 1 21
    · rw [if_pos hplain, if_pos (show printedPlain x.1.bits from Or.inr hplain), plainLiteral_text]
    · rw [if_neg hplain, if_neg (show ¬ printedPlain x.1.bits from fun h => h.elim hfix hplain),
        scientificLiteral_text]

/-! ## The literal is well formed -/

theorem digits_shortDigits : Literal.Digits (shortDigits bits) :=
  ⟨shortDigits_ne_nil, fun _ => isDigit_of_mem_shortDigits⟩

theorem digits_append_zeros {ds : List Char} (h : Literal.Digits ds) (k : ℕ) :
    Literal.Digits (ds ++ List.replicate k '0') := by
  refine ⟨by simp [h.1], fun c hc => ?_⟩
  rcases List.mem_append.mp hc with hc | hc
  · exact h.2 c hc
  · rw [List.eq_of_mem_replicate hc]; rfl

theorem digits_zeros_append {ds : List Char} (h : Literal.Digits ds) (k : ℕ) :
    Literal.Digits (List.replicate k '0' ++ ds) := by
  refine ⟨by simp [h.1], fun c hc => ?_⟩
  rcases List.mem_append.mp hc with hc | hc
  · rw [List.eq_of_mem_replicate hc]; rfl
  · exact h.2 c hc

theorem digits_take {ds : List Char} (h : Literal.Digits ds) {n : ℕ} (hn : 0 < n) :
    Literal.Digits (ds.take n) := by
  refine ⟨?_, fun c hc => h.2 c (List.mem_of_mem_take hc)⟩
  rw [Ne, List.take_eq_nil_iff]
  rintro (rfl | hnil)
  · omega
  · exact h.1 hnil

theorem digits_drop {ds : List Char} (h : Literal.Digits ds) {n : ℕ} (hn : n < ds.length) :
    Literal.Digits (ds.drop n) := by
  refine ⟨?_, fun c hc => h.2 c (List.mem_of_mem_drop hc)⟩
  rw [Ne, List.drop_eq_nil_iff]
  omega

theorem head_take_ne_zero {ds : List Char} (h : ds.head? ≠ some '0') (n : ℕ) :
    (ds.take n).head? ≠ some '0' := by
  cases n with
  | zero => simp
  | succ n => cases ds with
    | nil => simp
    | cons c ds => simpa using h

theorem shortDigits_head (hpos : 0 < bits) : (shortDigits bits).head? ≠ some '0' := by
  obtain ⟨c, rest, h, -, hc⟩ := natText_head (shortest_pos hpos)
  rw [shortDigits, h]
  simpa using hc

theorem plainLiteral_wellFormed {neg : Bool} {ds : List Char} {point : ℤ} (h : Literal.Digits ds)
    (hhead : ds.head? ≠ some '0') : (plainLiteral neg ds point).WellFormed := by
  have hzero : Literal.Digits ['0'] := ⟨by simp, by simp [isDigit]⟩
  unfold plainLiteral
  by_cases hp : point ≤ 0
  · rw [if_pos hp]
    exact ⟨hzero, Or.inl rfl, by rintro _ ⟨⟩; exact digits_zeros_append h _, by rintro _ ⟨⟩⟩
  by_cases hl : ds.length ≤ point.toNat
  · rw [if_neg hp, if_pos hl]
    refine ⟨digits_append_zeros h _, Or.inr ?_, by rintro _ ⟨⟩, by rintro _ ⟨⟩⟩
    rw [List.head?_append_of_ne_nil _ h.1]
    exact hhead
  · rw [if_neg hp, if_neg hl]
    exact ⟨digits_take h (by omega), Or.inr (head_take_ne_zero hhead _),
      by rintro _ ⟨⟩; exact digits_drop h (by omega), by rintro _ ⟨⟩⟩

theorem scientificLiteral_wellFormed {neg : Bool} {ds : List Char} {point : ℤ}
    (h : Literal.Digits ds) (hhead : ds.head? ≠ some '0') :
    (scientificLiteral neg ds point).WellFormed := by
  refine ⟨digits_take h (by omega), Or.inr (head_take_ne_zero hhead 1), ?_, ?_⟩
  · intro frac hfrac
    simp only [scientificLiteral] at hfrac
    split_ifs at hfrac with h1
    · obtain rfl := Option.mem_some_iff.mp hfrac
      exact digits_drop h h1
    · exact absurd hfrac (Option.not_mem_none _)
  · rintro _ ⟨⟩
    exact ⟨natText_ne_nil _, fun c => isDigit_of_mem_natText⟩

theorem canonicalLiteral_wellFormed (x : FiniteFloat) : (canonicalLiteral x).WellFormed := by
  unfold canonicalLiteral
  by_cases h0 : x.1.bits = 0
  · rw [if_pos h0]
    exact ⟨⟨by simp, by simp [isDigit]⟩, Or.inl rfl, by rintro _ ⟨⟩, by rintro _ ⟨⟩⟩
  have hhead := shortDigits_head (Nat.pos_of_ne_zero h0)
  rw [if_neg h0]
  split_ifs
  · exact plainLiteral_wellFormed digits_shortDigits hhead
  · exact scientificLiteral_wellFormed digits_shortDigits hhead

end Printed

/-! ## What is read -/

/-- `integer` and `number`: the hooks the decoder gives the number scanner. -/
def numberValue (l : Literal) : Option PyVal :=
  if l.isInteger then
    if -2 ^ 63 ≤ l.integer ∧ l.integer ≤ 2 ^ 63 - 1 then some (.int l.integer) else none
  else
    let x := Binary64.ofSignedDecimal l.neg l.decimal.1 l.decimal.2
    if x.Finite then some (.float x) else none

/-- The digits of the shortest decimal with its zeros, as an integer. -/
def shortMagnitude (bits : ℕ) : ℕ := (shortest bits).1 * 10 ^ (shortest bits).2.toNat

/-- The integer that a float's canonical text spells, where it does. -/
def spelledInteger (x : FiniteFloat) : Option ℤ :=
  if x.1.bits = 0 then some 0
  else if printedPlain x.1.bits ∧ 0 ≤ (shortest x.1.bits).2 then
    some (if x.1.neg then -(shortMagnitude x.1.bits : ℤ) else shortMagnitude x.1.bits)
  else none

/-- The literal an integer is printed as. -/
def intLiteral (i : ℤ) : Literal := ⟨decide (i < 0), natText i.natAbs, none, none⟩

theorem intLiteral_text (i : ℤ) : (intLiteral i).text = intText i := by
  unfold intLiteral intText Literal.text Literal.fracText Literal.expText
  by_cases h : i < 0 <;> simp [h]

theorem intLiteral_wellFormed (i : ℤ) : (intLiteral i).WellFormed := by
  refine ⟨⟨natText_ne_nil _, fun c => isDigit_of_mem_natText⟩, ?_, by rintro _ ⟨⟩, by rintro _ ⟨⟩⟩
  rcases Nat.eq_zero_or_pos i.natAbs with h | h
  · exact Or.inl (by rw [intLiteral, h]; rfl)
  · obtain ⟨c, rest, htext, -, hc⟩ := natText_head h
    refine Or.inr ?_
    rw [intLiteral, htext]
    simpa using hc

@[simp] theorem intLiteral_isInteger (i : ℤ) : (intLiteral i).isInteger = true := rfl

@[simp] theorem intLiteral_integer (i : ℤ) : (intLiteral i).integer = i := by
  unfold intLiteral Literal.integer
  by_cases h : i < 0
  · simp only [h, decide_true, if_true, digitsValue_natText]; omega
  · simp only [h, decide_false, Bool.false_eq_true, if_false, digitsValue_natText]; omega

theorem numberValue_intLiteral (i : Signed64) : numberValue (intLiteral i.1) = some (.int i.1) := by
  rw [numberValue, if_pos (intLiteral_isInteger _), intLiteral_integer, if_pos i.2]

/-- A float printed as an integer is printed as that integer is. -/
theorem canonicalLiteral_of_spelled {x : FiniteFloat} {i : ℤ} (h : spelledInteger x = some i) :
    canonicalLiteral x = intLiteral i := by
  unfold spelledInteger at h
  unfold canonicalLiteral
  by_cases h0 : x.1.bits = 0
  · rw [if_pos h0] at h ⊢
    obtain rfl := Option.some.inj h
    rfl
  rw [if_neg h0] at h ⊢
  by_cases hspelled : printedPlain x.1.bits ∧ 0 ≤ (shortest x.1.bits).2
  · obtain ⟨hplain, ht⟩ := hspelled
    have hpos := shortest_pos (Nat.pos_of_ne_zero h0)
    have hlen : (shortDigits x.1.bits).length ≤ (pointOf x.1.bits).toNat := by
      unfold pointOf; omega
    have hk : (pointOf x.1.bits).toNat - (shortDigits x.1.bits).length
        = (shortest x.1.bits).2.toNat := by unfold pointOf; omega
    have hp : ¬ pointOf x.1.bits ≤ 0 := by
      have := @length_shortDigits_pos x.1.bits
      unfold pointOf; omega
    have hn : 0 < shortMagnitude x.1.bits := Nat.mul_pos hpos (ten_pow_pos _)
    have hdigits : shortDigits x.1.bits ++ List.replicate (shortest x.1.bits).2.toNat '0'
        = natText (shortMagnitude x.1.bits) := (natText_mul_pow hpos _).symm
    rw [if_pos ⟨hplain, ht⟩] at h
    obtain rfl := Option.some.inj h
    rw [if_pos hplain, plainLiteral, if_neg hp, if_pos hlen, hk, hdigits, intLiteral]
    cases x.1.neg with
    | true =>
      rw [if_pos rfl, Int.natAbs_neg, Int.natAbs_natCast, decide_eq_true (by omega)]
    | false =>
      rw [if_neg (by simp), Int.natAbs_natCast, decide_eq_false (by omega)]
  · rw [if_neg hspelled] at h
    exact absurd h (by simp)

/-- A float not printed as an integer is printed as a decimal that
rounds back to it. -/
theorem canonicalLiteral_of_unspelled {x : FiniteFloat} (h : spelledInteger x = none) :
    (canonicalLiteral x).isInteger = false ∧ (canonicalLiteral x).neg = x.1.neg ∧
      (canonicalLiteral x).decimal = shortest x.1.bits := by
  unfold spelledInteger at h
  unfold canonicalLiteral
  by_cases h0 : x.1.bits = 0
  · rw [if_pos h0] at h
    exact absurd h (by simp)
  rw [if_neg h0] at h ⊢
  have hlen := @length_shortDigits_pos x.1.bits
  have hvalue : digitsValue (shortDigits x.1.bits) = (shortest x.1.bits).1 := digitsValue_natText _
  have hpoint : pointOf x.1.bits = (shortDigits x.1.bits).length + (shortest x.1.bits).2 := rfl
  by_cases hplain : printedPlain x.1.bits
  · have ht : (shortest x.1.bits).2 < 0 := by
      by_contra ht
      rw [if_pos ⟨hplain, by omega⟩] at h
      exact absurd h (by simp)
    rw [if_pos hplain, plainLiteral]
    by_cases hp : pointOf x.1.bits ≤ 0
    · rw [if_pos hp]
      refine ⟨rfl, rfl, Prod.ext ?_ ?_⟩
      · rw [← hvalue, ← digitsValue_zeros_append _ (-pointOf x.1.bits).toNat]
        exact digitsValue_zeros_append _ 1
      · simp only [Literal.decimal, Literal.exponent, Option.elim_none, Option.getD_some,
          List.length_append, List.length_replicate]
        omega
    · rw [if_neg hp, if_neg (by omega)]
      refine ⟨rfl, rfl, Prod.ext ?_ ?_⟩
      · simp only [Literal.decimal, Option.getD_some, List.take_append_drop]
        exact hvalue
      · simp only [Literal.decimal, Literal.exponent, Option.elim_none, Option.getD_some,
          List.length_drop]
        omega
  · rw [if_neg hplain]
    have hexponent : (scientificLiteral x.1.neg (shortDigits x.1.bits) (pointOf x.1.bits)).exponent
        = pointOf x.1.bits - 1 := by
      simp only [scientificLiteral, Literal.exponent, Option.elim_some, digitsValue_natText,
        decide_eq_true_eq]
      split_ifs <;> omega
    refine ⟨by simp [scientificLiteral, Literal.isInteger], rfl, Prod.ext ?_ ?_⟩
    · simp only [Literal.decimal, scientificLiteral]
      split_ifs with h1
      · rw [Option.getD_some, List.take_append_drop, hvalue]
      · rw [Option.getD_none, List.append_nil, List.take_of_length_le (by omega), hvalue]
    · simp only [Literal.decimal, hexponent]
      simp only [scientificLiteral]
      split_ifs with h1
      · rw [Option.getD_some, List.length_drop]; omega
      · rw [Option.getD_none, List.length_nil]; omega

/-- **What a printed float is read as**: the integer its text spells, if
it is in range, and otherwise the float. -/
theorem numberValue_canonicalLiteral (x : FiniteFloat) :
    numberValue (canonicalLiteral x) = match spelledInteger x with
      | some i => if -2 ^ 63 ≤ i ∧ i ≤ 2 ^ 63 - 1 then some (.int i) else none
      | none => some (.float x.1) := by
  cases h : spelledInteger x with
  | some i =>
    rw [canonicalLiteral_of_spelled h, numberValue, if_pos (intLiteral_isInteger _),
      intLiteral_integer]
  | none =>
    obtain ⟨hint, hneg, hdecimal⟩ := canonicalLiteral_of_unspelled h
    have hx : Binary64.ofSignedDecimal x.1.neg (shortest x.1.bits).1 (shortest x.1.bits).2 = x.1 := by
      have hround := ofDecimal_shortest x.2
      obtain ⟨⟨neg, bits, hlt⟩, hfin⟩ := x
      simpa only [Binary64.ofSignedDecimal, Binary64.mk.injEq, true_and] using hround
    rw [numberValue, hint, if_neg (by simp), hneg, hdecimal, hx]
    exact if_pos x.2

/-! ## Which floats are spelled as integers -/

theorem units_ofDecimal_21 : units (ofDecimal 1 21) = 10 ^ 21 * unit := by decide +kernel

theorem units_one : units (1023 * 2 ^ 52) = unit := by decide +kernel

theorem ofDecimal_millionth : ofDecimal 1 (-6) ≤ 1023 * 2 ^ 52 := by decide +kernel

theorem natText_length_le {n k : ℕ} (h : (natText n).length ≤ k) : n < 10 ^ k := by
  rcases Nat.eq_zero_or_pos n with rfl | hpos
  · exact ten_pow_pos k
  · exact (Nat.length_toDigits_le_iff (by omega) (by
      have := List.length_pos_iff.mpr (natText_ne_nil n)
      omega)).mp h

/-- **A nonzero float is spelled as an integer exactly when it is one,
below 10²¹.** -/
theorem spelled_iff {x : FiniteFloat} (h0 : x.1.bits ≠ 0) :
    (printedPlain x.1.bits ∧ 0 ≤ (shortest x.1.bits).2) ↔
      unit ∣ units x.1.bits ∧ units x.1.bits < 10 ^ 21 * unit := by
  have hround := ofDecimal_shortest x.2
  have hpos : 0 < units x.1.bits := units_zero ▸ units_strictMono (Nat.pos_of_ne_zero h0)
  have hlt21 : units x.1.bits < 10 ^ 21 * unit ↔ x.1.bits < ofDecimal 1 21 := by
    rw [← units_ofDecimal_21, units_strictMono.lt_iff_lt]
  constructor
  · rintro ⟨hplain, ht⟩
    refine ⟨unit_dvd_of_ofDecimal ht x.2 hround, ?_⟩
    rcases hplain with ⟨-, hpoint⟩ | ⟨-, hlt⟩
    · -- at most 16 digits before the point
      have hle := units_le_two_mul ht x.2 hround
      have hdigits := natText_mul_pow (shortest_pos (Nat.pos_of_ne_zero h0))
        (shortest x.1.bits).2.toNat
      have hshort : (shortest x.1.bits).1 * 10 ^ (shortest x.1.bits).2.toNat < 10 ^ 16 := by
        refine natText_length_le ?_
        rw [hdigits, List.length_append, List.length_replicate]
        unfold pointOf shortDigits at hpoint
        omega
      have hmul := Nat.mul_lt_mul_of_pos_right hshort unit_pos
      calc units x.1.bits ≤ 2 * (_ * unit) := hle
        _ < 2 * (10 ^ 16 * unit) := by omega
        _ ≤ 10 ^ 21 * unit := by omega
    · exact hlt21.mpr hlt
  · rintro ⟨⟨n, hn⟩, hlt⟩
    rw [Nat.mul_comm] at hn
    have hnpos : 0 < n := Nat.pos_of_ne_zero fun h => by rw [hn, h] at hpos; omega
    refine ⟨Or.inr ⟨ofDecimal_millionth.trans ?_, hlt21.mp hlt⟩, shortest_integral hnpos x.2 hn⟩
    rw [← units_strictMono.le_iff_le, units_one, hn]
    exact Nat.le_mul_of_pos_left _ hnpos

end Portable

end Aipcs
