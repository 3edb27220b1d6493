import Aipcs.Portable.Style

/-!
# Portable — Python's `json.dumps`, read back

`float.__repr__` always has a point or an exponent, so its text is read
as the float it is of: unlike the canonical style, `json.dumps` loses
nothing (`jsonLoads_dumps`). The text of an object is that of its entries
in the order given, which the callers sort.
-/

namespace Aipcs

namespace Portable

/-! ## Floats -/

/-- The literal `float.__repr__` prints. -/
def reprLiteral (x : FiniteFloat) : Literal :=
  let ds := shortDigits x.1.bits
  let point := pointOf x.1.bits
  if x.1.bits = 0 then ⟨x.1.neg, ['0'], some ['0'], none⟩
  else if -4 < point ∧ point ≤ 16 then
    if point ≤ 0 then ⟨x.1.neg, ['0'], some (List.replicate (-point).toNat '0' ++ ds), none⟩
    else if ds.length ≤ point.toNat then
      ⟨x.1.neg, ds ++ List.replicate (point.toNat - ds.length) '0', some ['0'], none⟩
    else ⟨x.1.neg, ds.take point.toNat, some (ds.drop point.toNat), none⟩
  else
    ⟨x.1.neg, ds.take 1, if 1 < ds.length then some (ds.drop 1) else none,
      some (decide (point - 1 < 0), (reprExponent (point - 1)).tail)⟩

/-- The literal is what `repr` prints. -/
theorem reprLiteral_text (x : FiniteFloat) :
    (reprLiteral x).text = (if x.1.neg then ['-'] else []) ++
      if x.1.bits = 0 then ['0', '.', '0'] else pyRepr x.1.bits := by
  unfold reprLiteral
  by_cases h0 : x.1.bits = 0
  · simp [h0, Literal.text, Literal.fracText, Literal.expText]
  rw [if_neg h0, if_neg h0, pyRepr, reprText]
  by_cases hfix : -4 < pointOf x.1.bits ∧ pointOf x.1.bits ≤ 16
  · rw [if_pos hfix, if_pos hfix]
    by_cases hp : pointOf x.1.bits ≤ 0
    · simp [hp, Literal.text, Literal.fracText, Literal.expText]
    · by_cases hl : (shortDigits x.1.bits).length ≤ (pointOf x.1.bits).toNat
      · simp [hp, hl, Literal.text, Literal.fracText, Literal.expText]
      · simp [hp, hl, Literal.text, Literal.fracText, Literal.expText]
  · rw [if_neg hfix, if_neg hfix]
    by_cases h1 : 1 < (shortDigits x.1.bits).length
    · by_cases hneg : pointOf x.1.bits - 1 < 0 <;>
        simp [h1, hneg, Literal.text, Literal.fracText, Literal.expText, reprExponent]
    · by_cases hneg : pointOf x.1.bits - 1 < 0 <;>
        simp [h1, hneg, Literal.text, Literal.fracText, Literal.expText, reprExponent]

theorem digits_zero : Literal.Digits ['0'] := ⟨by simp, by simp [isDigit]⟩

/-- The digits of an exponent, with the zero that pads them. -/
theorem reprExponent_tail (e : ℤ) : Literal.Digits (reprExponent e).tail ∧
    digitsValue (reprExponent e).tail = e.natAbs := by
  have hdigits : Literal.Digits (natText e.natAbs) := ⟨natText_ne_nil _, fun _ => isDigit_of_mem_natText⟩
  rw [reprExponent, List.tail_cons]
  by_cases h : e.natAbs < 10
  · rw [if_pos h]
    exact ⟨digits_zeros_append hdigits 1, (digitsValue_zeros_append _ 1).trans (digitsValue_natText _)⟩
  · rw [if_neg h]
    exact ⟨hdigits, digitsValue_natText _⟩

theorem reprLiteral_wellFormed (x : FiniteFloat) : (reprLiteral x).WellFormed := by
  unfold reprLiteral
  by_cases h0 : x.1.bits = 0
  · rw [if_pos h0]
    exact ⟨digits_zero, Or.inl rfl, by rintro _ ⟨⟩; exact digits_zero, by rintro _ ⟨⟩⟩
  have hds := @digits_shortDigits x.1.bits
  have hhead := shortDigits_head (Nat.pos_of_ne_zero h0)
  rw [if_neg h0]
  by_cases hfix : -4 < pointOf x.1.bits ∧ pointOf x.1.bits ≤ 16
  · rw [if_pos hfix]
    by_cases hp : pointOf x.1.bits ≤ 0
    · rw [if_pos hp]
      exact ⟨digits_zero, Or.inl rfl, by rintro _ ⟨⟩; exact digits_zeros_append hds _, by rintro _ ⟨⟩⟩
    by_cases hl : (shortDigits x.1.bits).length ≤ (pointOf x.1.bits).toNat
    · rw [if_neg hp, if_pos hl]
      refine ⟨digits_append_zeros hds _, Or.inr ?_, by rintro _ ⟨⟩; exact digits_zero, by rintro _ ⟨⟩⟩
      rw [List.head?_append_of_ne_nil _ hds.1]
      exact hhead
    · rw [if_neg hp, if_neg hl]
      exact ⟨digits_take hds (by omega), Or.inr (head_take_ne_zero hhead _),
        by rintro _ ⟨⟩; exact digits_drop hds (by omega), by rintro _ ⟨⟩⟩
  · rw [if_neg hfix]
    refine ⟨digits_take hds (by omega), Or.inr (head_take_ne_zero hhead 1), ?_, ?_⟩
    · intro frac hfrac
      dsimp only at hfrac
      split_ifs at hfrac with h1
      · obtain rfl := Option.mem_some_iff.mp hfrac
        exact digits_drop hds h1
      · exact absurd hfrac (Option.not_mem_none _)
    · rintro _ ⟨⟩
      exact (reprExponent_tail _).1

theorem ofDecimal_decimal {l : Literal} {d : ℕ} {t : ℤ} (hd : digitsValue (l.int ++ l.frac.getD []) = d)
    (ht : l.exponent - (l.frac.getD []).length = t) :
    ofDecimal l.decimal.1 l.decimal.2 = ofDecimal d t := by
  rw [Literal.decimal, hd, ht]

/-- The decimal the literal denotes rounds to the float, and the literal
is not an integer's. -/
theorem reprLiteral_decimal (x : FiniteFloat) : (reprLiteral x).isInteger = false ∧
    (reprLiteral x).neg = x.1.neg ∧
    ofDecimal (reprLiteral x).decimal.1 (reprLiteral x).decimal.2 = x.1.bits := by
  unfold reprLiteral
  by_cases h0 : x.1.bits = 0
  · rw [if_pos h0]
    refine ⟨rfl, rfl, ?_⟩
    have hzero : ofDecimal 0 (-1) = 0 := ofDecimal_of_units (by decide) (by rw [units_zero]; omega)
    rw [h0, ← hzero]
    exact ofDecimal_decimal (by rfl) (by rfl)
  have hround := ofDecimal_shortest x.2
  have hlen := @length_shortDigits_pos x.1.bits
  have hvalue : digitsValue (shortDigits x.1.bits) = (shortest x.1.bits).1 := digitsValue_natText _
  have hpoint : pointOf x.1.bits = (shortDigits x.1.bits).length + (shortest x.1.bits).2 := rfl
  rw [if_neg h0]
  by_cases hfix : -4 < pointOf x.1.bits ∧ pointOf x.1.bits ≤ 16
  · rw [if_pos hfix]
    by_cases hp : pointOf x.1.bits ≤ 0
    · rw [if_pos hp]
      refine ⟨rfl, rfl, (ofDecimal_decimal ?_ ?_).trans hround⟩
      · rw [Option.getD_some, List.singleton_append]
        refine (digitsValue_zeros_append _ 1).trans ((digitsValue_zeros_append _ _).trans hvalue)
      · simp only [Literal.exponent, Option.elim_none, Option.getD_some, List.length_append,
          List.length_replicate]
        omega
    by_cases hl : (shortDigits x.1.bits).length ≤ (pointOf x.1.bits).toNat
    · -- the digits are padded up to the point, and a zero stands after it
      rw [if_neg hp, if_pos hl]
      have hzeros : List.replicate ((pointOf x.1.bits).toNat - (shortDigits x.1.bits).length) '0' ++ ['0']
          = List.replicate ((shortest x.1.bits).2.toNat + 1) '0' := by
        rw [List.replicate_succ', show (pointOf x.1.bits).toNat - (shortDigits x.1.bits).length =
          (shortest x.1.bits).2.toNat by omega]
      refine ⟨rfl, rfl, (ofDecimal_decimal ?_ ?_).trans
        ((ofDecimal_mul_pow _ ((shortest x.1.bits).2.toNat + 1) _).trans hround)⟩
      · rw [Option.getD_some, List.append_assoc, hzeros, digitsValue_append_zeros, hvalue]
      · simp only [Literal.exponent, Option.elim_none, Option.getD_some, List.length_singleton]
        omega
    · rw [if_neg hp, if_neg hl]
      refine ⟨rfl, rfl, (ofDecimal_decimal ?_ ?_).trans hround⟩
      · rw [Option.getD_some, List.take_append_drop, hvalue]
      · simp only [Literal.exponent, Option.elim_none, Option.getD_some, List.length_drop]
        omega
  · rw [if_neg hfix]
    refine ⟨by simp [Literal.isInteger], rfl, (ofDecimal_decimal ?_ ?_).trans hround⟩
    · dsimp only
      split_ifs with h1
      · rw [Option.getD_some, List.take_append_drop, hvalue]
      · rw [Option.getD_none, List.append_nil, List.take_of_length_le (by omega), hvalue]
    · simp only [Literal.exponent, Option.elim_some, (reprExponent_tail _).2, decide_eq_true_eq]
      split_ifs <;> simp only [Option.getD_some, Option.getD_none, List.length_drop, List.length_nil] <;>
        omega

/-- **A float's `repr` is read as the float.** -/
theorem numberValue_reprLiteral (x : FiniteFloat) : numberValue (reprLiteral x) = some (.float x.1) := by
  obtain ⟨hint, hneg, hdecimal⟩ := reprLiteral_decimal x
  have hx : Binary64.ofSignedDecimal (reprLiteral x).neg (reprLiteral x).decimal.1
      (reprLiteral x).decimal.2 = x.1 := by
    rw [Binary64.ofSignedDecimal, Binary64.mk.injEq]
    exact ⟨hneg, hdecimal⟩
  rw [numberValue, hint, if_neg (by simp)]
  simp only [hx]
  exact if_pos x.2

/-! ## Dumps -/

/-- The style of `json.dumps(..., ensure_ascii=False, separators=(",", ":"))`. -/
def dumpsStyle : JsonStyle where
  string := encodeString
  float := reprLiteral
  scanned := fun s rest => @scanString_encodeString rest s
  wellFormed := reprLiteral_wellFormed

/-- `json.dumps(value, ensure_ascii=False, separators=(",", ":"), sort_keys=True)`,
of a value whose keys are sorted. -/
def dumps (v : PortableJson) : List Char := dumpsStyle.print v

/-- A style that spells its floats so that they are read back. -/
def JsonStyle.Lossless (style : JsonStyle) : Prop := ∀ x, numberValue (style.float x) = some (.float x.1)

theorem dumpsStyle_lossless : dumpsStyle.Lossless := numberValue_reprLiteral

mutual

/-- A lossless style loses nothing. -/
theorem JsonStyle.Lossless.read {style : JsonStyle} (h : style.Lossless) :
    ∀ v : PortableJson, style.read v = some (thawJson v)
  | .null => rfl
  | .bool _ => rfl
  | .int _ => rfl
  | .float x => h x
  | .str _ => rfl
  | .arr items => by rw [JsonStyle.read, JsonStyle.Lossless.readItems h items]; rfl
  | .obj entries => by rw [JsonStyle.read, JsonStyle.Lossless.readEntries h entries]; rfl

theorem JsonStyle.Lossless.readItems {style : JsonStyle} (h : style.Lossless) :
    ∀ items : List PortableJson, style.readItems items = some (thawItems items)
  | [] => rfl
  | v :: rest => by
    rw [JsonStyle.readItems, JsonStyle.Lossless.read h v, JsonStyle.Lossless.readItems h rest]
    rfl

theorem JsonStyle.Lossless.readEntries {style : JsonStyle} (h : style.Lossless) :
    ∀ entries : List (String × PortableJson), style.readEntries entries = some (thawEntries entries)
  | [] => rfl
  | (name, v) :: rest => by
    rw [JsonStyle.readEntries, JsonStyle.Lossless.read h v, JsonStyle.Lossless.readEntries h rest]
    rfl

end

/-- **`json.loads` of what `json.dumps` printed.** -/
theorem jsonLoads_dumps {v : PortableJson} (hv : v.Distinct) : jsonLoads (dumps v) = some (thawJson v) := by
  exact (JsonStyle.jsonLoads_print hv).trans (dumpsStyle_lossless.read v)

end Portable

end Aipcs
