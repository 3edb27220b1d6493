import Aipcs.Manifest.Definition
import Aipcs.Portable.Dumps

/-!
# Data — numbers in a `jsonb` column

`jsonb` keeps a number's decimal value. What was written with an exponent
it gives back in plain digits, so a large float comes back as the text of
an integer, and is read as one. `Below1e16` are the floats that are
written without a positive exponent, and come back as floats.
-/

namespace Aipcs

namespace Data

open Portable Manifest

/-- The float `0.0`. -/
def positiveZero : FiniteFloat := ⟨⟨false, 0, by omega⟩, by decide⟩

/-- A float without the sign of a zero; Python's `==` does not see it. -/
def unsignedZero (x : FiniteFloat) : FiniteFloat := if x.1.bits = 0 then positiveZero else x

theorem unsignedZero_of_ne {x : FiniteFloat} (h : x.1.bits ≠ 0) : unsignedZero x = x := if_neg h

@[simp] theorem unsignedZero_idem (x : FiniteFloat) : unsignedZero (unsignedZero x) = unsignedZero x := by
  by_cases h : x.1.bits = 0
  · simp [unsignedZero, h, positiveZero]
  · rw [unsignedZero_of_ne h, unsignedZero_of_ne h]

/-- The float's magnitude is below `10¹⁶`. -/
def Below1e16 (x : FiniteFloat) : Prop := units x.1.bits < 10 ^ 16 * unit

instance (x : FiniteFloat) : Decidable (Below1e16 x) := Nat.decLt _ _

/-- The literal that `jsonb` gives back for a float. -/
def jsonbLiteral (x : FiniteFloat) : Literal :=
  if x.1.bits = 0 then ⟨false, ['0'], some ['0'], none⟩
  else if -4 < pointOf x.1.bits ∧ pointOf x.1.bits ≤ 16 then reprLiteral x
  else plainLiteral x.1.neg (shortDigits x.1.bits) (pointOf x.1.bits)

theorem jsonbLiteral_wellFormed (x : FiniteFloat) : (jsonbLiteral x).WellFormed := by
  unfold jsonbLiteral
  by_cases h0 : x.1.bits = 0
  · rw [if_pos h0]
    exact ⟨digits_zero, Or.inl rfl, by rintro _ ⟨⟩; exact digits_zero, by rintro _ ⟨⟩⟩
  rw [if_neg h0]
  split_ifs
  · exact reprLiteral_wellFormed x
  · exact plainLiteral_wellFormed digits_shortDigits (shortDigits_head (Nat.pos_of_ne_zero h0))

/-- A `jsonb` document's text, spaces and the order of its names aside. -/
def jsonbStyle : JsonStyle where
  string := encodeString
  float := jsonbLiteral
  scanned := fun s rest => @scanString_encodeString rest s
  wellFormed := jsonbLiteral_wellFormed

/-! ## Where the point stands -/

section point

variable {x : FiniteFloat}

theorem units_ofDecimal_16 : units (ofDecimal 1 16) = 10 ^ 16 * unit := by decide +kernel

theorem pointOf_ofDecimal_16 : pointOf (ofDecimal 1 16) = 17 := by decide +kernel

theorem below1e16_iff_bits : Below1e16 x ↔ x.1.bits < ofDecimal 1 16 := by
  rw [Below1e16, ← units_ofDecimal_16, units_strictMono.lt_iff_lt]

/-- With so many digits before the point, the shortest decimal is that large. -/
theorem le_shortMagnitude (h0 : x.1.bits ≠ 0) (h : 16 < pointOf x.1.bits) (ht : 0 ≤ (shortest x.1.bits).2) :
    10 ^ 16 ≤ shortMagnitude x.1.bits := by
  by_contra hlt
  rw [Nat.not_le] at hlt
  have hpos : 0 < shortMagnitude x.1.bits :=
    Nat.mul_pos (shortest_pos (Nat.pos_of_ne_zero h0)) (ten_pow_pos _)
  have hlen : (natText (shortMagnitude x.1.bits)).length ≤ 16 :=
    (Nat.length_toDigits_le_iff (by omega) (by omega)).2 hlt
  rw [shortMagnitude, natText_mul_pow (shortest_pos (Nat.pos_of_ne_zero h0)), List.length_append,
    List.length_replicate] at hlen
  unfold pointOf shortDigits at h
  omega

/-- **From `10¹⁶` on a float is an integer, and its shortest decimal one too.** -/
theorem shortest_exponent_nonneg (h : ¬ Below1e16 x) : 0 ≤ (shortest x.1.bits).2 := by
  have hle : 2 ^ 52 * unit ≤ units x.1.bits := by
    have hlarge := Nat.not_lt.1 h
    have := Nat.mul_le_mul_right unit (show 2 ^ 52 ≤ 10 ^ 16 by omega)
    omega
  obtain ⟨n, hn⟩ := unit_dvd_of_le hle
  rw [Nat.mul_comm] at hn
  refine shortest_integral (Nat.pos_of_ne_zero fun hzero => ?_) x.2 hn
  rw [hzero, Nat.zero_mul] at hn
  rw [hn] at hle
  have := unit_pos
  omega

/-- **Where a float's point stands says how large it is.** -/
theorem pointOf_le_iff (h0 : x.1.bits ≠ 0) : pointOf x.1.bits ≤ 16 ↔ Below1e16 x := by
  have hpos := Nat.pos_of_ne_zero h0
  have hround := ofDecimal_shortest x.2
  constructor
  · intro hpoint
    by_contra hlarge
    have ht := shortest_exponent_nonneg hlarge
    -- the shortest decimal is below `10¹⁶`, and rounds to no more than that
    have hmag : shortMagnitude x.1.bits < 10 ^ 16 := by
      refine natText_length_le ?_
      rw [shortMagnitude, natText_mul_pow (shortest_pos hpos), List.length_append, List.length_replicate]
      unfold pointOf shortDigits at hpoint
      omega
    rw [below1e16_iff_bits, Nat.not_lt] at hlarge
    rcases Nat.lt_or_eq_of_le hlarge with hlt | heq
    · rw [ofDecimal, show (-(shortest x.1.bits).2).toNat = 0 by omega, pow_zero] at hround
      have hspec := (roundFrac_spec hround x.2).2 hpos
      have hbelow := units_strictMono.monotone (Nat.le_sub_one_of_lt hlt)
      have hself := units_strictMono hlt
      rw [units_ofDecimal_16] at hbelow hself
      have hmul := Nat.mul_lt_mul_of_pos_right hmag unit_pos
      unfold shortMagnitude at hmul
      omega
    · rw [← heq, pointOf_ofDecimal_16] at hpoint
      omega
  · intro hsmall
    by_contra hpoint
    rw [Int.not_le] at hpoint
    rw [below1e16_iff_bits] at hsmall
    have hself := units_strictMono hsmall
    have hnext : units (x.1.bits + 1) ≤ units (ofDecimal 1 16) :=
      units_strictMono.monotone (Nat.succ_le_of_lt hsmall)
    rw [units_ofDecimal_16] at hself hnext
    have hspec := (roundFrac_spec hround x.2).1
    -- the digits, of which so many stand before the point
    have hlow : 10 ^ ((shortDigits x.1.bits).length - 1) ≤ (shortest x.1.bits).1 := by
      by_contra hlt
      rw [Nat.not_le] at hlt
      have hlen := @length_shortDigits_pos x.1.bits
      rcases Nat.eq_zero_or_pos ((shortDigits x.1.bits).length - 1) with hone | hmore
      · rw [hone, pow_zero] at hlt
        have := shortest_pos hpos
        omega
      · have := (Nat.length_toDigits_le_iff (by omega) hmore).2 hlt
        unfold shortDigits natText at *
        omega
    have hscale : 10 ^ 16 * 10 ^ (-(shortest x.1.bits).2).toNat ≤
        (shortest x.1.bits).1 * 10 ^ (shortest x.1.bits).2.toNat := by
      calc 10 ^ 16 * 10 ^ (-(shortest x.1.bits).2).toNat
          = 10 ^ (16 + (-(shortest x.1.bits).2).toNat) := (pow_add ..).symm
        _ ≤ 10 ^ ((shortDigits x.1.bits).length - 1 + (shortest x.1.bits).2.toNat) :=
            Nat.pow_le_pow_right (by omega) (by unfold pointOf at hpoint; omega)
        _ = 10 ^ ((shortDigits x.1.bits).length - 1) * 10 ^ (shortest x.1.bits).2.toNat := pow_add ..
        _ ≤ _ := Nat.mul_le_mul_right _ hlow
    have hmul := Nat.mul_le_mul_right unit hscale
    have hden := ten_pow_pos (-(shortest x.1.bits).2).toNat
    have hbound : (units x.1.bits + units (x.1.bits + 1)) * 10 ^ (-(shortest x.1.bits).2).toNat <
        2 * (10 ^ 16 * unit) * 10 ^ (-(shortest x.1.bits).2).toNat :=
      Nat.mul_lt_mul_of_pos_right (by omega) hden
    have hassoc : 2 * (10 ^ 16 * unit) * 10 ^ (-(shortest x.1.bits).2).toNat =
        2 * (10 ^ 16 * 10 ^ (-(shortest x.1.bits).2).toNat * unit) := by ring
    rw [hassoc] at hbound
    omega

end point

/-! ## What is read back -/

variable {x : FiniteFloat}

/-- A plain literal that starts after the point. -/
theorem plainLiteral_fraction {neg : Bool} {ds : List Char} {point : ℤ} (h : point ≤ 0) :
    (plainLiteral neg ds point).isInteger = false ∧ (plainLiteral neg ds point).neg = neg ∧
      (plainLiteral neg ds point).decimal = (digitsValue ds, point - ds.length) := by
  rw [plainLiteral, if_pos h]
  refine ⟨rfl, rfl, Prod.ext ?_ ?_⟩
  · rw [← digitsValue_zeros_append ds (-point).toNat]
    exact digitsValue_zeros_append _ 1
  · simp only [Literal.decimal, Literal.exponent, Option.elim_none, Option.getD_some, List.length_append,
      List.length_replicate]
    omega

/-- **Below `10¹⁶` a float comes back**, but for the sign of a zero. -/
theorem numberValue_jsonbLiteral (h : Below1e16 x) :
    numberValue (jsonbLiteral x) = some (.float (unsignedZero x).1) := by
  unfold jsonbLiteral
  by_cases h0 : x.1.bits = 0
  · rw [if_pos h0, unsignedZero, if_pos h0]
    exact numberValue_reprLiteral positiveZero
  rw [if_neg h0, unsignedZero_of_ne h0]
  have hpoint := (pointOf_le_iff h0).2 h
  by_cases hfix : -4 < pointOf x.1.bits ∧ pointOf x.1.bits ≤ 16
  · rw [if_pos hfix]
    exact numberValue_reprLiteral x
  · have hlen := @length_shortDigits_pos x.1.bits
    obtain ⟨hint, hneg, hdecimal⟩ :=
      @plainLiteral_fraction x.1.neg (shortDigits x.1.bits) (pointOf x.1.bits) (by omega)
    have hvalue : digitsValue (shortDigits x.1.bits) = (shortest x.1.bits).1 := digitsValue_natText _
    have hexponent : pointOf x.1.bits - (shortDigits x.1.bits).length = (shortest x.1.bits).2 := by
      unfold pointOf
      omega
    have hx : Binary64.ofSignedDecimal x.1.neg (shortest x.1.bits).1 (shortest x.1.bits).2 = x.1 := by
      rw [Binary64.ofSignedDecimal, Binary64.mk.injEq]
      exact ⟨rfl, ofDecimal_shortest x.2⟩
    rw [if_neg hfix, numberValue, hint, if_neg (by simp), hneg, hdecimal, hvalue, hexponent, hx]
    exact if_pos x.2

/-- **From `10¹⁶` on it does not**: it comes back as an integer that is not
exact, if at all. -/
theorem numberValue_jsonbLiteral_large (h : ¬ Below1e16 x) {v : PyVal}
    (hv : numberValue (jsonbLiteral x) = some v) : ∃ i : ℤ, v = .int i ∧ ¬ isExactInteger i := by
  have h0 : x.1.bits ≠ 0 := fun h0 => h (by rw [Below1e16, h0, units_zero]; exact Nat.mul_pos (by omega) unit_pos)
  have hpoint : 16 < pointOf x.1.bits := by
    by_contra hle
    exact h ((pointOf_le_iff h0).1 (by omega))
  have ht := shortest_exponent_nonneg h
  have hlarge := le_shortMagnitude h0 hpoint ht
  have hdigits : digitsValue (shortDigits x.1.bits ++
      List.replicate ((pointOf x.1.bits).toNat - (shortDigits x.1.bits).length) '0') =
      shortMagnitude x.1.bits := by
    rw [digitsValue_append_zeros, shortDigits, digitsValue_natText, shortMagnitude]
    congr 2
    unfold pointOf shortDigits
    omega
  rw [jsonbLiteral, if_neg h0, if_neg (by omega), plainLiteral, if_neg (by omega),
    if_pos (by unfold pointOf; omega), numberValue] at hv
  split_ifs at hv with hint hrange
  · refine ⟨_, (Option.some.inj hv).symm, ?_⟩
    simp only [Literal.integer, hdigits, isExactInteger, IEEE_754_EXACT_INTEGER_MAX]
    split_ifs <;> omega
  · exact absurd rfl hint

/-! ## Values that come back -/

mutual

/-- Every float of the value is below `10¹⁶` in magnitude, and none is `-0.0`. -/
def Kept : PortableJson → Prop
  | .float x => Below1e16 x ∧ unsignedZero x = x
  | .arr items => KeptItems items
  | .obj entries => KeptEntries entries
  | _ => True

def KeptItems : List PortableJson → Prop
  | [] => True
  | v :: rest => Kept v ∧ KeptItems rest

def KeptEntries : List (String × PortableJson) → Prop
  | [] => True
  | (_, v) :: rest => Kept v ∧ KeptEntries rest

end

mutual

/-- **Such a value comes back from `jsonb` as it was.** -/
theorem read_of_kept : ∀ {v : PortableJson}, Kept v → jsonbStyle.read v = some (thawJson v)
  | .null, _ => rfl
  | .bool _, _ => rfl
  | .int _, _ => rfl
  | .float x, h => by
    have hread := numberValue_jsonbLiteral h.1
    rw [h.2] at hread
    exact hread
  | .str _, _ => rfl
  | .arr items, h => by rw [JsonStyle.read, readItems_of_kept (show KeptItems items from h), Option.map_some, thawJson]
  | .obj entries, h => by rw [JsonStyle.read, readEntries_of_kept (show KeptEntries entries from h), Option.map_some, thawJson]

theorem readItems_of_kept : ∀ {items : List PortableJson}, KeptItems items →
    jsonbStyle.readItems items = some (thawItems items)
  | [], _ => rfl
  | v :: rest, h => by rw [JsonStyle.readItems, read_of_kept h.1, readItems_of_kept h.2, thawItems]

theorem readEntries_of_kept : ∀ {entries : List (String × PortableJson)}, KeptEntries entries →
    jsonbStyle.readEntries entries = some (thawEntries entries)
  | [], _ => rfl
  | (_, v) :: rest, h => by rw [JsonStyle.readEntries, read_of_kept h.1, readEntries_of_kept h.2, thawEntries]

end

theorem bits_ofSignedDecimal (neg : Bool) (d : ℕ) (t : ℤ) :
    (Binary64.ofSignedDecimal neg d t).bits = ofDecimal d t := by
  simp only [Binary64.ofSignedDecimal]

/-- The float of an exact integer is kept. -/
theorem kept_of_exact {i : ℤ} (hi : isExactInteger i)
    (hx : x.1 = Binary64.ofSignedDecimal (decide (i < 0)) i.natAbs 0) : Kept (.float x) := by
  have hle : i.natAbs ≤ 2 ^ 53 := by
    obtain ⟨hlow, hhigh⟩ := hi
    rw [IEEE_754_EXACT_INTEGER_MAX] at hlow hhigh
    omega
  obtain ⟨bits, hbits, hunits⟩ := exists_units_eq hle
  have hround : ofDecimal i.natAbs 0 = bits :=
    ofDecimal_int le_rfl (by rw [Int.toNat_zero, pow_zero, Nat.mul_one]) hbits hunits
  have hxbits : x.1.bits = bits := by rw [hx, bits_ofSignedDecimal, hround]
  rw [← hxbits] at hunits
  refine ⟨?_, ?_⟩
  · rw [Below1e16, hunits]
    exact Nat.mul_lt_mul_of_pos_right (by omega) unit_pos
  · by_cases h0 : x.1.bits = 0
    · have hzero : i = 0 := by
        rw [h0, units_zero] at hunits
        have := unit_pos
        rcases Nat.mul_eq_zero.1 hunits.symm with hi0 | hunit <;> omega
      have hneg : x.1.neg = false := by
        rw [hx, hzero]
        rfl
      rw [unsignedZero, if_pos h0]
      obtain ⟨⟨neg, bits, hlt⟩, hfinite⟩ := x
      obtain rfl : neg = false := hneg
      obtain rfl : bits = 0 := h0
      rfl
    · exact unsignedZero_of_ne h0

end Data

end Aipcs
