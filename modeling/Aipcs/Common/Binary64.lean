import Mathlib.Data.Nat.Log
import Mathlib.Tactic.Ring
import Mathlib.Tactic.Linarith
import Mathlib.Order.Monotone.Basic

/-!
# Binary64 — values, correct rounding and the shortest decimal

A binary64 value is its sign bit and its 63 remaining bits, read as one
natural number. Every finite value is a whole number of units of
`2⁻¹⁰⁷⁴`, and `units` says how many: it is strictly increasing in the
bits (`units_strictMono`), so rounding is a search among natural
numbers and needs no exponent arithmetic. `roundFrac` rounds the
fraction `num / den` to nearest, ties to even, and `shortest` searches
the decimals `d · 10ᵗ` downward in `t` for the first that rounds back.

What the rest of the development uses of it is `roundFrac_of_units`
(a representable fraction rounds to itself), `ofDecimal_shortest` (the
shortest decimal reads back as the value it was printed from) and
`ofDecimal_eq_of_le` (below `2⁵³` an integer reads back as itself and
nothing else does).
-/

namespace Aipcs

/-! ## Magnitudes -/

/-- The magnitude `bits` of a finite value, in units of `2⁻¹⁰⁷⁴`: a
subnormal's fraction, or a normal's significand shifted by its
exponent. -/
def units (bits : ℕ) : ℕ :=
  if bits / 2 ^ 52 = 0 then bits % 2 ^ 52
  else (2 ^ 52 + bits % 2 ^ 52) * 2 ^ (bits / 2 ^ 52 - 1)

/-- The exponent of the unit: values are multiples of `2⁻¹⁰⁷⁴`. -/
@[irreducible] def depth : ℕ := 1074

/-- The number of units in one. -/
def unit : ℕ := 2 ^ depth

theorem unit_pos : 0 < unit := Nat.two_pow_pos _

/-- The bits of the infinities; below them every magnitude is finite. -/
def infBits : ℕ := 2047 * 2 ^ 52

theorem units_parts {e f : ℕ} (hf : f < 2 ^ 52) :
    units ((e + 1) * 2 ^ 52 + f) = (2 ^ 52 + f) * 2 ^ e := by
  have hdiv : ((e + 1) * 2 ^ 52 + f) / 2 ^ 52 = e + 1 := by omega
  have hmod : ((e + 1) * 2 ^ 52 + f) % 2 ^ 52 = f := by omega
  rw [units, hdiv, hmod, if_neg (by omega), Nat.add_sub_cancel]

theorem units_subnormal {f : ℕ} (hf : f < 2 ^ 52) : units f = f := by
  rw [units, if_pos (by omega), Nat.mod_eq_of_lt hf]

/-- The next bit pattern is the next value: within an exponent the
significand grows by one, and from the last significand of an exponent
the next one starts above it. -/
theorem units_lt_succ (bits : ℕ) : units bits < units (bits + 1) := by
  obtain ⟨e, f, hf, rfl⟩ : ∃ e f, f < 2 ^ 52 ∧ bits = e * 2 ^ 52 + f :=
    ⟨bits / 2 ^ 52, bits % 2 ^ 52, by omega, by omega⟩
  cases e with
  | zero =>
    rw [Nat.zero_mul, Nat.zero_add, units_subnormal hf]
    rcases Nat.lt_or_ge (f + 1) (2 ^ 52) with h | h
    · rw [units_subnormal h]; omega
    · have : f + 1 = (0 + 1) * 2 ^ 52 + 0 := by omega
      rw [this, units_parts (by omega)]; omega
  | succ e =>
    rw [units_parts hf]
    rcases Nat.lt_or_ge (f + 1) (2 ^ 52) with h | h
    · rw [Nat.add_assoc, units_parts h]
      exact Nat.mul_lt_mul_of_pos_right (by omega) (Nat.two_pow_pos _)
    · have : (e + 1) * 2 ^ 52 + f + 1 = (e + 1 + 1) * 2 ^ 52 + 0 := by omega
      rw [this, units_parts (by omega), pow_succ 2 e]
      have hpos : 0 < 2 ^ e := Nat.two_pow_pos _
      nlinarith

theorem units_strictMono : StrictMono units := strictMono_nat_of_lt_succ units_lt_succ

theorem units_zero : units 0 = 0 := units_subnormal (by omega)

/-! ## Correct rounding -/

/-- Does the value at `bits` lie at or below the fraction `num / den`? -/
def atMost (num den bits : ℕ) : Prop := units bits * den ≤ num * unit

instance (num den bits : ℕ) : Decidable (atMost num den bits) := Nat.decLe _ _

/-- The search for the largest magnitude at or below `num / den`, one
bit at a time from bit `k - 1` down. -/
def floorBits (num den : ℕ) : ℕ → ℕ → ℕ
  | 0, lo => lo
  | k + 1, lo =>
    if atMost num den (lo + 2 ^ k) then floorBits num den k (lo + 2 ^ k)
    else floorBits num den k lo

/-- The fraction `num / den` rounded to nearest, ties to even: the bits
of a magnitude, `infBits` on overflow. -/
def roundFrac (num den : ℕ) : ℕ :=
  if atMost num den infBits then infBits
  else
    let lo := floorBits num den 63 0
    let mid := (units lo + units (lo + 1)) * den
    if 2 * (num * unit) < mid then lo
    else if mid < 2 * (num * unit) then lo + 1
    else if lo % 2 = 0 then lo else lo + 1

theorem atMost_of_le {num den a b : ℕ} (hab : a ≤ b) (h : atMost num den b) :
    atMost num den a :=
  le_trans (Nat.mul_le_mul_right _ (units_strictMono.monotone hab)) h

/-- **The search brackets the fraction.** Each step keeps the fraction
between the values at `lo` and at `lo + 2ᵏ`. -/
theorem floorBits_spec {num den : ℕ} : ∀ k lo, atMost num den lo →
    ¬ atMost num den (lo + 2 ^ k) →
    atMost num den (floorBits num den k lo) ∧ ¬ atMost num den (floorBits num den k lo + 1) := by
  intro k
  induction k with
  | zero => intro lo hlo hhi; exact ⟨hlo, hhi⟩
  | succ k ih =>
    intro lo hlo hhi
    rw [floorBits]
    by_cases hmid : atMost num den (lo + 2 ^ k)
    · rw [if_pos hmid]
      refine ih _ hmid ?_
      rwa [Nat.add_assoc, ← Nat.two_mul, ← pow_succ']
    · rw [if_neg hmid]
      exact ih _ hlo hmid

theorem floorBits_root {num den : ℕ} (hinf : ¬ atMost num den infBits) :
    atMost num den (floorBits num den 63 0) ∧ ¬ atMost num den (floorBits num den 63 0 + 1) := by
  refine floorBits_spec 63 0 ?_ fun h => hinf (atMost_of_le (by unfold infBits; omega) h)
  rw [atMost, units_zero, Nat.zero_mul]
  exact Nat.zero_le _

/-- Two bit patterns bracketing one fraction are the same. -/
theorem bracket_unique {num den a b : ℕ} (ha : atMost num den a) (ha' : ¬ atMost num den (a + 1))
    (hb : atMost num den b) (hb' : ¬ atMost num den (b + 1)) : a = b := by
  rcases Nat.lt_trichotomy a b with h | h | h
  · exact absurd (atMost_of_le (by omega) hb) ha'
  · exact h
  · exact absurd (atMost_of_le (by omega) ha) hb'

/-- **A representable fraction rounds to itself.** -/
theorem roundFrac_of_units {num den bits : ℕ} (hden : 0 < den) (hbits : bits < infBits)
    (h : units bits * den = num * unit) : roundFrac num den = bits := by
  have hlt : ∀ c, bits < c → ¬ atMost num den c := by
    intro c hc hle
    rw [atMost, ← h] at hle
    exact absurd (Nat.le_of_mul_le_mul_right hle hden) (not_le.mpr (units_strictMono hc))
  have hinf := hlt infBits hbits
  obtain ⟨h1, h2⟩ := floorBits_root hinf
  have hlo : floorBits num den 63 0 = bits :=
    bracket_unique h1 h2 (le_of_eq h) (hlt _ (Nat.lt_succ_self _))
  rw [roundFrac, if_neg hinf]
  simp only [hlo]
  have hmid : 2 * (num * unit) < (units bits + units (bits + 1)) * den := by
    rw [← h]
    have := Nat.mul_lt_mul_of_pos_right (units_lt_succ bits) hden
    rw [Nat.add_mul]
    omega
  rw [if_pos hmid]

/-- **Where a fraction rounds, it is within half a step**: at or below
the midpoint with the next value, at or above the one with the previous. -/
theorem roundFrac_spec {num den r : ℕ} (h : roundFrac num den = r) (hr : r < infBits) :
    2 * (num * unit) ≤ (units r + units (r + 1)) * den ∧
      (0 < r → (units (r - 1) + units r) * den ≤ 2 * (num * unit)) := by
  by_cases hinf : atMost num den infBits
  · rw [roundFrac, if_pos hinf] at h; omega
  obtain ⟨h1, h2⟩ := floorBits_root hinf
  rw [roundFrac, if_neg hinf] at h
  set lo := floorBits num den 63 0 with hlo
  simp only [atMost, not_le] at h1 h2
  have below : 2 * (num * unit) ≤ (units lo + units (lo + 1)) * den → lo = r →
      2 * (num * unit) ≤ (units r + units (r + 1)) * den ∧
        (0 < r → (units (r - 1) + units r) * den ≤ 2 * (num * unit)) := by
    rintro hmid rfl
    refine ⟨hmid, fun hpos => ?_⟩
    have hprev : units (lo - 1) * den ≤ units lo * den :=
      Nat.mul_le_mul_right _ (units_strictMono.monotone (by omega))
    rw [Nat.add_mul]
    omega
  have above : (units lo + units (lo + 1)) * den ≤ 2 * (num * unit) → lo + 1 = r →
      2 * (num * unit) ≤ (units r + units (r + 1)) * den ∧
        (0 < r → (units (r - 1) + units r) * den ≤ 2 * (num * unit)) := by
    rintro hmid rfl
    have hnext : units (lo + 1) * den ≤ units (lo + 1 + 1) * den :=
      Nat.mul_le_mul_right _ (units_strictMono.monotone (by omega))
    refine ⟨?_, fun _ => by rwa [Nat.add_sub_cancel]⟩
    rw [Nat.add_mul]
    omega
  rcases Nat.lt_trichotomy (2 * (num * unit)) ((units lo + units (lo + 1)) * den) with hc | hc | hc
  · rw [if_pos hc] at h
    exact below (le_of_lt hc) h
  · rw [if_neg (by omega), if_neg (by omega)] at h
    by_cases hpar : lo % 2 = 0
    · rw [if_pos hpar] at h; exact below (le_of_eq hc) h
    · rw [if_neg hpar] at h; exact above (le_of_eq hc.symm) h
  · rw [if_neg (by omega), if_pos hc] at h
    exact above (le_of_lt hc) h

section Congr

variable {num den num' den' : ℕ}

theorem le_mul_congr (hden : 0 < den) (hden' : 0 < den') (h : num * den' = num' * den) (a c : ℕ) :
    a * den ≤ num * c ↔ a * den' ≤ num' * c := by
  constructor
  · intro hle
    refine Nat.le_of_mul_le_mul_right ?_ hden
    calc a * den' * den = a * den * den' := by ring
      _ ≤ num * c * den' := Nat.mul_le_mul_right _ hle
      _ = num * den' * c := by ring
      _ = num' * c * den := by rw [h]; ring
  · intro hle
    refine Nat.le_of_mul_le_mul_right ?_ hden'
    calc a * den * den' = a * den' * den := by ring
      _ ≤ num' * c * den := Nat.mul_le_mul_right _ hle
      _ = num' * den * c := by ring
      _ = num * c * den' := by rw [← h]; ring

theorem floorBits_congr (hden : 0 < den) (hden' : 0 < den') (h : num * den' = num' * den) :
    ∀ k lo, floorBits num den k lo = floorBits num' den' k lo := by
  intro k
  induction k with
  | zero => intro lo; rfl
  | succ k ih =>
    intro lo
    have hiff : atMost num den (lo + 2 ^ k) ↔ atMost num' den' (lo + 2 ^ k) :=
      le_mul_congr hden hden' h _ _
    rw [floorBits, floorBits, ih, ih]
    simp only [hiff]

/-- **Rounding reads the fraction, not its spelling.** -/
theorem roundFrac_congr (hden : 0 < den) (hden' : 0 < den') (h : num * den' = num' * den) :
    roundFrac num den = roundFrac num' den' := by
  have hinf : atMost num den infBits ↔ atMost num' den' infBits := le_mul_congr hden hden' h _ _
  have hle : ∀ m, m * den ≤ 2 * (num * unit) ↔ m * den' ≤ 2 * (num' * unit) := by
    intro m
    have := le_mul_congr hden hden' h m (2 * unit)
    rwa [Nat.mul_left_comm, Nat.mul_left_comm num' 2 unit] at this
  have hge : ∀ m, 2 * (num * unit) ≤ m * den ↔ 2 * (num' * unit) ≤ m * den' := by
    intro m
    constructor
    · intro hm
      refine Nat.le_of_mul_le_mul_right ?_ hden
      calc 2 * (num' * unit) * den = 2 * unit * (num' * den) := by ring
        _ = 2 * (num * unit) * den' := by rw [← h]; ring
        _ ≤ m * den * den' := Nat.mul_le_mul_right _ hm
        _ = m * den' * den := by ring
    · intro hm
      refine Nat.le_of_mul_le_mul_right ?_ hden'
      calc 2 * (num * unit) * den' = 2 * unit * (num * den') := by ring
        _ = 2 * (num' * unit) * den := by rw [h]; ring
        _ ≤ m * den' * den := Nat.mul_le_mul_right _ hm
        _ = m * den * den' := by ring
  unfold roundFrac
  simp only [hinf, floorBits_congr hden hden' h, ← not_le, hle, hge]

end Congr

/-! ## Decimals -/

/-- The magnitude the decimal `d · 10ᵗ` rounds to. -/
def ofDecimal (d : ℕ) (t : ℤ) : ℕ := roundFrac (d * 10 ^ t.toNat) (10 ^ (-t).toNat)

theorem ten_pow_pos (n : ℕ) : 0 < 10 ^ n := Nat.pow_pos (by omega)

/-- Trailing zeros move between the digits and the exponent. -/
theorem ofDecimal_mul_pow (d k : ℕ) (t : ℤ) : ofDecimal (d * 10 ^ k) (t - k) = ofDecimal d t := by
  refine roundFrac_congr (ten_pow_pos _) (ten_pow_pos _) ?_
  have hexp : k + (t - k).toNat + (-t).toNat = t.toNat + (-(t - k)).toNat := by omega
  calc d * 10 ^ k * 10 ^ (t - k).toNat * 10 ^ (-t).toNat
      = d * 10 ^ (k + (t - k).toNat + (-t).toNat) := by rw [pow_add, pow_add]; ring
    _ = d * 10 ^ t.toNat * 10 ^ (-(t - k)).toNat := by rw [hexp, pow_add]; ring

theorem ofDecimal_of_units {d bits : ℕ} {t : ℤ} (hbits : bits < infBits)
    (h : units bits * 10 ^ (-t).toNat = d * 10 ^ t.toNat * unit) : ofDecimal d t = bits :=
  roundFrac_of_units (ten_pow_pos _) hbits h

/-- The largest `d` with `d · 10ᵗ` at or below the value at `bits`. -/
def digitsBelow (bits : ℕ) (t : ℤ) : ℕ := units bits * 10 ^ (-t).toNat / (unit * 10 ^ t.toNat)

/-- The two decimals around the value at `bits`, at exponent `t`: the
nearest first, ties to even. -/
def neighbours (bits : ℕ) (t : ℤ) : List ℕ :=
  let den := unit * 10 ^ t.toNat
  let lo := digitsBelow bits t
  let twice := 2 * (units bits * 10 ^ (-t).toNat % den)
  if twice < den ∨ (twice = den ∧ lo % 2 = 0) then [lo, lo + 1] else [lo + 1, lo]

/-- The digits of a decimal `d · 10ᵗ` next to the value at `bits` that
rounds back to it, the nearest one where both do. -/
def candidate (bits : ℕ) (t : ℤ) : Option ℕ :=
  (neighbours bits t).find? fun d => decide (0 < d ∧ ofDecimal d t = bits)

/-- The first decimal, from exponent `t` downward, that rounds back; the
value's exact decimal when the fuel runs out. -/
def shortestFrom (bits : ℕ) : ℕ → ℤ → ℕ × ℤ
  | 0, _ => (units bits * 5 ^ depth, -depth)
  | fuel + 1, t =>
    match candidate bits t with
    | some d => (d, t)
    | none => shortestFrom bits fuel (t - 1)

/-- An exponent above which no decimal can round to the value at `bits`. -/
def topExponent (bits : ℕ) : ℕ := Nat.log 10 (units bits / unit + 1) + 1

/-- **The shortest decimal that reads back as the value at `bits`**: the
digits `d` and exponent `t` of `d · 10ᵗ`, and of the shortest ones the
closest. -/
def shortest (bits : ℕ) : ℕ × ℤ :=
  shortestFrom bits (topExponent bits + depth) (topExponent bits)

-- the equations are made here, once, for all the theorems that unfold these
attribute [local grind =] digitsBelow neighbours candidate shortestFrom

theorem candidate_spec {bits d : ℕ} {t : ℤ} (h : candidate bits t = some d) :
    0 < d ∧ ofDecimal d t = bits := by
  unfold candidate at h
  have := List.find?_some h
  exact of_decide_eq_true this

theorem mem_neighbours {bits d : ℕ} {t : ℤ} :
    d ∈ neighbours bits t ↔ d = digitsBelow bits t ∨ d = digitsBelow bits t + 1 := by
  unfold neighbours
  simp only []
  split_ifs <;> simp only [List.mem_cons, List.not_mem_nil, or_false]
  exact or_comm

theorem candidate_mem {bits d : ℕ} {t : ℤ} (h : candidate bits t = some d) :
    d ∈ neighbours bits t := by
  unfold candidate at h
  exact List.mem_of_find?_eq_some h

theorem candidate_ne_none {bits d : ℕ} {t : ℤ} (hd : d ∈ neighbours bits t) (hpos : 0 < d)
    (hround : ofDecimal d t = bits) : candidate bits t ≠ none := by
  intro hnone
  unfold candidate at hnone
  exact List.find?_eq_none.mp hnone d hd (decide_eq_true ⟨hpos, hround⟩)

theorem digitsBelow_succ (bits : ℕ) (t : ℤ) : digitsBelow bits (t + 1) = digitsBelow bits t / 10 := by
  unfold digitsBelow
  rw [Nat.div_div_eq_div_mul]
  rcases Int.lt_or_le t 0 with ht | ht
  · have hk : (-t).toNat = (-(t + 1)).toNat + 1 := by omega
    rw [hk, pow_succ, show (t + 1).toNat = 0 by omega, show t.toNat = 0 by omega, pow_zero,
      Nat.mul_one, ← Nat.mul_assoc, Nat.mul_div_mul_right _ _ (by omega)]
  · have hk : (t + 1).toNat = t.toNat + 1 := by omega
    rw [hk, pow_succ, show (-(t + 1)).toNat = 0 by omega, show (-t).toNat = 0 by omega,
      Nat.mul_assoc]

/-- **The digits end in no zero**: had they, the decimal one exponent
higher would have been found first. -/
theorem not_ten_dvd {bits d : ℕ} {t : ℤ} (hnone : candidate bits (t + 1) = none)
    (hd : d ∈ neighbours bits t) (hpos : 0 < d) (hround : ofDecimal d t = bits) : d % 10 ≠ 0 := by
  intro hmod
  obtain ⟨e, rfl⟩ : ∃ e, d = e * 10 := ⟨d / 10, by omega⟩
  refine candidate_ne_none (d := e) ?_ (by omega) ?_ hnone
  · rw [mem_neighbours, digitsBelow_succ]
    rcases mem_neighbours.mp hd with h | h <;> omega
  · have hshift := ofDecimal_mul_pow e 1 (t + 1)
    rw [pow_one, Nat.cast_one, Int.add_sub_cancel] at hshift
    rw [← hshift, hround]

/-- The exact decimal of a finite value: `2⁻¹⁰⁷⁴ = 5¹⁰⁷⁴ · 10⁻¹⁰⁷⁴`. -/
theorem ofDecimal_exact {bits : ℕ} (hbits : bits < infBits) :
    ofDecimal (units bits * 5 ^ depth) (-depth) = bits := by
  refine ofDecimal_of_units hbits ?_
  have h10 : (10 : ℕ) ^ (-(-depth : ℤ)).toNat = 5 ^ depth * unit := by
    rw [unit, ← Nat.mul_pow, neg_neg, Int.toNat_natCast]
  rw [h10, Int.toNat_neg_natCast, pow_zero, Nat.mul_one, Nat.mul_assoc]

theorem digitsBelow_exact (bits : ℕ) : digitsBelow bits (-depth) = units bits * 5 ^ depth := by
  have h10 : (10 : ℕ) ^ depth = 5 ^ depth * unit := by rw [unit, ← Nat.mul_pow]
  rw [digitsBelow, neg_neg, Int.toNat_natCast, Int.toNat_neg_natCast, pow_zero, Nat.mul_one, h10,
    ← Nat.mul_assoc, Nat.mul_div_cancel _ unit_pos]

theorem shortestFrom_no_trailing_zero {bits : ℕ} (hpos : 0 < bits) (hbits : bits < infBits) :
    ∀ (fuel : ℕ) (t : ℤ), t = fuel - depth → candidate bits (t + 1) = none →
      (shortestFrom bits fuel t).1 % 10 ≠ 0 := by
  have hunits : 0 < units bits := units_zero ▸ units_strictMono hpos
  intro fuel
  induction fuel with
  | zero =>
    intro t ht hnone
    rw [Nat.cast_zero, zero_sub] at ht
    subst ht
    simp only [shortestFrom]
    refine not_ten_dvd hnone (mem_neighbours.mpr (Or.inl (digitsBelow_exact bits).symm)) ?_
      (ofDecimal_exact hbits)
    exact Nat.mul_pos hunits (Nat.pow_pos (by omega))
  | succ fuel ih =>
    intro t ht hnone
    rw [shortestFrom]
    cases hc : candidate bits t with
    | some d => exact not_ten_dvd hnone (candidate_mem hc) (candidate_spec hc).1 (candidate_spec hc).2
    | none => exact ih (t - 1) (by omega) (by rwa [Int.sub_add_cancel])

/-- **The shortest decimal of a value with a fraction ends in no zero.** -/
theorem shortest_no_trailing_zero {bits : ℕ} (hpos : 0 < bits) (hbits : bits < infBits)
    (hneg : (shortest bits).2 < 0) : (shortest bits).1 % 10 ≠ 0 := by
  have hfuel : topExponent bits + depth = topExponent bits + depth - 1 + 1 := by
    unfold depth; omega
  rw [shortest, hfuel, shortestFrom] at hneg ⊢
  cases hc : candidate bits (topExponent bits) with
  | some d =>
    rw [hc] at hneg
    exact absurd hneg (by simp)
  | none =>
    refine shortestFrom_no_trailing_zero hpos hbits _ _ ?_ (by rwa [Int.sub_add_cancel])
    unfold depth
    omega

theorem ofDecimal_shortestFrom {bits : ℕ} (hbits : bits < infBits) : ∀ fuel t,
    ofDecimal (shortestFrom bits fuel t).1 (shortestFrom bits fuel t).2 = bits := by
  intro fuel
  induction fuel with
  | zero => intro t; simp only [shortestFrom]; exact ofDecimal_exact hbits
  | succ fuel ih =>
    intro t
    rw [shortestFrom]
    cases hc : candidate bits t with
    | some d => exact (candidate_spec hc).2
    | none => exact ih (t - 1)

/-- **The shortest decimal reads back** as the value it was printed from. -/
theorem ofDecimal_shortest {bits : ℕ} (hbits : bits < infBits) :
    ofDecimal (shortest bits).1 (shortest bits).2 = bits :=
  ofDecimal_shortestFrom hbits _ _

theorem shortestFrom_pos {bits : ℕ} (hpos : 0 < bits) : ∀ fuel t,
    0 < (shortestFrom bits fuel t).1 := by
  intro fuel
  induction fuel with
  | zero =>
    intro t
    have hunits : 0 < units bits := units_zero ▸ units_strictMono hpos
    have hfive : 0 < 5 ^ depth := Nat.pow_pos (by omega)
    simp only [shortestFrom]
    exact Nat.mul_pos hunits hfive
  | succ fuel ih =>
    intro t
    rw [shortestFrom]
    cases hc : candidate bits t with
    | some d => exact (candidate_spec hc).1
    | none => exact ih (t - 1)

theorem shortest_pos {bits : ℕ} (hpos : 0 < bits) : 0 < (shortest bits).1 :=
  shortestFrom_pos hpos _ _

/-! ## Integers -/

/-- Every integer up to `2⁵³` is a value. -/
theorem exists_units_eq {n : ℕ} (hn : n ≤ 2 ^ 53) : ∃ bits, bits < infBits ∧ units bits = n * unit := by
  rcases Nat.eq_zero_or_pos n with rfl | hpos
  · exact ⟨0, by unfold infBits; omega, by rw [units_zero, Nat.zero_mul]⟩
  set k := Nat.log 2 n with hk
  have hlo : 2 ^ k ≤ n := Nat.pow_log_le_self 2 (by omega)
  have hhi : n < 2 ^ (k + 1) := Nat.lt_pow_succ_log_self (by omega) n
  have hk53 : k ≤ 53 := by
    by_contra hc
    have : 2 ^ 54 ≤ 2 ^ k := Nat.pow_le_pow_right (by omega) (by omega)
    omega
  rcases Nat.lt_or_ge k 53 with hlt | hge
  · -- the significand is `n` shifted up to 53 bits
    have hsig : 2 ^ 52 ≤ n * 2 ^ (52 - k) ∧ n * 2 ^ (52 - k) < 2 ^ 53 := by
      have h52 : (2 : ℕ) ^ 52 = 2 ^ k * 2 ^ (52 - k) := by rw [← pow_add]; congr 1; omega
      have h53 : (2 : ℕ) ^ 53 = 2 ^ (k + 1) * 2 ^ (52 - k) := by rw [← pow_add]; congr 1; omega
      rw [h52, h53]
      exact ⟨Nat.mul_le_mul_right _ hlo, Nat.mul_lt_mul_of_pos_right hhi (Nat.two_pow_pos _)⟩
    refine ⟨(depth - 52 + k + 1) * 2 ^ 52 + (n * 2 ^ (52 - k) - 2 ^ 52), ?_, ?_⟩
    · unfold infBits depth; omega
    · rw [units_parts (by omega), Nat.add_sub_cancel' hsig.1, unit, Nat.mul_assoc, ← pow_add]
      congr 2
      unfold depth
      omega
  · have : n = 2 ^ 53 := by
      have : k = 53 := by omega
      rw [this] at hlo
      omega
    subst this
    refine ⟨(depth + 1 + 1) * 2 ^ 52 + 0, by unfold infBits depth; omega, ?_⟩
    rw [units_parts (by omega), unit, Nat.add_zero, pow_succ 2 depth]
    ring

theorem ofDecimal_int {d n bits : ℕ} {t : ℤ} (ht : 0 ≤ t) (hd : d * 10 ^ t.toNat = n)
    (hbits : bits < infBits) (h : units bits = n * unit) : ofDecimal d t = bits := by
  refine ofDecimal_of_units hbits ?_
  rw [show (-t).toNat = 0 by omega, pow_zero, Nat.mul_one, h, hd]

/-- **Only `n` itself rounds to an integer `n ≤ 2⁵³`**, among the
integers, but for `2⁵³ + 1`, which ties. -/
theorem int_unique {d n bits : ℕ} {t : ℤ} (ht : 0 ≤ t) (hn : n ≤ 2 ^ 53) (hbits : bits < infBits)
    (h : units bits = n * unit) (hround : ofDecimal d t = bits) :
    d * 10 ^ t.toNat = n ∨ d * 10 ^ t.toNat = 2 ^ 53 + 1 := by
  have hu := unit_pos
  rw [ofDecimal, show (-t).toNat = 0 by omega, pow_zero] at hround
  generalize d * 10 ^ t.toNat = m at hround ⊢
  obtain ⟨hup, hdown⟩ := roundFrac_spec hround hbits
  rw [Nat.mul_one] at hup
  have hnext : ∀ k, n < k → ∀ b, units b = k * unit → units (bits + 1) ≤ k * unit := by
    intro k hk b hb
    rw [← hb]
    refine units_strictMono.monotone (Nat.succ_le_of_lt ?_)
    rw [← units_strictMono.lt_iff_lt, h, hb]
    exact Nat.mul_lt_mul_of_pos_right hk hu
  have hge : n ≤ m := by
    rcases Nat.eq_zero_or_pos n with hz | hpos
    · omega
    obtain ⟨b, hb, hbn⟩ := exists_units_eq (n := n - 1) (by omega)
    have hlt : b < bits := by
      rw [← units_strictMono.lt_iff_lt, h, hbn]
      exact Nat.mul_lt_mul_of_pos_right (by omega) hu
    have hprev : (n - 1) * unit ≤ units (bits - 1) := by
      rw [← hbn]
      exact units_strictMono.monotone (by omega)
    have hbelow := hdown (by omega)
    rw [Nat.mul_one, h] at hbelow
    have hmul : (n - 1 + n) * unit ≤ 2 * m * unit := by
      rw [Nat.add_mul, Nat.mul_assoc]
      omega
    have := Nat.le_of_mul_le_mul_right hmul hu
    omega
  rcases Nat.lt_or_ge n (2 ^ 53) with hlt | hge53
  · obtain ⟨b, -, hbn⟩ := exists_units_eq (n := n + 1) (by omega)
    have hn1 := hnext (n + 1) (by omega) b hbn
    have hmul : 2 * m * unit ≤ (n + (n + 1)) * unit := by
      rw [Nat.add_mul, Nat.mul_assoc]
      rw [h] at hup
      omega
    have := Nat.le_of_mul_le_mul_right hmul hu
    left
    omega
  · -- above `2⁵³` the next value is two away
    have hn53 : n = 2 ^ 53 := by omega
    have h2 : units ((depth + 1 + 1) * 2 ^ 52 + 1) = (2 ^ 53 + 2) * unit := by
      rw [units_parts (by omega), unit, pow_succ 2 depth]
      ring
    have hn2 := hnext (2 ^ 53 + 2) (by omega) _ h2
    have hmul : 2 * m * unit ≤ (n + (2 ^ 53 + 2)) * unit := by
      rw [Nat.add_mul, Nat.mul_assoc]
      rw [h] at hup
      omega
    have := Nat.le_of_mul_le_mul_right hmul hu
    omega

/-- At exponent zero the nearest integer to an integer is the integer. -/
theorem candidate_zero {n bits : ℕ} (hpos : 0 < n) (hbits : bits < infBits)
    (h : units bits = n * unit) : candidate bits 0 = some n := by
  have hround : ofDecimal n 0 = bits := ofDecimal_int le_rfl (by simp) hbits h
  have hlo : digitsBelow bits 0 = n := by
    rw [digitsBelow, h, neg_zero, Int.toNat_zero, pow_zero, Nat.mul_one, Nat.mul_one,
      Nat.mul_div_cancel _ unit_pos]
  have hmod : n * unit % unit = 0 := Nat.mul_mod_left _ _
  have hlist : neighbours bits 0 = [n, n + 1] := by
    unfold neighbours
    simp only [h, hlo, neg_zero, Int.toNat_zero, pow_zero, Nat.mul_one, hmod, Nat.mul_zero,
      unit_pos, true_or, if_true]
  rw [candidate, hlist, List.find?_cons_of_pos]
  exact decide_eq_true ⟨hpos, hround⟩

/-- **The shortest decimal of an integer up to `2⁵³` is that integer**:
the search stops at a non-negative exponent, where only the integer
itself rounds back. -/
theorem shortest_int {n bits : ℕ} (hpos : 0 < n) (hn : n ≤ 2 ^ 53) (hbits : bits < infBits)
    (h : units bits = n * unit) :
    0 ≤ (shortest bits).2 ∧ (shortest bits).1 * 10 ^ (shortest bits).2.toNat = n := by
  suffices key : ∀ fuel (t : ℕ), t < fuel → 0 ≤ (shortestFrom bits fuel t).2 ∧
      (shortestFrom bits fuel t).1 * 10 ^ (shortestFrom bits fuel t).2.toNat = n from
    key _ _ (by unfold depth; omega)
  intro fuel
  induction fuel with
  | zero => intro t ht; omega
  | succ fuel ih =>
    intro t ht
    rw [shortestFrom]
    cases t with
    | zero =>
      rw [Nat.cast_zero, candidate_zero hpos hbits h]
      simp
    | succ t =>
      cases hc : candidate bits ((t + 1 : ℕ) : ℤ) with
      | some d =>
        refine ⟨Int.natCast_nonneg _, ?_⟩
        rcases int_unique (Int.natCast_nonneg _) hn hbits h (candidate_spec hc).2 with heq | htie
        · exact heq
        · -- a multiple of ten is not `2⁵³ + 1`
          rw [Int.toNat_natCast, pow_succ, ← Nat.mul_assoc] at htie
          omega
      | none =>
        have : ((t + 1 : ℕ) : ℤ) - 1 = (t : ℕ) := by omega
        simp only [this]
        exact ih t (by omega)

/-- From `2⁵²` on every value is an integer. -/
theorem unit_dvd_of_le {bits : ℕ} (h : 2 ^ 52 * unit ≤ units bits) : unit ∣ units bits := by
  obtain ⟨e, f, hf, rfl⟩ : ∃ e f, f < 2 ^ 52 ∧ bits = e * 2 ^ 52 + f :=
    ⟨bits / 2 ^ 52, bits % 2 ^ 52, by omega, by omega⟩
  cases e with
  | zero =>
    rw [Nat.zero_mul, Nat.zero_add, units_subnormal hf] at h
    have := Nat.le_mul_of_pos_right (2 ^ 52) unit_pos
    omega
  | succ e =>
    rw [units_parts hf] at h ⊢
    have hlt : 2 ^ 52 * unit < 2 ^ 52 * 2 ^ (e + 1) := by
      have hsig : (2 ^ 52 + f) * 2 ^ e < 2 ^ 53 * 2 ^ e :=
        Nat.mul_lt_mul_of_pos_right (by omega) (Nat.two_pow_pos _)
      calc 2 ^ 52 * unit ≤ (2 ^ 52 + f) * 2 ^ e := h
        _ < 2 ^ 53 * 2 ^ e := hsig
        _ = 2 ^ 52 * 2 ^ (e + 1) := by rw [pow_succ 2 e]; ring
    have hdepth : depth < e + 1 :=
      (Nat.pow_lt_pow_iff_right (by omega)).mp (Nat.lt_of_mul_lt_mul_left hlt)
    exact Dvd.dvd.mul_left (Nat.pow_dvd_pow 2 (by omega)) _

/-- An integral value's shortest decimal is an integer. -/
theorem shortest_integral {n bits : ℕ} (hpos : 0 < n) (hbits : bits < infBits)
    (h : units bits = n * unit) : 0 ≤ (shortest bits).2 := by
  suffices key : ∀ fuel (t : ℕ), t < fuel → 0 ≤ (shortestFrom bits fuel t).2 from
    key _ _ (by unfold depth; omega)
  intro fuel
  induction fuel with
  | zero => intro t ht; omega
  | succ fuel ih =>
    intro t ht
    rw [shortestFrom]
    cases t with
    | zero => rw [Nat.cast_zero, candidate_zero hpos hbits h]
    | succ t =>
      cases hc : candidate bits ((t + 1 : ℕ) : ℤ) with
      | some d => exact Int.natCast_nonneg _
      | none =>
        have : ((t + 1 : ℕ) : ℤ) - 1 = (t : ℕ) := by omega
        simp only [this]
        exact ih t (by omega)

/-- A value that an integer rounds to is an integer. -/
theorem unit_dvd_of_ofDecimal {d bits : ℕ} {t : ℤ} (ht : 0 ≤ t) (hbits : bits < infBits)
    (hround : ofDecimal d t = bits) : unit ∣ units bits := by
  by_contra hdvd
  have hlt : units bits < 2 ^ 52 * unit := by
    by_contra hge
    exact hdvd (unit_dvd_of_le (not_lt.mp hge))
  -- the next value is at most `2⁵²`, so the integer is below it
  obtain ⟨b, -, hb⟩ := exists_units_eq (n := 2 ^ 52) (by omega)
  have hnext : units (bits + 1) ≤ 2 ^ 52 * unit := by
    rw [← hb] at hlt ⊢
    exact units_strictMono.monotone (Nat.succ_le_of_lt (units_strictMono.lt_iff_lt.mp hlt))
  have hspec := hround
  rw [ofDecimal, show (-t).toNat = 0 by omega, pow_zero] at hspec
  have hup := (roundFrac_spec hspec hbits).1
  rw [Nat.mul_one] at hup
  have hm : d * 10 ^ t.toNat < 2 ^ 52 := by
    refine Nat.lt_of_mul_lt_mul_right (a := unit) ?_
    omega
  obtain ⟨c, hc, hcm⟩ := exists_units_eq (n := d * 10 ^ t.toNat) (by omega)
  have hexact : ofDecimal d t = c := ofDecimal_int ht rfl hc hcm
  rw [← hround, hexact, hcm] at hdvd
  exact hdvd (Nat.dvd_mul_left _ _)

/-- Rounding an integer at most doubles it. -/
theorem units_le_two_mul {d bits : ℕ} {t : ℤ} (ht : 0 ≤ t) (hbits : bits < infBits)
    (hround : ofDecimal d t = bits) : units bits ≤ 2 * (d * 10 ^ t.toNat * unit) := by
  rcases Nat.eq_zero_or_pos bits with rfl | hpos
  · rw [units_zero]; omega
  · rw [ofDecimal, show (-t).toNat = 0 by omega, pow_zero] at hround
    have := (roundFrac_spec hround hbits).2 hpos
    omega

/-! ## Values -/

/-- One binary64 value: its sign bit and the other 63. -/
structure Binary64 where
  neg : Bool
  bits : ℕ
  bits_lt : bits < 2 ^ 63
deriving DecidableEq

namespace Binary64

/-- Neither an infinity nor a NaN. -/
def Finite (x : Binary64) : Prop := x.bits < infBits

instance (x : Binary64) : Decidable x.Finite := Nat.decLt _ _

/-- A finite value as a signed number of units. -/
def signedUnits (x : Binary64) : ℤ := if x.neg then -(units x.bits : ℤ) else units x.bits

theorem roundFrac_le (num den : ℕ) : roundFrac num den ≤ infBits := by
  by_cases hinf : atMost num den infBits
  · rw [roundFrac, if_pos hinf]
  · have hlo : floorBits num den 63 0 < infBits := by
      by_contra hge
      exact hinf (atMost_of_le (not_lt.mp hge) (floorBits_root hinf).1)
    rw [roundFrac, if_neg hinf]
    simp only []
    split_ifs <;> omega

/-- The value a signed decimal rounds to; an infinity on overflow. -/
def ofSignedDecimal (neg : Bool) (d : ℕ) (t : ℤ) : Binary64 where
  neg := neg
  bits := ofDecimal d t
  bits_lt := lt_of_le_of_lt (roundFrac_le _ _) (by unfold infBits; omega)

end Binary64

end Aipcs
