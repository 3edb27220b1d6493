import Aipcs.Common.Uuid
import Aipcs.Portable.Frame

/-!
# Portable — ids and instants as text

An instant is printed by `strftime("%Y-%m-%dT%H:%M:%S.%fZ")`, with its
year in four digits, and a UUID by `str`. Both readers parse and then ask
that the value prints as the text they were given, so they read exactly
what is printed (`Instant.ofText_text`, `Uuid.ofText_text`).
-/

namespace Aipcs

namespace Portable

/-! ## The calendar -/

/-- `date(year, 1, 1).toordinal() - 1`. -/
def daysBeforeYear (year : ℕ) : ℕ :=
  365 * (year - 1) + (year - 1) / 4 - (year - 1) / 100 + (year - 1) / 400

/-- The days of a year. -/
def daysInYear (year : ℕ) : ℕ :=
  if year % 4 = 0 ∧ (year % 100 ≠ 0 ∨ year % 400 = 0) then 366 else 365

/-- `_ord2ymd`, the year and the day in it: by cycles of 400, 100, 4 and one years. -/
def splitYear (days : ℕ) : ℕ × ℕ :=
  let n400 := days / 146097
  let days := days % 146097
  let n100 := min (days / 36524) 3
  let days := days - 36524 * n100
  let n4 := days / 1461
  let days := days % 1461
  let n1 := min (days / 365) 3
  (400 * n400 + 100 * n100 + 4 * n4 + n1 + 1, days - 365 * n1)

theorem daysBeforeYear_cycles {a b c e : ℕ} (hb : b ≤ 3) (hc : c ≤ 24) (he : e ≤ 3) :
    daysBeforeYear (400 * a + 100 * b + 4 * c + e + 1) = 146097 * a + 36524 * b + 1461 * c + 365 * e := by
  have h4 : (400 * a + 100 * b + 4 * c + e) / 4 = 100 * a + 25 * b + c := by omega
  have h100 : (400 * a + 100 * b + 4 * c + e) / 100 = 4 * a + b := by omega
  have h400 : (400 * a + 100 * b + 4 * c + e) / 400 = a := by omega
  rw [daysBeforeYear, Nat.add_sub_cancel, h4, h100, h400]
  omega

theorem splitYear_spec (days : ℕ) : 1 ≤ (splitYear days).1 ∧
    daysBeforeYear (splitYear days).1 + (splitYear days).2 = days ∧
      (splitYear days).2 < daysInYear (splitYear days).1 := by
  simp only [splitYear]
  obtain ⟨b, hb⟩ : ∃ b, b = min (days % 146097 / 36524) 3 := ⟨_, rfl⟩
  obtain ⟨r, hr⟩ : ∃ r, r = days % 146097 - 36524 * b := ⟨_, rfl⟩
  obtain ⟨e, he⟩ : ∃ e, e = min (r % 1461 / 365) 3 := ⟨_, rfl⟩
  rw [← hb, ← hr, ← he, daysBeforeYear_cycles (by omega) (by omega) (by omega)]
  refine ⟨by omega, by omega, ?_⟩
  unfold daysInYear
  split_ifs <;> omega

/-- The days of the months from one on, so many of them. -/
def daysInMonths (year : ℕ) : ℕ → ℕ → ℕ
  | _, 0 => 0
  | month, count + 1 => daysInMonth year month + daysInMonths year (month + 1) count

/-- The month a day falls in, counted from a month on, and the day in it. -/
def splitMonth (year : ℕ) : ℕ → ℕ → ℕ → ℕ × ℕ
  | 0, month, day => (month, day)
  | count + 1, month, day =>
    if day < daysInMonth year month then (month, day)
    else splitMonth year count (month + 1) (day - daysInMonth year month)

theorem daysInMonths_year (year : ℕ) : daysInMonths year 1 12 = daysInYear year := by
  by_cases h : year % 4 = 0 ∧ (year % 100 ≠ 0 ∨ year % 400 = 0) <;>
    simp [daysInMonths, daysInMonth, daysInYear, h]

theorem splitMonth_spec {year count month day : ℕ} (h : day < daysInMonths year month (count + 1)) :
    month ≤ (splitMonth year count month day).1 ∧ (splitMonth year count month day).1 ≤ month + count ∧
      (splitMonth year count month day).2 < daysInMonth year (splitMonth year count month day).1 ∧
      daysInMonths year month ((splitMonth year count month day).1 - month) +
        (splitMonth year count month day).2 = day := by
  induction count generalizing month day with
  | zero =>
    simp only [daysInMonths, Nat.add_zero] at h
    simp [splitMonth, daysInMonths, h]
  | succ count ih =>
    rw [splitMonth]
    by_cases hday : day < daysInMonth year month
    · rw [if_pos hday]
      simp [daysInMonths, hday]
    · rw [if_neg hday]
      rw [daysInMonths] at h
      obtain ⟨hle, hge, hlt, hsum⟩ := @ih (month + 1) (day - daysInMonth year month) (by omega)
      refine ⟨by omega, by omega, hlt, ?_⟩
      have hsub : (splitMonth year count (month + 1) (day - daysInMonth year month)).1 - month =
          (splitMonth year count (month + 1) (day - daysInMonth year month)).1 - (month + 1) + 1 := by
        omega
      rw [hsub, daysInMonths]
      omega

/-! ## Digits -/

/-- A number in so many decimal digits. -/
def padded (n : ℕ) : ℕ → List Char
  | 0 => []
  | k + 1 => padded (n / 10) k ++ [(n % 10).digitChar]

@[simp] theorem length_padded (n k : ℕ) : (padded n k).length = k := by
  induction k generalizing n with
  | zero => rfl
  | succ k ih => rw [padded, List.length_append, ih, List.length_singleton]

theorem isDigit_digitChar {n : ℕ} (h : n < 10) : isDigit n.digitChar = true := by
  interval_cases n <;> decide

theorem isDigit_of_mem_padded {n k : ℕ} {c : Char} (h : c ∈ padded n k) : isDigit c = true := by
  induction k generalizing n with
  | zero => exact absurd h List.not_mem_nil
  | succ k ih =>
    rw [padded, List.mem_append, List.mem_singleton] at h
    rcases h with h | rfl
    · exact ih h
    · exact isDigit_digitChar (Nat.mod_lt _ (by omega))

theorem digitsValue_append_digit (ds : List Char) {n : ℕ} (h : n < 10) :
    digitsValue (ds ++ [n.digitChar]) = 10 * digitsValue ds + n := by
  rw [digitsValue, Nat.ofDigitChars_append, Nat.ofDigitChars_cons_digitChar_of_lt_ten h]
  rfl

theorem digitsValue_padded {n k : ℕ} (h : n < 10 ^ k) : digitsValue (padded n k) = n := by
  induction k generalizing n with
  | zero =>
    rw [Nat.pow_zero] at h
    obtain rfl : n = 0 := by omega
    rfl
  | succ k ih =>
    rw [padded, digitsValue_append_digit _ (Nat.mod_lt _ (by omega)), ih (by omega)]
    omega

/-- A number is read where its digits stand. -/
theorem numberAt_padded {n k : ℕ} {s : List Char} (h : n < 10 ^ k) : numberAt (padded n k ++ s) 0 k = n := by
  rw [numberAt, List.drop_zero, List.take_left' (length_padded n k), digitsValue_padded h]

theorem numberAt_padded_skip {n k j l : ℕ} {s : List Char} (h : k ≤ j) :
    numberAt (padded n k ++ s) j l = numberAt s (j - k) l := by
  rw [numberAt, numberAt, List.drop_append, List.drop_of_length_le (by rwa [length_padded]),
    length_padded, List.nil_append]

theorem numberAt_cons_skip {c : Char} {j l : ℕ} {s : List Char} (h : 0 < j) :
    numberAt (c :: s) j l = numberAt s (j - 1) l := by
  obtain ⟨j, rfl⟩ := Nat.exists_eq_succ_of_ne_zero (Nat.pos_iff_ne_zero.1 h)
  rfl

theorem matchesPattern_append {a b p q : List Char} (ha : matchesPattern a p = true)
    (hb : matchesPattern b q = true) : matchesPattern (a ++ b) (p ++ q) = true := by
  induction a generalizing p with
  | nil =>
    cases p with
    | nil => exact hb
    | cons _ _ => exact absurd ha (by simp [matchesPattern])
  | cons c a ih =>
    cases p with
    | nil => exact absurd ha (by simp [matchesPattern])
    | cons d p =>
      rw [matchesPattern, Bool.and_eq_true] at ha
      rw [List.cons_append, List.cons_append, matchesPattern, ha.1, ih ha.2, Bool.and_self]

theorem matchesPattern_padded (n k : ℕ) : matchesPattern (padded n k) (List.replicate k 'd') = true := by
  induction k generalizing n with
  | zero => rfl
  | succ k ih =>
    rw [padded, List.replicate_succ']
    refine matchesPattern_append (ih _) ?_
    simp [matchesPattern, isDigit_digitChar (Nat.mod_lt n (by omega : 0 < 10))]

/-- Year, month and day. -/
def civil (days : ℕ) : ℕ × ℕ × ℕ :=
  let year := splitYear days
  let month := splitMonth year.1 11 1 year.2
  (year.1, month.1, month.2 + 1)

/-- The fields of a `date`. -/
structure IsDate (y m d : ℕ) : Prop where
  year : 1 ≤ y ∧ y ≤ 9999
  month : 1 ≤ m ∧ m ≤ 12
  day : 1 ≤ d ∧ d ≤ daysInMonth y m

/-- `date(year, month, day).toordinal() - 1`. -/
def ordinal (year month day : ℕ) : ℕ := daysBeforeYear year + daysInMonths year 1 (month - 1) + (day - 1)

/-- **A day is split into the fields it is made of.** -/
theorem civil_spec {days : ℕ} (h : days < 3652059) :
    IsDate (civil days).1 (civil days).2.1 (civil days).2.2 ∧
      ordinal (civil days).1 (civil days).2.1 (civil days).2.2 = days := by
  obtain ⟨hyear, hsum, hrest⟩ := splitYear_spec days
  rw [← daysInMonths_year] at hrest
  obtain ⟨hle, hge, hlt, hmonth⟩ := splitMonth_spec hrest
  have hmost : (splitYear days).1 ≤ 9999 := by
    by_contra hmost
    have hbefore : daysBeforeYear (splitYear days).1 ≤ days := by omega
    unfold daysBeforeYear at hbefore
    rcases Nat.lt_or_ge 10000 (splitYear days).1 with hmore | hless <;> omega
  simp only [civil, ordinal]
  refine ⟨⟨⟨hyear, hmost⟩, ⟨hle, hge⟩, Nat.le_add_left .., hlt⟩, ?_⟩
  rw [Nat.add_sub_cancel, Nat.add_assoc, hmonth, hsum]

end Portable

open Portable

namespace Instant

/-! ## Instants -/

/-- The instant of a date and a time of that day, in microseconds. -/
def ofParts (year month day hour minute second micro : ℕ) : Option Instant :=
  if 1 ≤ year ∧ year ≤ 9999 ∧ 1 ≤ month ∧ month ≤ 12 ∧ 1 ≤ day ∧ day ≤ daysInMonth year month ∧
      hour ≤ 23 ∧ minute ≤ 59 ∧ second ≤ 59 ∧ micro ≤ 999999 then
    let micros := ordinal year month day * 86400000000 + ((hour * 60 + minute) * 60 + second) * 1000000 + micro
    if h : micros < 315537897600000000 then some ⟨micros, h⟩ else none
  else none

/-- `value.strftime("%Y-%m-%dT%H:%M:%S.%fZ")`, as a list of characters. -/
def chars (t : Instant) : List Char :=
  let (year, month, day) := civil (t.micros / 86400000000)
  let micros := t.micros % 86400000000
  padded year 4 ++ ('-' :: (padded month 2 ++ ('-' :: (padded day 2 ++ ('T' ::
    (padded (micros / 3600000000) 2 ++ (':' :: (padded (micros / 60000000 % 60) 2 ++ (':' ::
      (padded (micros / 1000000 % 60) 2 ++ ('.' :: (padded (micros % 1000000) 6 ++ ['Z']))))))))))))

/-- `_format_time`. -/
def text (t : Instant) : String := String.ofList t.chars

/-- `_time`: what `strptime` reads, when it is printed so. -/
def ofText (s : String) : Option Instant :=
  let c := s.toList
  (ofParts (numberAt c 0 4) (numberAt c 5 2) (numberAt c 8 2) (numberAt c 11 2) (numberAt c 14 2)
    (numberAt c 17 2) (numberAt c 20 6)).filter fun t => t.text = s

/-- The text is of the pattern. -/
theorem matchesPattern_chars (t : Instant) :
    matchesPattern t.chars "dddd-dd-ddTdd:dd:dd.ddddddZ".toList = true := by
  have hp : ∀ (n k : ℕ) {s q : List Char}, matchesPattern s q = true →
      matchesPattern (padded n k ++ s) (List.replicate k 'd' ++ q) = true :=
    fun n k _ _ h => matchesPattern_append (matchesPattern_padded n k) h
  have hc : ∀ (c : Char) {s q : List Char}, c ≠ 'd' → matchesPattern s q = true →
      matchesPattern (c :: s) (c :: q) = true := by
    intro c s q hne h
    simp [matchesPattern, hne, h]
  exact hp _ 4 (hc _ (by decide) (hp _ 2 (hc _ (by decide) (hp _ 2 (hc _ (by decide)
    (hp _ 2 (hc _ (by decide) (hp _ 2 (hc _ (by decide) (hp _ 2 (hc _ (by decide)
      (hp _ 6 (hc _ (by decide) rfl)))))))))))))

/-- The numbers in the text. -/
theorem numberAt_chars (t : Instant) :
    let date := civil (t.micros / 86400000000)
    let micros := t.micros % 86400000000
    numberAt t.chars 0 4 = date.1 ∧ numberAt t.chars 5 2 = date.2.1 ∧ numberAt t.chars 8 2 = date.2.2 ∧
      numberAt t.chars 11 2 = micros / 3600000000 ∧ numberAt t.chars 14 2 = micros / 60000000 % 60 ∧
      numberAt t.chars 17 2 = micros / 1000000 % 60 ∧ numberAt t.chars 20 6 = micros % 1000000 := by
  have hlt := t.lt
  obtain ⟨⟨hyear, hmonth, hday⟩, -⟩ := @civil_spec (t.micros / 86400000000) (by omega)
  have hmost : daysInMonth (civil (t.micros / 86400000000)).1 (civil (t.micros / 86400000000)).2.1 ≤ 31 := by
    unfold daysInMonth
    split_ifs <;> omega
  dsimp only [chars]
  generalize civil (t.micros / 86400000000) = date at hyear hmonth hday hmost ⊢
  have hm : date.2.1 < 10 ^ 2 := by omega
  have hd : date.2.2 < 10 ^ 2 := by omega
  refine ⟨?_, ?_, ?_, ?_, ?_, ?_, ?_⟩ <;>
    simp (disch := omega) only [ numberAt_padded_skip, numberAt_cons_skip, Nat.reduceSub, numberAt_padded]

/-- **An instant is read from its text.** -/
@[simp] theorem ofText_text (t : Instant) : ofText t.text = some t := by
  have hlt := t.lt
  obtain ⟨⟨hyear, hmonth, hday⟩, hordinal⟩ := @civil_spec (t.micros / 86400000000) (by omega)
  obtain ⟨h1, h2, h3, h4, h5, h6, h7⟩ := numberAt_chars t
  have hparts : ofParts (numberAt t.chars 0 4) (numberAt t.chars 5 2) (numberAt t.chars 8 2)
      (numberAt t.chars 11 2) (numberAt t.chars 14 2) (numberAt t.chars 17 2) (numberAt t.chars 20 6) =
      some t := by
    rw [h1, h2, h3, h4, h5, h6, h7, ofParts, if_pos ⟨hyear.1, hyear.2, hmonth.1, hmonth.2, hday.1, hday.2,
      by omega, by omega, by omega, by omega⟩]
    have hmicros : t.micros / 86400000000 * 86400000000 +
        ((t.micros % 86400000000 / 3600000000 * 60 + t.micros % 86400000000 / 60000000 % 60) * 60 +
          t.micros % 86400000000 / 1000000 % 60) * 1000000 + t.micros % 86400000000 % 1000000 = t.micros := by
      omega
    simp only [hordinal, hmicros, hlt, dif_pos]
  rw [ofText, text, String.toList_ofList, hparts, Option.filter_some, if_pos (by simp [text])]

/-- Text that is read is printed so. -/
theorem text_of_ofText {s : String} {t : Instant} (h : ofText s = some t) : t.text = s := by
  rw [ofText, Option.filter_eq_some_iff, decide_eq_true_eq] at h
  exact h.2

theorem text_injective : Function.Injective text := fun s t h => by
  have hs := ofText_text s
  rw [h, ofText_text] at hs
  exact (Option.some.inj hs).symm

/-- A header takes the text for an instant. -/
theorem isUtcInstant_text (t : Instant) : isUtcInstant t.text.toList = true := by
  have hlt := t.lt
  obtain ⟨⟨hyear, hmonth, hday⟩, -⟩ := @civil_spec (t.micros / 86400000000) (by omega)
  obtain ⟨h1, h2, h3, h4, h5, h6, -⟩ := numberAt_chars t
  rw [text, String.toList_ofList]
  simp only [isUtcInstant, matchesPattern_chars, h1, h2, h3, h4, h5, h6, hyear.1, hmonth, hday, decide_true,
    Bool.and_true, Bool.true_and, Bool.and_eq_true, decide_eq_true_eq]
  omega

end Instant

namespace Uuid

/-! ## Ids -/

/-- `int(text, 16)`, of hexadecimal digits; other characters count nothing. -/
def hexNumber (cs : List Char) : ℕ := cs.foldl (fun n c => 16 * n + (hexValue c).getD 0) 0

/-- `UUID(value)`, when it is not zero and `str` of it is the value. -/
def ofText (s : String) : Option Uuid :=
  let n := hexNumber (s.toList.filter (· ≠ '-'))
  if h : 0 < n ∧ n < 2 ^ 128 then (some ⟨n, h.1, h.2⟩).filter fun u => u.text = s else none

theorem hexValue_digitChar {n : ℕ} (h : n < 16) : hexValue n.digitChar = some n := by
  interval_cases n <;> decide

theorem hexNumber_hexDigits {n k : ℕ} (h : n < 16 ^ k) : hexNumber (Sha256.hexDigits n k) = n := by
  induction k generalizing n with
  | zero =>
    rw [Nat.pow_zero] at h
    obtain rfl : n = 0 := by omega
    rfl
  | succ k ih =>
    have hinit : hexNumber (Sha256.hexDigits (n / 16) k) = n / 16 := ih (by omega)
    rw [Sha256.hexDigits, hexNumber, List.foldl_append, ← hexNumber, hinit, List.foldl_cons, List.foldl_nil,
      hexValue_digitChar (Nat.mod_lt _ (by omega)), Option.getD_some]
    omega

/-- The digits of an id's text. -/
theorem filter_text (u : Uuid) : u.text.toList.filter (· ≠ '-') = Sha256.hexDigits u.int 32 := by
  have hne : ∀ c ∈ Sha256.hexDigits u.int 32, c ≠ '-' := by
    intro c hc
    have hhex := isHexChar_of_mem_hexDigits hc
    rintro rfl
    exact absurd hhex (by decide)
  have hkeep : ∀ l : List Char, (∀ c ∈ l, c ∈ Sha256.hexDigits u.int 32) → l.filter (· ≠ '-') = l :=
    fun l hl => List.filter_eq_self.2 fun c hc => by simpa using hne c (hl c hc)
  have hpart : ∀ i j, (((Sha256.hexDigits u.int 32).drop i).take j).filter (· ≠ '-') =
      ((Sha256.hexDigits u.int 32).drop i).take j :=
    fun i j => hkeep _ fun c hc => List.mem_of_mem_drop (List.mem_of_mem_take hc)
  have hfirst := hkeep ((Sha256.hexDigits u.int 32).take 8) fun c hc => List.mem_of_mem_take hc
  have hlast := hkeep ((Sha256.hexDigits u.int 32).drop 20) fun c hc => List.mem_of_mem_drop hc
  have hdash : ∀ l : List Char, ('-' :: l).filter (· ≠ '-') = l.filter (· ≠ '-') := fun l => by simp
  rw [text, String.toList_ofList]
  simp only [List.cons_append, List.append_assoc, List.filter_append, hdash, hfirst, hpart, hlast]
  generalize Sha256.hexDigits u.int 32 = h
  have hjoin : ∀ i j, (h.drop i).take j ++ h.drop (i + j) = h.drop i := fun i j => by
    rw [← List.drop_drop, List.take_append_drop]
  rw [hjoin 16 4, hjoin 12 4, hjoin 8 4, List.take_append_drop]

/-- **An id is read from its text.** -/
@[simp] theorem ofText_text (u : Uuid) : ofText u.text = some u := by
  have hn : hexNumber (u.text.toList.filter (· ≠ '-')) = u.int := by
    rw [filter_text, hexNumber_hexDigits (by simpa using u.lt)]
  simp only [ofText, hn]
  rw [dif_pos ⟨u.pos, u.lt⟩, Option.filter_some, if_pos (by simp)]

theorem text_of_ofText {s : String} {u : Uuid} (h : ofText s = some u) : u.text = s := by
  unfold ofText at h
  dsimp only at h
  split_ifs at h
  rw [Option.filter_eq_some_iff, decide_eq_true_eq] at h
  exact h.2

theorem text_injective : Function.Injective text := fun u v h => by
  have hu := ofText_text u
  rw [h, ofText_text] at hu
  exact (Option.some.inj hu).symm

end Uuid

end Aipcs
