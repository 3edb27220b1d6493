import Aipcs.Data.Fields

/-!
# Data — datetimes as PostgreSQL gives them back

A `timestamptz` column keeps the instant and not its spelling. What comes
back is spelled by `isoText`, which is read as that instant; so a text
comes back as it was just where the store spells its instant so.
-/

namespace Aipcs

namespace Data

open Manifest Portable Records

/-! ## The store's spelling -/

/-- The date of an instant, as its text has it. -/
def dateChars (t : Instant) : List Char :=
  let (year, month, day) := civil (t.micros / 86400000000)
  padded year 4 ++ ('-' :: (padded month 2 ++ ('-' :: padded day 2)))

/-- Its time of day: no fraction where there is none. -/
def timeChars (t : Instant) : List Char :=
  let micros := t.micros % 86400000000
  padded (micros / 3600000000) 2 ++ (':' :: (padded (micros / 60000000 % 60) 2 ++ (':' ::
    (padded (micros / 1000000 % 60) 2 ++ if t.micros % 1000000 = 0 then [] else '.' :: padded (micros % 1000000) 6))))

/-- Its time of day to the microsecond. -/
def fullTimeChars (t : Instant) : List Char :=
  let micros := t.micros % 86400000000
  padded (micros / 3600000000) 2 ++ (':' :: (padded (micros / 60000000 % 60) 2 ++ (':' ::
    (padded (micros / 1000000 % 60) 2 ++ ('.' :: padded (micros % 1000000) 6)))))

theorem toList_text (t : Instant) : t.text.toList = dateChars t ++ ('T' :: (fullTimeChars t ++ ['Z'])) := by
  simp [Instant.text, Instant.chars, dateChars, fullTimeChars]

theorem toList_isoText (t : Instant) : (isoText t).toList = dateChars t ++ ('T' :: (timeChars t ++ ['Z'])) := by
  have hchars : t.chars = (dateChars t ++ ('T' :: (padded (t.micros % 86400000000 / 3600000000) 2 ++
      (':' :: (padded (t.micros % 86400000000 / 60000000 % 60) 2 ++ (':' ::
        padded (t.micros % 86400000000 / 1000000 % 60) 2)))))) ++
      ('.' :: (padded (t.micros % 86400000000 % 1000000) 6 ++ ['Z'])) := by
    simp [Instant.chars, dateChars]
  unfold isoText
  split_ifs with h
  · rw [String.toList_ofList, hchars, List.take_left' (by simp [dateChars]), timeChars, if_pos h]
    simp
  · rw [Instant.text, String.toList_ofList, hchars, timeChars, if_neg h]
    simp

theorem replaceZulu_of_not_mem {s : List Char} (h : 'Z' ∉ s) : replaceZulu s = s := by
  induction s with
  | nil => rfl
  | cons c s ih =>
    rw [List.mem_cons, not_or] at h
    rw [replaceZulu, List.flatMap_cons, if_neg (Ne.symm h.1)]
    exact congrArg (c :: ·) (ih h.2)

theorem not_mem_padded {c : Char} {n k : ℕ} (hc : isDigit c = false) : c ∉ padded n k := fun h => by
  rw [isDigit_of_mem_padded h] at hc
  exact absurd hc (by simp)

theorem padded_two (n : ℕ) : padded n 2 = [(n / 10 % 10).digitChar, (n % 10).digitChar] := rfl

theorem twoDigits_padded {n : ℕ} (h : n < 100) (rest : List Char) : twoDigits (padded n 2 ++ rest) = some (n, rest) := by
  have hvalue := digitsValue_padded (k := 2) h
  rw [padded_two] at hvalue ⊢
  rw [List.cons_append, List.singleton_append, twoDigits, isDigit_digitChar (Nat.mod_lt _ (by omega)),
    isDigit_digitChar (Nat.mod_lt _ (by omega)), Bool.and_self, if_pos rfl, hvalue]

theorem timeChars_clean (t : Instant) {c : Char} (hc : isDigit c = false) (hcolon : c ≠ ':') (hpoint : c ≠ '.') :
    c ∉ timeChars t := by
  simp only [timeChars, List.mem_append, List.mem_cons, not_or]
  refine ⟨not_mem_padded hc, hcolon, not_mem_padded hc, hcolon, not_mem_padded hc, ?_⟩
  split_ifs
  · exact List.not_mem_nil
  · rw [List.mem_cons, not_or]
    exact ⟨hpoint, not_mem_padded hc⟩

theorem fullTimeChars_clean (t : Instant) {c : Char} (hc : isDigit c = false) (hcolon : c ≠ ':') (hpoint : c ≠ '.') :
    c ∉ fullTimeChars t := by
  simp only [fullTimeChars, List.mem_append, List.mem_cons, not_or]
  exact ⟨not_mem_padded hc, hcolon, not_mem_padded hc, hcolon, not_mem_padded hc, hpoint, not_mem_padded hc⟩

/-- **A day is read from its date.** -/
theorem parseIsoformatDate_dateChars (t : Instant) :
    parseIsoformatDate (dateChars t) = some (t.micros / 86400000000) := by
  have hlt := t.lt
  obtain ⟨⟨hyear, hmonth, hday⟩, hordinal⟩ := @civil_spec (t.micros / 86400000000) (by omega)
  have hmost : daysInMonth (civil (t.micros / 86400000000)).1 (civil (t.micros / 86400000000)).2.1 ≤ 31 := by
    unfold daysInMonth
    split_ifs <;> omega
  have hp : ∀ (n k : ℕ) {s q : List Char}, matchesPattern s q = true →
      matchesPattern (padded n k ++ s) (List.replicate k 'd' ++ q) = true :=
    fun n k _ _ h => matchesPattern_append (matchesPattern_padded n k) h
  have hc : ∀ {s q : List Char}, matchesPattern s q = true → matchesPattern ('-' :: s) ('-' :: q) = true := by
    intro s q h
    simp [matchesPattern, h]
  have hmatches : matchesPattern (dateChars t) "dddd-dd-dd".toList = true :=
    hp _ 4 (hc (hp _ 2 (hc (matchesPattern_padded _ 2))))
  have hnumbers : numberAt (dateChars t) 0 4 = (civil (t.micros / 86400000000)).1 ∧
      numberAt (dateChars t) 5 2 = (civil (t.micros / 86400000000)).2.1 ∧
      numberAt (dateChars t) 8 2 = (civil (t.micros / 86400000000)).2.2 := by
    dsimp only [dateChars]
    generalize civil (t.micros / 86400000000) = date at hyear hmonth hday hmost ⊢
    have hm : date.2.1 < 10 ^ 2 := by omega
    have hd : date.2.2 < 10 ^ 2 := by omega
    rw [← List.append_nil (padded date.2.2 2)]
    refine ⟨?_, ?_, ?_⟩ <;>
      simp (disch := omega) only [ numberAt_padded_skip, numberAt_cons_skip, Nat.reduceSub, numberAt_padded]
  rw [parseIsoformatDate, if_pos hmatches, hnumbers.1, hnumbers.2.1, hnumbers.2.2, calendarDay,
    if_pos ⟨hyear.1, hmonth.1, hmonth.2, hday.1, hday.2⟩, hordinal]

/-- **A time of day is read from its text**, with a fraction or without one. -/
theorem parseHhMmSsFf_fullTimeChars (t : Instant) : parseHhMmSsFf (fullTimeChars t) =
    some (t.micros % 86400000000 / 3600000000, t.micros % 86400000000 / 60000000 % 60,
      t.micros % 86400000000 / 1000000 % 60, t.micros % 86400000000 % 1000000) := by
  have hfraction : fraction (padded (t.micros % 86400000000 % 1000000) 6) = some (t.micros % 86400000000 % 1000000) := by
    have hall : (padded (t.micros % 86400000000 % 1000000) 6).all isDigit = true :=
      List.all_eq_true.2 fun c hc => isDigit_of_mem_padded hc
    have hne : padded (t.micros % 86400000000 % 1000000) 6 ≠ [] := by
      rw [← List.length_pos_iff, length_padded]
      omega
    rw [fraction, if_pos ⟨hne, hall⟩, length_padded, List.take_of_length_le (by rw [length_padded]),
      List.replicate_zero, List.append_nil, digitsValue_padded (by omega)]
  rw [fullTimeChars]
  simp [parseHhMmSsFf, twoDigits_padded (show t.micros % 86400000000 / 3600000000 < 100 by omega),
    twoDigits_padded (show t.micros % 86400000000 / 60000000 % 60 < 100 by omega),
    twoDigits_padded (show t.micros % 86400000000 / 1000000 % 60 < 100 by omega), skipColon, -Nat.mod_mod_of_dvd,
    hfraction]

theorem parseHhMmSsFf_timeChars (t : Instant) : parseHhMmSsFf (timeChars t) =
    some (t.micros % 86400000000 / 3600000000, t.micros % 86400000000 / 60000000 % 60,
      t.micros % 86400000000 / 1000000 % 60, t.micros % 86400000000 % 1000000) := by
  by_cases h : t.micros % 1000000 = 0
  · have hmicro : t.micros % 86400000000 % 1000000 = 0 := by omega
    have hsecond := twoDigits_padded (n := t.micros % 86400000000 / 1000000 % 60) (by omega) []
    rw [List.append_nil] at hsecond
    rw [timeChars, if_pos h, List.append_nil, hmicro]
    simp [parseHhMmSsFf, twoDigits_padded (show t.micros % 86400000000 / 3600000000 < 100 by omega),
      twoDigits_padded (show t.micros % 86400000000 / 60000000 % 60 < 100 by omega), skipColon, hsecond]
  · rw [timeChars, if_neg h]
    exact parseHhMmSsFf_fullTimeChars t

theorem findSeparator_dateChars (t : Instant) (rest : List Char) : findSeparator (dateChars t ++ ('T' :: rest)) = 10 := by
  have hlength : (dateChars t ++ ('T' :: rest)).length ≠ 7 := by
    simp [dateChars]
    omega
  obtain ⟨a, b, c, d, e, more, hdate, he⟩ : ∃ a b c d e more, dateChars t = a :: b :: c :: d :: '-' :: e :: more ∧ e ≠ 'W' :=
    ⟨_, _, _, _, _, _, rfl, fun h => by
      have hdigit := isDigit_digitChar (n := (civil (t.micros / 86400000000)).2.1 / 10 % 10) (Nat.mod_lt _ (by omega))
      exact absurd ((congrArg isDigit h).symm.trans hdigit) (by decide)⟩
  rw [findSeparator, if_neg hlength, hdate]
  simp [he]

/-- **A date and a time of day are read as their instant.** -/
theorem parseDatetime_of_time {t : Instant} {time : List Char} {s : String}
    (hs : s.toList = dateChars t ++ ('T' :: (time ++ ['Z'])))
    (hclean : ∀ c, isDigit c = false → c ≠ ':' → c ≠ '.' → c ∉ time)
    (htime : parseHhMmSsFf time = some (t.micros % 86400000000 / 3600000000, t.micros % 86400000000 / 60000000 % 60,
      t.micros % 86400000000 / 1000000 % 60, t.micros % 86400000000 % 1000000)) : parseDatetime s = some t := by
  have hlt := t.lt
  have hdate : 'Z' ∉ dateChars t := by
    simp only [dateChars, List.mem_append, List.mem_cons, not_or]
    exact ⟨not_mem_padded (by decide), by decide, not_mem_padded (by decide), by decide, not_mem_padded (by decide)⟩
  have hsign : ∀ c ∈ time, (c ≠ '+' && c ≠ '-') = true := by
    intro c hc
    have hplus : c ≠ '+' := fun h => hclean '+' (by decide) (by decide) (by decide) (h ▸ hc)
    have hminus : c ≠ '-' := fun h => hclean '-' (by decide) (by decide) (by decide) (h ▸ hc)
    simp [hplus, hminus]
  have htext : replaceZulu s.toList = dateChars t ++ ('T' :: (time ++ "+00:00".toList)) := by
    rw [hs, replaceZulu, List.flatMap_append, List.flatMap_cons, List.flatMap_append]
    rw [← replaceZulu, ← replaceZulu, replaceZulu_of_not_mem hdate,
      replaceZulu_of_not_mem (hclean 'Z' (by decide) (by decide) (by decide))]
    rfl
  have hlength : (dateChars t).length = 10 := by simp [dateChars]
  have hbefore : ((time ++ "+00:00".toList).takeWhile fun c => c ≠ '+' && c ≠ '-') = time := by
    rw [List.takeWhile_append_of_pos hsign]
    simp
  have hoffset : ((time ++ "+00:00".toList).dropWhile fun c => c ≠ '+' && c ≠ '-') = "+00:00".toList := by
    rw [List.dropWhile_append_of_pos hsign]
    rfl
  rw [parseDatetime, htext, utcFromIsoformat]
  dsimp only
  have hdrop : (dateChars t ++ ('T' :: (time ++ "+00:00".toList))).drop (10 + 1) = time ++ "+00:00".toList := by
    rw [List.drop_append, List.drop_of_length_le (by omega), hlength]
    rfl
  have hzero : parseHhMmSsFf ("+00:00".toList.drop 1) = some (0, 0, 0, 0) := by decide
  have hmicros : t.micros / 86400000000 * 86400000000 +
      ((t.micros % 86400000000 / 3600000000 * 60 + t.micros % 86400000000 / 60000000 % 60) * 60 +
        t.micros % 86400000000 / 1000000 % 60) * 1000000 + t.micros % 86400000000 % 1000000 = t.micros := by
    omega
  rw [findSeparator_dateChars, List.take_left' hlength, parseIsoformatDate_dateChars, Option.bind_eq_bind,
    Option.bind_some, hdrop, hbefore, hoffset, htime, hzero]
  simp only [Option.bind_eq_bind, Option.bind_some, hmicros]
  rw [if_pos ⟨trivial, by omega, by omega, by omega⟩, dif_pos hlt]

/-- **The store's own spelling is read as the instant it spells.** -/
theorem parseDatetime_isoText (t : Instant) : parseDatetime (isoText t) = some t :=
  parseDatetime_of_time (toList_isoText t) (fun _ hc hcolon hpoint => timeChars_clean t hc hcolon hpoint)
    (parseHhMmSsFf_timeChars t)

/-- **An encoded time is read as the instant that it encodes.** -/
theorem parseDatetime_text (t : Instant) : parseDatetime t.text = some t :=
  parseDatetime_of_time (toList_text t) (fun _ hc hcolon hpoint => fullTimeChars_clean t hc hcolon hpoint)
    (parseHhMmSsFf_fullTimeChars t)

/-! ## Texts that come back -/

/-- The text is how the store itself spells its instant. -/
def Spelled (s : String) : Prop := (parseDatetime s).map isoText = some s

instance (s : String) : Decidable (Spelled s) := inferInstanceAs (Decidable (_ = _))

theorem spelled_isoText (t : Instant) : Spelled (isoText t) := by
  rw [Spelled, parseDatetime_isoText, Option.map_some]

example : Spelled "2024-02-29T23:59:59.500000Z" ∧ ¬ Spelled "2024-02-29T23:59:59.5Z" := by decide +kernel

end Data

end Aipcs
