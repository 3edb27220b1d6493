import Aipcs.Data.Observation
import Aipcs.Transfer.Payloads

/-!
# Transfer — what arrives of a store's members

A float that a bundle prints as an integer arrives as that integer. A
document of records arrives as an equal and valid one just where none of
its floats is so large that the integer is not exact, and the members of
a whole store arrive as those of one just where this holds of all of
their documents (`settleMembers_iff`).
-/

namespace Aipcs

namespace Transfer

open Manifest Portable Relational Records Registry Data

/-! ## Numbers -/

/-- The float is printed as an integer, and the integer is too large to be
exact. -/
def Inexact (x : FiniteFloat) : Prop :=
  unit ∣ units x.1.bits ∧ 2 ^ 53 * unit < units x.1.bits ∧ units x.1.bits < 10 ^ 21 * unit

instance (x : FiniteFloat) : Decidable (Inexact x) := inferInstanceAs (Decidable (_ ∧ _ ∧ _))

section numbers

variable {x : FiniteFloat} {i : ℤ}

/-- The integer that a float spells, by its digits. -/
theorem spelledInteger_ne_zero (h0 : x.1.bits ≠ 0) (hs : spelledInteger x = some i) :
    (unit ∣ units x.1.bits ∧ units x.1.bits < 10 ^ 21 * unit) ∧ 0 ≤ (shortest x.1.bits).2 ∧
      i = if x.1.neg then -(shortMagnitude x.1.bits : ℤ) else shortMagnitude x.1.bits := by
  rw [spelledInteger, if_neg h0] at hs
  by_cases hsp : printedPlain x.1.bits ∧ 0 ≤ (shortest x.1.bits).2
  · rw [if_pos hsp, Option.some.injEq] at hs
    exact ⟨(spelled_iff h0).1 hsp, hsp.2, hs.symm⟩
  · rw [if_neg hsp] at hs
    exact absurd hs (by simp)

/-- The digits of an integer up to `2⁵³`. -/
theorem shortMagnitude_exact (h0 : x.1.bits ≠ 0) (hdvd : unit ∣ units x.1.bits)
    (hle : units x.1.bits ≤ 2 ^ 53 * unit) :
    shortMagnitude x.1.bits * unit = units x.1.bits ∧ shortMagnitude x.1.bits ≤ 2 ^ 53 := by
  obtain ⟨n, hn⟩ := hdvd
  rw [Nat.mul_comm] at hn
  have hpos : 0 < units x.1.bits := units_zero ▸ units_strictMono (Nat.pos_of_ne_zero h0)
  have hn0 : 0 < n := by
    rcases Nat.eq_zero_or_pos n with rfl | hn0
    · omega
    · exact hn0
  have hn53 : n ≤ 2 ^ 53 := Nat.le_of_mul_le_mul_right (hn ▸ hle) unit_pos
  have hshort : shortMagnitude x.1.bits = n := (shortest_int hn0 hn53 x.2 hn).2
  exact ⟨by rw [hshort, hn], hshort ▸ hn53⟩

/-- **An integer that arrives for a float is the float**, and exact, where the
float is not inexact. -/
theorem spelledInteger_exact (h : ¬ Inexact x) (hs : spelledInteger x = some i) :
    i * unit = x.1.signedUnits ∧ isExactInteger i := by
  by_cases h0 : x.1.bits = 0
  · rw [spelledInteger, if_pos h0, Option.some.injEq] at hs
    subst hs
    refine ⟨by simp [Binary64.signedUnits, h0, units_zero], by decide⟩
  · obtain ⟨⟨hdvd, hlt⟩, -, rfl⟩ := spelledInteger_ne_zero h0 hs
    have hle : units x.1.bits ≤ 2 ^ 53 * unit := by
      by_contra hgt
      exact h ⟨hdvd, by omega, hlt⟩
    obtain ⟨heq, hsmall⟩ := shortMagnitude_exact h0 hdvd hle
    refine ⟨((signedUnits_eq_iff x.1.neg (units x.1.bits) (shortMagnitude x.1.bits)).2 heq).symm, ?_⟩
    unfold isExactInteger IEEE_754_EXACT_INTEGER_MAX
    split_ifs <;> omega

/-- An inexact float arrives as an integer that is not exact. -/
theorem spelledInteger_inexact (h : Inexact x) : ∃ i, spelledInteger x = some i ∧ ¬ isExactInteger i := by
  obtain ⟨hdvd, hgt, hlt⟩ := h
  have h0 : x.1.bits ≠ 0 := by
    intro h0
    rw [h0, units_zero] at hgt
    omega
  have hsp := (spelled_iff h0).2 ⟨hdvd, hlt⟩
  have hlarge : 2 ^ 53 < shortMagnitude x.1.bits := by
    by_contra hle
    obtain ⟨bits, hbits, hunits⟩ := exists_units_eq (Nat.le_of_not_lt hle)
    have hround : ofDecimal (shortest x.1.bits).1 (shortest x.1.bits).2 = bits :=
      ofDecimal_int hsp.2 rfl hbits hunits
    rw [ofDecimal_shortest x.2] at hround
    rw [hround, hunits] at hgt
    have := Nat.lt_of_mul_lt_mul_right hgt
    omega
  refine ⟨_, by rw [spelledInteger, if_neg h0, if_pos hsp], ?_⟩
  unfold isExactInteger IEEE_754_EXACT_INTEGER_MAX
  split_ifs <;> omega

/-- `repr` of a float spells the integer that arrives for it, and more. -/
theorem reprLiteral_spelled (h : ¬ Inexact x) (hs : spelledInteger x = some i) :
    ∃ pre post, (reprLiteral x).text = pre ++ intText i ++ post := by
  rw [reprLiteral_text]
  by_cases h0 : x.1.bits = 0
  · rw [spelledInteger, if_pos h0, Option.some.injEq] at hs
    subst hs
    exact ⟨if x.1.neg then ['-'] else [], ['.', '0'], by rw [if_pos h0]; cases x.1.neg <;> rfl⟩
  · obtain ⟨⟨hdvd, hlt⟩, hexp, rfl⟩ := spelledInteger_ne_zero h0 hs
    have hle : units x.1.bits ≤ 2 ^ 53 * unit := by
      by_contra hgt
      exact h ⟨hdvd, by omega, hlt⟩
    have hsmall := (shortMagnitude_exact h0 hdvd hle).2
    have hpos := shortest_pos (Nat.pos_of_ne_zero h0)
    have hn : 0 < shortMagnitude x.1.bits := Nat.mul_pos hpos (ten_pow_pos _)
    have hdigits : natText (shortMagnitude x.1.bits) =
        shortDigits x.1.bits ++ List.replicate (shortest x.1.bits).2.toNat '0' := natText_mul_pow hpos _
    have hlength : (natText (shortMagnitude x.1.bits)).length ≤ 16 :=
      (Nat.length_toDigits_le_iff (by omega) (by omega)).2 (by omega)
    rw [hdigits, List.length_append, List.length_replicate] at hlength
    have hlen := @length_shortDigits_pos x.1.bits
    have hpoint : pointOf x.1.bits = (shortDigits x.1.bits).length + (shortest x.1.bits).2 := rfl
    have hrepr : pyRepr x.1.bits = natText (shortMagnitude x.1.bits) ++ ['.', '0'] := by
      have hfits : (shortDigits x.1.bits).length ≤ (pointOf x.1.bits).toNat := by omega
      rw [pyRepr, reprText, if_pos (by omega), if_neg (by omega), if_pos hfits, hdigits]
      have hzeros : (pointOf x.1.bits).toNat - (shortDigits x.1.bits).length = (shortest x.1.bits).2.toNat := by omega
      rw [hzeros]
    refine ⟨[], ['.', '0'], ?_⟩
    rw [if_neg h0, hrepr, List.nil_append, intText]
    cases x.1.neg with
    | true =>
      rw [if_pos rfl, if_pos rfl, if_pos (by omega), Int.natAbs_neg, Int.natAbs_natCast]
      rfl
    | false =>
      rw [if_neg Bool.false_ne_true, if_neg Bool.false_ne_true, if_neg (by omega), Int.natAbs_natCast]
      rfl

end numbers

/-! ## Values -/

/-- What arrives for a value: itself, or the exact integer that its float is,
in a shorter text. -/
def CarriedAs (v w : PortableJson) : Prop :=
  w = v ∨ ∃ x i, v = .float x ∧ w = .int i ∧ i.1 * unit = x.1.signedUnits ∧ isExactInteger i.1 ∧
    ∃ pre post, (reprLiteral x).text = pre ++ intText i.1 ++ post

section values

variable {f : RecordField} {v w : PortableJson}

/-- A number equals what has its value. -/
theorem equal_iff_number {a b : AllowedValue} {k : ℤ} (h : a.number = some k) :
    a.equal b = true ↔ b.number = some k := by
  rw [AllowedValue.equal, Bool.or_eq_true, decide_eq_true_eq, Bool.and_eq_true, decide_eq_true_eq, h]
  constructor
  · rintro (rfl | ⟨-, hb⟩)
    · exact h
    · exact hb.symm
  · intro hb
    exact .inr ⟨rfl, hb.symm⟩

theorem typed_of_validateValue (h : validateValue f v = true) : Typed f v := by
  by_cases hnull : v = .null
  · exact .inl hnull
  · rw [validateValue, Bool.and_eq_true] at h
    · exact .inr h.1
    · exact hnull

theorem settleItems_texts {items : List PortableJson} (h : items.all listItem = true) :
    settleItems items = some items ∧ PortableJson.floatsItems items = [] := by
  induction items with
  | nil => exact ⟨rfl, rfl⟩
  | cons v rest ih =>
    rw [List.all_cons, Bool.and_eq_true] at h
    obtain ⟨hrest, hfloats⟩ := ih h.2
    cases v with
    | str text =>
      refine ⟨?_, hfloats⟩
      rw [settleItems, hrest]
      rfl
    | _ => exact absurd h.1 (by simp [listItem])

/-- The floats of a value of a type: it is one, or it has none. -/
theorem floats_of_typed (h : Typed f v) {x : FiniteFloat} (hx : x ∈ v.floats) : v = .float x := by
  rcases h with rfl | h
  · exact absurd hx (by simp [PortableJson.floats])
  · cases v with
    | float y => rw [PortableJson.floats, List.mem_singleton] at hx; rw [hx]
    | arr items =>
      cases hf : f.type <;> simp only [hf, Records.matchesType, Bool.and_eq_true, reduceCtorEq] at h
      rw [PortableJson.floats, (settleItems_texts h.1.2).2] at hx
      exact absurd hx List.not_mem_nil
    | obj entries => exact absurd h (by cases f.type <;> simp [Records.matchesType])
    | _ => exact absurd hx (by simp [PortableJson.floats])

/-- **A value of a type is carried**, where its float is not inexact. -/
theorem settle_of_typed (h : Typed f v) (hx : ∀ x, v = .float x → ¬ Inexact x) :
    ∃ w, settle v = some w ∧ CarriedAs v w := by
  have hself : settle v = some v → ∃ w, settle v = some w ∧ CarriedAs v w :=
    fun hv => ⟨v, hv, .inl rfl⟩
  cases v with
  | float x =>
    cases hs : spelledInteger x with
    | none => exact hself (by rw [settle, settleFloat, hs])
    | some i =>
      obtain ⟨hvalue, hexact⟩ := spelledInteger_exact (hx x rfl) hs
      have hrange : -2 ^ 63 ≤ i ∧ i ≤ 2 ^ 63 - 1 := by
        unfold isExactInteger IEEE_754_EXACT_INTEGER_MAX at hexact
        omega
      refine ⟨.int ⟨i, hrange⟩, ?_, .inr ⟨x, ⟨i, hrange⟩, rfl, rfl, hvalue, hexact, reprLiteral_spelled (hx x rfl) hs⟩⟩
      rw [settle, settleFloat, hs]
      exact dif_pos hrange
  | arr items =>
    rcases h with h | h
    · exact absurd h (by simp)
    · cases hf : f.type <;> simp only [hf, Records.matchesType, Bool.and_eq_true, reduceCtorEq] at h
      exact hself (by rw [settle, (settleItems_texts h.1.2).1, Option.map_some])
  | obj entries =>
    rcases h with h | h
    · exact absurd h (by simp)
    · exact absurd h (by cases f.type <;> simp [Records.matchesType])
  | _ => exact hself (by rw [settle.eq_def])

namespace CarriedAs

variable (h : CarriedAs v w)

include h

theorem validateJson (hv : Records.validateJson v = true) : Records.validateJson w = true := by
  rcases h with rfl | ⟨x, i, rfl, rfl, -⟩
  · exact hv
  · rfl

theorem equalValues : Data.equalValues w v = true := by
  rcases h with rfl | ⟨x, i, rfl, rfl, hvalue, -⟩
  · exact equalValues_self _
  · simp [Data.equalValues, scalar, AllowedValue.equal, AllowedValue.number, x.2, hvalue]

/-- A field takes the one where it takes the other. -/
theorem validateValue (hv : Records.validateValue f v = true) : Records.validateValue f w = true := by
  rcases h with rfl | ⟨x, i, rfl, rfl, hvalue, hexact, -⟩
  · exact hv
  · rw [Records.validateValue, Bool.and_eq_true] at hv ⊢
    · obtain ⟨htype, hallowed⟩ := hv
      cases hf : f.type <;> simp only [hf, matchesType, Bool.false_eq_true] at htype
      rw [hf] at hallowed
      refine ⟨decide_eq_true hexact, ?_⟩
      cases hvalues : f.allowedValues with
      | none => rfl
      | some values =>
        rw [hvalues, Option.all_some] at hallowed
        rw [Option.all_some]
        simp only [matchesEnumeration, allowed, scalar, Option.any_some, List.any_eq_true] at hallowed ⊢
        obtain ⟨b, hb, hequal⟩ := hallowed
        have hfloat : (AllowedValue.float x.1).number = some x.1.signedUnits := if_pos x.2
        exact ⟨b, hb, (equal_iff_number (hvalue ▸ rfl)).2 ((equal_iff_number hfloat).1 hequal)⟩
    all_goals simp

/-- The text becomes no longer. -/
theorem length_dumps : (utf8Encode (dumps w)).length ≤ (utf8Encode (dumps v)).length := by
  rcases h with rfl | ⟨x, i, rfl, rfl, -, -, pre, post, htext⟩
  · exact le_rfl
  · have hv : dumps (.float x) = pre ++ intText i.1 ++ post := htext
    have hw : dumps (.int i) = intText i.1 := rfl
    rw [hv, hw, utf8Encode_append, utf8Encode_append, List.length_append, List.length_append]
    omega

end CarriedAs

end values

/-! ## Documents -/

section documents

variable {s : RecordSpecification} {entityName : String} {o p : FrozenJsonObject} {x : FiniteFloat}
  {entries es : List (String × PortableJson)}

theorem mem_floatsEntries : x ∈ PortableJson.floatsEntries entries ↔ ∃ q ∈ entries, x ∈ q.2.floats := by
  induction entries with
  | nil => simp [PortableJson.floatsEntries]
  | cons q entries ih => simp [PortableJson.floatsEntries, ih]

/-- Each entry of a valid document is a field's. -/
theorem field_of_create (h : validateCreate s entityName o = true) {q : String × PortableJson} (hq : q ∈ o.entries) :
    ∃ e f, s.entity entityName = some e ∧ e.domainFields.find? (fun f => f.name = q.1) = some f ∧
      validateValue f q.2 = true := by
  obtain ⟨e, he, hall⟩ := validateRecord_entity h
  have hentry := List.all_eq_true.1 hall q hq
  rw [validateEntry, Option.any_eq_true] at hentry
  obtain ⟨f, hf, hvalue⟩ := hentry
  exact ⟨e, f, he, hf, hvalue⟩

/-- The floats of a valid document are values of fields. -/
theorem mem_floats (h : validateCreate s entityName o = true) :
    x ∈ o.value.floats ↔ ∃ n, (n, PortableJson.float x) ∈ o.entries := by
  rw [FrozenJsonObject.value, PortableJson.floats, mem_floatsEntries]
  constructor
  · rintro ⟨⟨n, v⟩, hq, hx⟩
    obtain ⟨-, f, -, -, hvalue⟩ := field_of_create h hq
    exact ⟨n, floats_of_typed (typed_of_validateValue hvalue) hx ▸ hq⟩
  · rintro ⟨n, hq⟩
    exact ⟨_, hq, by simp [PortableJson.floats]⟩

/-- Entries that are settled, one by one. -/
theorem settleEntries_forall₂ (h : settleEntries entries = some es) :
    List.Forall₂ (fun q q' => q'.1 = q.1 ∧ settle q.2 = some q'.2) entries es := by
  induction entries generalizing es with
  | nil =>
    obtain rfl := Option.some.inj h
    exact .nil
  | cons q entries ih =>
    obtain ⟨n, v⟩ := q
    rw [settleEntries] at h
    split at h
    · next w ws hw hws =>
      obtain rfl := Option.some.inj h
      exact .cons ⟨rfl, hw⟩ (ih hws)
    · exact absurd h (by simp)

theorem settleEntries_carried (htyped : ∀ q ∈ entries, ∃ f, Typed f q.2)
    (hx : ∀ q ∈ entries, ∀ x, q.2 = .float x → ¬ Inexact x) :
    ∃ es, settleEntries entries = some es ∧
      List.Forall₂ (fun q q' => q'.1 = q.1 ∧ CarriedAs q.2 q'.2) entries es := by
  induction entries with
  | nil => exact ⟨[], rfl, .nil⟩
  | cons q entries ih =>
    obtain ⟨n, v⟩ := q
    rw [List.forall_mem_cons] at htyped hx
    obtain ⟨es, hes, hcarried⟩ := ih htyped.2 hx.2
    obtain ⟨f, hf⟩ := htyped.1
    obtain ⟨w, hw, hcarries⟩ := settle_of_typed hf hx.1
    exact ⟨(n, w) :: es, by rw [settleEntries, hw, hes], .cons ⟨rfl, hcarries⟩ hcarried⟩

theorem validateEntries_carried (h : List.Forall₂ (fun q q' => q'.1 = q.1 ∧ CarriedAs q.2 q'.2) entries es)
    (hvalid : validateEntries entries = true) : validateEntries es = true := by
  induction h with
  | nil => rfl
  | @cons q q' entries es hq _ ih =>
    obtain ⟨n, v⟩ := q
    obtain ⟨n', w⟩ := q'
    rw [validateEntries, Bool.and_eq_true] at hvalid ⊢
    exact ⟨hq.2.validateJson hvalid.1, ih hvalid.2⟩

theorem joinComma_shorter {l l' : List (List Char)}
    (h : List.Forall₂ (fun a b => (utf8Encode b).length ≤ (utf8Encode a).length) l l') :
    (utf8Encode (joinComma l')).length ≤ (utf8Encode (joinComma l)).length := by
  induction h with
  | nil => exact le_rfl
  | @cons a b l l' hab hrest ih =>
    have hnil : l' = [] ↔ l = [] := by
      rw [← List.length_eq_zero_iff, ← List.length_eq_zero_iff, hrest.length_eq]
    rw [joinComma_cons, joinComma_cons, utf8Encode_append, utf8Encode_append, List.length_append, List.length_append]
    by_cases hl : l = []
    · rw [if_pos hl, if_pos (hnil.2 hl)]
      omega
    · rw [if_neg hl, if_neg (mt hnil.1 hl), ← List.singleton_append, utf8Encode_append, List.length_append,
        ← @List.singleton_append _ _ (joinComma l), utf8Encode_append, List.length_append]
      omega

/-- The document's text becomes no longer. -/
theorem jsonSize_carried (h : List.Forall₂ (fun q q' => q'.1 = q.1 ∧ CarriedAs q.2 q'.2) entries es) :
    jsonSize (.obj es) ≤ jsonSize (.obj entries) := by
  have hprinted : List.Forall₂ (fun a b => (utf8Encode b).length ≤ (utf8Encode a).length)
      (dumpsStyle.printEntries entries) (dumpsStyle.printEntries es) := by
    induction h with
    | nil => exact .nil
    | @cons q q' entries es hq _ ih =>
      obtain ⟨n, v⟩ := q
      obtain ⟨n', w⟩ := q'
      obtain ⟨rfl, hcarries⟩ := hq
      refine .cons ?_ ih
      have hlength : (utf8Encode (dumpsStyle.print w)).length ≤ (utf8Encode (dumpsStyle.print v)).length :=
        hcarries.length_dumps
      have hentry : ∀ v, (utf8Encode (dumpsStyle.string n' ++ ':' :: dumpsStyle.print v)).length =
          (utf8Encode (dumpsStyle.string n' ++ [':'])).length + (utf8Encode (dumpsStyle.print v)).length := fun v => by
        rw [← List.singleton_append, ← List.append_assoc, utf8Encode_append, List.length_append]
      exact (hentry w).trans_le ((Nat.add_le_add_left hlength _).trans_eq (hentry v).symm)
  have hlength := joinComma_shorter hprinted
  have hsize : ∀ es : List (String × PortableJson), jsonSize (.obj es) =
      (utf8Encode ['{']).length + (utf8Encode (joinComma (dumpsStyle.printEntries es))).length +
        (utf8Encode ['}']).length := fun es => by
    rw [jsonSize, dumps, JsonStyle.print, ← List.singleton_append, utf8Encode_append, utf8Encode_append,
      List.length_append, List.length_append, Nat.add_assoc]
  rw [hsize, hsize]
  omega

/-- **A valid document arrives** as an equal and valid one, where none of its
floats is inexact. -/
theorem settleDocument_carried (hvalid : validateCreate s entityName o = true)
    (hx : ∀ x ∈ o.value.floats, ¬ Inexact x) :
    ∃ p, settleDocument o = some p ∧ equalFields p o = true ∧ validateCreate s entityName p = true := by
  have htyped : ∀ q ∈ o.entries, ∃ f, Typed f q.2 := fun q hq => by
    obtain ⟨-, f, -, -, hvalue⟩ := field_of_create hvalid hq
    exact ⟨f, typed_of_validateValue hvalue⟩
  obtain ⟨es, hes, hcarried⟩ := settleEntries_carried htyped fun q hq x hfloat =>
    hx x ((mem_floats hvalid).2 ⟨q.1, hfloat ▸ hq⟩)
  have hnames := settleEntries_names hes
  have hfrozen := o.frozen
  rw [validateJson, Bool.and_eq_true, Bool.and_eq_true, decide_eq_true_eq] at hfrozen
  have hvalues : validateEntries es = true := validateEntries_carried hcarried hfrozen.1.2
  have hes' : validateJson (.obj es) = true := by
    rw [validateJson, hnames, hvalues, Bool.and_true, hfrozen.1.1, Bool.true_and, decide_eq_true_eq]
    exact (jsonSize_carried hcarried).trans hfrozen.2
  refine ⟨⟨es, hes'⟩, ?_, ?_, ?_⟩
  · rw [settleDocument, hes, Option.bind_some, FrozenJsonObject.ofEntries_eq_some]
  · rw [equalFields, equalEntries_iff]
    exact hcarried.flip.imp fun q' q hq => ⟨hq.1, hq.2.equalValues⟩
  · rw [validateCreate, validateRecord] at hvalid ⊢
    cases he : s.entity entityName with
    | none => rw [he] at hvalid; exact absurd hvalid (by simp)
    | some e =>
      rw [he] at hvalid
      simp only [Bool.false_and, Bool.not_false, Bool.true_and, Bool.and_eq_true, FrozenJsonObject.names, hnames]
        at hvalid ⊢
      refine ⟨List.all_eq_true.2 fun q' hq' => ?_, hvalid.2⟩
      obtain ⟨q, hq, hname, hcarries⟩ := exists_of_forall₂ hcarried.flip hq'
      have hentry := List.all_eq_true.1 hvalid.1 q hq
      rw [validateEntry, Option.any_eq_true] at hentry ⊢
      obtain ⟨f, hf, hvalue⟩ := hentry
      exact ⟨f, hname ▸ hf, hcarries.validateValue hvalue⟩

/-- **A document that arrives valid** had no inexact float. -/
theorem exact_of_settled (hvalid : validateCreate s entityName o = true) (hp : settleDocument o = some p)
    (hvalid' : validateCreate s entityName p = true) : ∀ x ∈ o.value.floats, ¬ Inexact x := by
  intro x hx hinexact
  obtain ⟨n, hq⟩ := (mem_floats hvalid).1 hx
  obtain ⟨es, hes, hofEntries⟩ := Option.bind_eq_some_iff.1 hp
  obtain rfl := FrozenJsonObject.ofEntries_eq_some.1 hofEntries
  obtain ⟨⟨n', w⟩, hw, hname, hsettle⟩ := exists_of_forall₂ (settleEntries_forall₂ hes) hq
  -- what arrives for it is an integer, and its field takes exact ones only
  obtain ⟨i, hspelled, hnot⟩ := spelledInteger_inexact hinexact
  rw [settle, settleFloat, hspelled] at hsettle
  dsimp only at hsettle hname
  split_ifs at hsettle with hrange
  obtain rfl := Option.some.inj hsettle
  obtain ⟨e, f, he, hf, hvalue⟩ := field_of_create hvalid hq
  obtain ⟨e', f', he', hf', hvalue'⟩ := field_of_create hvalid' hw
  obtain rfl := Option.some.inj (he.symm.trans he')
  dsimp only at hf hf' hvalue hvalue'
  rw [hname, hf, Option.some.injEq] at hf'
  subst hf'
  rw [validateValue, Bool.and_eq_true] at hvalue hvalue'
  · obtain ⟨htype, -⟩ := hvalue
    cases htype' : f.type <;> simp only [htype', matchesType, Bool.false_eq_true] at htype
    rw [htype'] at hvalue'
    exact hnot (of_decide_eq_true hvalue'.1)
  all_goals simp

end documents

/-! ## Members -/

/-- The documents of a member. -/
def documents : PortableStoreMember → List FrozenJsonObject
  | .record v => [v.fields]
  | .history g => g.before.toList ++ g.after.toList
  | _ => []

/-- What is asked of one record's events, by their versions and kinds. -/
def wholeHistory (current : Option Revision) (events : List (Revision × HistoryKind)) : Bool :=
  events.map (fun e => e.1.1) = List.range' 1 events.length && events.head?.any (fun e => e.2 = .create) &&
    events.tail.all (fun e => e.2 ≠ .create) && events.dropLast.all (fun e => e.2 ≠ .delete) &&
    events.getLast?.any fun last => decide (last.2 = .delete) = current.isNone && current.all fun n => n = last.1

section members

variable {s : RecordSpecification} {m m' : PortableStoreMember} {members members' : List PortableStoreMember}

theorem validHistory_eq (current : Option RecordValue) (events : List RecordHistoryEvent) :
    validHistory current events =
      wholeHistory (current.map (·.recordVersion)) (events.map fun g => (g.recordVersion, g.kind)) := by
  rw [validHistory, wholeHistory]
  rw [List.map_map, List.length_map, List.head?_map, Option.any_map, ← List.map_tail, List.all_map, ← List.map_dropLast,
    List.all_map, List.getLast?_map, Option.any_map]
  cases current <;> rfl

/-- What validation reads of the records of a whole store, and of its events. -/
structure ReadAlike (members' members : List PortableStoreMember) : Prop where
  keys : members'.map (·.sortKey) = members.map (·.sortKey)
  records : (recordsOf members').map (fun v => (v.identity, v.recordVersion)) =
    (recordsOf members).map fun v => (v.identity, v.recordVersion)
  histories : (historiesOf members').map (fun g => (g.identity, g.recordVersion, g.kind)) =
    (historiesOf members).map fun g => (g.identity, g.recordVersion, g.kind)
  branches : branchesOf members' = branchesOf members
  memberships : membershipsOf members' = membershipsOf members

/-- Members that equal others are like them. -/
theorem readAlike_of_equal (h : List.Forall₂ (fun a t => equalMembers a t = true) members' members) :
    ReadAlike members' members := by
  obtain ⟨hrecords, hhistories, hbranches, hmemberships⟩ := sections_of_equal h
  refine ⟨map_eq_of_forall₂ h fun a t hat => ?_, map_eq_of_forall₂ hrecords fun v w hvw => ?_,
    map_eq_of_forall₂ hhistories fun g k hgk => ?_, hbranches, hmemberships⟩
  · cases a <;> cases t <;> simp only [equalMembers, Bool.false_eq_true, equalRecords, equalEvents, Bool.and_eq_true,
      decide_eq_true_eq] at hat
    · simp [PortableStoreMember.sortKey, hat]
    · simp [PortableStoreMember.sortKey, hat]
    · rw [hat]
    · rw [hat]
  · simp only [equalRecords, Bool.and_eq_true, decide_eq_true_eq] at hvw
    simp [RecordValue.identity, hvw]
  · simp only [equalEvents, Bool.and_eq_true, decide_eq_true_eq] at hgk
    simp [RecordHistoryEvent.identity, hgk]

namespace ReadAlike

variable (h : ReadAlike members' members)

include h

theorem current (i : Identity) : ((recordsOf members').find? fun v => v.identity = i).map (·.recordVersion) =
    ((recordsOf members).find? fun v => v.identity = i).map (·.recordVersion) := by
  have hfind : ∀ l : List RecordValue, (l.find? fun v => v.identity = i).map (·.recordVersion) =
      ((l.map fun v => (v.identity, v.recordVersion)).find? fun p => p.1 = i).map Prod.snd := fun l => by
    rw [List.find?_map, Option.map_map]
    rfl
  rw [hfind, hfind, h.records]

theorem events (i : Identity) :
    ((historiesOf members').filter fun g => g.identity = i).map (fun g => (g.recordVersion, g.kind)) =
      ((historiesOf members).filter fun g => g.identity = i).map fun g => (g.recordVersion, g.kind) := by
  have hfilter : ∀ l : List RecordHistoryEvent,
      (l.filter fun g => g.identity = i).map (fun g => (g.recordVersion, g.kind)) =
        ((l.map fun g => (g.identity, g.recordVersion, g.kind)).filter fun p => p.1 = i).map Prod.snd := fun l => by
    rw [List.filter_map, List.map_map]
    rfl
  rw [hfilter, hfilter, h.histories]

theorem all_histories (f : Identity → Bool) :
    (historiesOf members').all (fun g => f g.identity) = (historiesOf members).all fun g => f g.identity := by
  have hall : ∀ l : List RecordHistoryEvent, l.all (fun g => f g.identity) =
      (l.map fun g => (g.identity, g.recordVersion, g.kind)).all fun p => f p.1 := fun l => by
    rw [List.all_map]
    rfl
  rw [hall, hall, h.histories]

theorem all_records (f : Identity → Bool) :
    (recordsOf members').all (fun v => f v.identity) = (recordsOf members).all fun v => f v.identity := by
  have hall : ∀ l : List RecordValue, l.all (fun v => f v.identity) =
      (l.map fun v => (v.identity, v.recordVersion)).all fun p => f p.1 := fun l => by
    rw [List.all_map]
    rfl
  rw [hall, hall, h.records]

theorem any_histories (i : Identity) :
    ((historiesOf members').any fun g => g.identity = i) = (historiesOf members).any fun g => g.identity = i := by
  have hnot := h.all_histories fun j => !decide (j = i)
  rw [← Bool.not_inj_iff, List.not_any_eq_all_not, List.not_any_eq_all_not]
  exact hnot

theorem any_records (i : Identity) :
    ((recordsOf members').any fun v => v.identity = i) = (recordsOf members).any fun v => v.identity = i := by
  have hnot := h.all_records fun j => !decide (j = i)
  rw [← Bool.not_inj_iff, List.not_any_eq_all_not, List.not_any_eq_all_not]
  exact hnot

/-- **Members that are like those of a whole store** are one, where each of
them is valid. -/
theorem validate (hvalid : validatePortableMembers members s = true) (hall : members'.all (validMember s) = true) :
    validatePortableMembers members' s = true := by
  have hlength : members'.length = members.length := by simpa using congrArg List.length h.keys
  have hhistories := h.all_histories fun i => wholeHistory
    (((recordsOf members).find? fun v => v.identity = i).map (·.recordVersion))
    (((historiesOf members).filter fun g => g.identity = i).map fun g => (g.recordVersion, g.kind))
  have hrecords := h.all_records fun i => (historiesOf members).any fun g => g.identity = i
  simp only [validatePortableMembers, Bool.and_eq_true, validHistory_eq] at hvalid ⊢
  simp only [hlength, h.keys, hall, h.current, h.events, h.any_histories, h.any_records, h.branches, h.memberships,
    hhistories, hrecords, and_true]
  tauto

end ReadAlike

/-- An optional document arrives. -/
theorem settleOptional_carried {entityName : String} {o : Option FrozenJsonObject}
    (hvalid : validSnapshot s entityName o = true) (hx : ∀ p ∈ o, ∀ x ∈ p.value.floats, ¬ Inexact x) :
    ∃ o', settleOptional o = some o' ∧ equalOptional o' o = true ∧ validSnapshot s entityName o' = true := by
  cases o with
  | none => exact ⟨none, rfl, rfl, rfl⟩
  | some p =>
    obtain ⟨p', hp', hequal, hvalid'⟩ := settleDocument_carried hvalid (hx p rfl)
    exact ⟨some p', by rw [settleOptional, hp', Option.map_some], hequal, hvalid'⟩

/-- **A valid member arrives** as an equal and valid one, where none of its
documents' floats is inexact. -/
theorem settleMember_carried (hvalid : validMember s m = true)
    (hx : ∀ o ∈ documents m, ∀ x ∈ o.value.floats, ¬ Inexact x) :
    ∃ m', settleMember m = some m' ∧ equalMembers m' m = true ∧ validMember s m' = true := by
  cases m with
  | record v =>
    obtain ⟨p, hp, hequal, hvalid'⟩ := settleDocument_carried hvalid (hx v.fields (List.mem_singleton_self _))
    have hdomain : p.names.all (fun n => !serverManaged n) = true := by
      rw [(equalFields_iff.1 hequal).1]
      exact v.domain
    refine ⟨.record { v with fields := p, domain := hdomain }, ?_, ?_, hvalid'⟩
    · simp only [settleMember, hp, Option.bind_eq_bind, Option.bind_some]
      rw [buildRecord, dif_pos ⟨v.entityName.2, v.recordVersion.2, v.createdVia.2, v.ordered, hdomain⟩]
      rfl
    · simp [equalMembers, equalRecords, hequal]
  | history g =>
    rw [validMember, Bool.and_eq_true, Bool.and_eq_true] at hvalid
    obtain ⟨before, hbefore, hequal, hvalid'⟩ := settleOptional_carried hvalid.1.2 fun p hp =>
      hx p (List.mem_append_left _ (Option.mem_toList.2 hp))
    obtain ⟨after, hafter, hequal', hvalid''⟩ := settleOptional_carried hvalid.2 fun p hp =>
      hx p (List.mem_append_right _ (Option.mem_toList.2 hp))
    have hbefore' := equalOptional_isNone hequal
    have hafter' := equalOptional_isNone hequal'
    have hcreated : g.kind = .create → before.isNone = true ∧ after.isSome = true := fun hkind =>
      ⟨by rw [hbefore'.1, (g.created hkind).1, Option.isNone_none], by rw [hafter'.2, (g.created hkind).2]⟩
    have hdeleted : g.kind = .delete → before.isSome = true ∧ after.isNone = true := fun hkind =>
      ⟨by rw [hbefore'.2, (g.deleted hkind).1], by rw [hafter'.1, (g.deleted hkind).2, Option.isNone_none]⟩
    refine ⟨.history { g with
      before := before
      after := after
      created := fun hkind => (hcreated hkind).imp_left Option.isNone_iff_eq_none.1
      deleted := fun hkind => (hdeleted hkind).imp_right Option.isNone_iff_eq_none.1 }, ?_, ?_, ?_⟩
    · simp only [settleMember, hbefore, hafter, Option.bind_eq_bind, Option.bind_some]
      rw [buildEvent, dif_pos ⟨g.entityName.2, g.recordVersion.2, hcreated, hdeleted⟩]
      rfl
    · simp [equalMembers, equalEvents, hequal, hequal']
    · rw [validMember, Bool.and_eq_true, Bool.and_eq_true]
      exact ⟨⟨hvalid.1.1, hvalid'⟩, hvalid''⟩
  | branch v => exact ⟨_, rfl, by simp [equalMembers], rfl⟩
  | branchMembership v => exact ⟨_, rfl, by simp [equalMembers], rfl⟩

theorem buildEvent_eq_some {entityName : String} {recordId : Uuid} {recordVersion : ℕ} {kind : HistoryKind}
    {occurredAt : Instant} {before after : Option FrozenJsonObject} {g : RecordHistoryEvent}
    (h : buildEvent entityName recordId recordVersion kind occurredAt before after = some g) :
    g.entityName.1 = entityName ∧ g.before = before ∧ g.after = after := by
  unfold buildEvent at h
  split_ifs at h
  obtain rfl := Option.some.inj h
  exact ⟨rfl, rfl, rfl⟩

theorem exact_of_settledOptional {entityName : String} {o o' : Option FrozenJsonObject}
    (hvalid : validSnapshot s entityName o = true) (ho : settleOptional o = some o')
    (hvalid' : validSnapshot s entityName o' = true) : ∀ p ∈ o, ∀ x ∈ p.value.floats, ¬ Inexact x := by
  rintro p rfl
  obtain ⟨p', hp', rfl⟩ := Option.map_eq_some_iff.1 ho
  exact exact_of_settled hvalid hp' hvalid'

/-- **A member that arrives valid** had no inexact float. -/
theorem exact_of_settledMember (hvalid : validMember s m = true) (hm : settleMember m = some m')
    (hvalid' : validMember s m' = true) : ∀ o ∈ documents m, ∀ x ∈ o.value.floats, ¬ Inexact x := by
  intro o ho
  cases m with
  | record v =>
    obtain ⟨p, hp, hbuild⟩ := Option.bind_eq_some_iff.1 hm
    obtain ⟨v', hv', rfl⟩ := Option.map_eq_some_iff.1 hbuild
    obtain ⟨hentity, -, -, -, -, -, rfl⟩ := buildRecord_eq_some hv'
    obtain rfl := List.mem_singleton.1 ho
    rw [validMember, hentity] at hvalid'
    exact exact_of_settled hvalid hp hvalid'
  | history g =>
    obtain ⟨before, hbefore, h⟩ := Option.bind_eq_some_iff.1 hm
    obtain ⟨after, hafter, hbuild⟩ := Option.bind_eq_some_iff.1 h
    obtain ⟨g', hg', rfl⟩ := Option.map_eq_some_iff.1 hbuild
    obtain ⟨hentity, rfl, rfl⟩ := buildEvent_eq_some hg'
    rw [validMember, Bool.and_eq_true, Bool.and_eq_true] at hvalid hvalid'
    rw [hentity] at hvalid'
    rcases List.mem_append.1 ho with ho | ho
    · exact exact_of_settledOptional hvalid.1.2 hbefore hvalid'.1.2 o (Option.mem_toList.1 ho)
    · exact exact_of_settledOptional hvalid.2 hafter hvalid'.2 o (Option.mem_toList.1 ho)
  | branch v => exact absurd ho List.not_mem_nil
  | branchMembership v => exact absurd ho List.not_mem_nil

/-- No float of the members' documents is inexact. -/
def AllExact (members : List PortableStoreMember) : Prop :=
  ∀ m ∈ members, ∀ o ∈ documents m, ∀ x ∈ o.value.floats, ¬ Inexact x

theorem settleMembers_carried (hvalid : members.all (validMember s) = true) (hexact : AllExact members) :
    ∃ members', members.mapM settleMember = some members' ∧
      List.Forall₂ (fun a t => equalMembers a t = true) members' members ∧ members'.all (validMember s) = true := by
  induction members with
  | nil => exact ⟨[], rfl, .nil, rfl⟩
  | cons m members ih =>
    rw [List.all_cons, Bool.and_eq_true] at hvalid
    rw [AllExact, List.forall_mem_cons] at hexact
    obtain ⟨m', hm', hequal, hvalid'⟩ := settleMember_carried hvalid.1 hexact.1
    obtain ⟨members', hmembers', hequals, hall⟩ := ih hvalid.2 hexact.2
    refine ⟨m' :: members', by simp [hm', hmembers'], .cons hequal hequals, ?_⟩
    rw [List.all_cons, hvalid', hall, Bool.and_self]

/-- **The members of a whole store arrive** as ones of a whole store just
where no float of theirs is inexact, and then as equal ones. -/
theorem settleMembers_iff (hvalid : validatePortableMembers members s = true) :
    ((∃ members', members.mapM settleMember = some members' ∧ validatePortableMembers members' s = true) ↔
      AllExact members) ∧
    ∀ members', members.mapM settleMember = some members' → validatePortableMembers members' s = true →
      List.Forall₂ (fun a t => equalMembers a t = true) members' members := by
  have hall : members.all (validMember s) = true := List.all_eq_true.2 fun m hm => valid_member hvalid hm
  have hexact : ∀ members', members.mapM settleMember = some members' →
      validatePortableMembers members' s = true → AllExact members := fun members' hmembers' hvalid' m hm => by
    obtain ⟨m', hm', hsettle⟩ := exists_of_forall₂ (mapM_eq_some hmembers') hm
    exact exact_of_settledMember (valid_member hvalid hm) hsettle (valid_member hvalid' hm')
  refine ⟨⟨?_, fun h => ?_⟩, fun members' hmembers' hvalid' => ?_⟩
  · rintro ⟨members', hmembers', hvalid'⟩
    exact hexact members' hmembers' hvalid'
  · obtain ⟨members', hmembers', hequal, hall'⟩ := settleMembers_carried hall h
    exact ⟨members', hmembers', (readAlike_of_equal hequal).validate hvalid hall'⟩
  · obtain ⟨members'', hmembers'', hequal, -⟩ := settleMembers_carried hall (hexact members' hmembers' hvalid')
    obtain rfl := Option.some.inj (hmembers'.symm.trans hmembers'')
    exact hequal

end members

end Transfer

end Aipcs
