import Aipcs.Data.Evidence
import Aipcs.Data.Recall

/-!
# Data — what stored fields are given back as

A record's fields go through the columns of its row, those of an event
through its documents, and either way they are completed and normalised
when they are read. What is given back equals, as Python compares, what was
stored just where no field had been left out and nothing on the way changes
a value: a datetime that PostgreSQL respells, a float that `jsonb` gives
back as an integer, or a size that the floats of integers go over.
-/

namespace Aipcs

namespace Data

open Manifest Portable Relational Records Registry

/-! ## Python's equality -/

mutual

/-- `==` of two frozen values. -/
def equalValues : PortableJson → PortableJson → Bool
  | .null, w => match w with
    | .null => true
    | _ => false
  | .arr items, w => match w with
    | .arr items' => equalItems items items'
    | _ => false
  | .obj entries, w => match w with
    | .obj entries' => equalEntries entries entries'
    | _ => false
  | v, w => (scalar v).any fun a => (scalar w).any a.equal

def equalItems : List PortableJson → List PortableJson → Bool
  | [], items => items.isEmpty
  | v :: rest, items => match items with
    | w :: rest' => equalValues v w && equalItems rest rest'
    | [] => false

def equalEntries : List (String × PortableJson) → List (String × PortableJson) → Bool
  | [], entries => entries.isEmpty
  | (name, v) :: rest, entries => match entries with
    | (name', w) :: rest' => name = name' && equalValues v w && equalEntries rest rest'
    | [] => false

end

/-- `==` of two objects. -/
def equalFields (o p : FrozenJsonObject) : Bool := equalEntries o.entries p.entries

mutual

theorem equalValues_self : ∀ v : PortableJson, equalValues v v = true
  | .null => rfl
  | .bool x => by simp [equalValues, scalar, AllowedValue.equal]
  | .int i => by simp [equalValues, scalar, AllowedValue.equal]
  | .float x => by simp [equalValues, scalar, AllowedValue.equal]
  | .str s => by simp [equalValues, scalar, AllowedValue.equal]
  | .arr items => equalItems_self items
  | .obj entries => equalEntries_self entries

theorem equalItems_self : ∀ items : List PortableJson, equalItems items items = true
  | [] => rfl
  | v :: rest => by
    rw [equalItems, equalValues_self v, equalItems_self rest, Bool.and_self]

theorem equalEntries_self : ∀ entries : List (String × PortableJson), equalEntries entries entries = true
  | [] => rfl
  | (name, v) :: rest => by
    rw [equalEntries, equalValues_self v, equalEntries_self rest]
    simp

end

theorem equalEntries_iff {es es' : List (String × PortableJson)} : equalEntries es es' = true ↔
    List.Forall₂ (fun p q => p.1 = q.1 ∧ equalValues p.2 q.2 = true) es es' := by
  induction es generalizing es' with
  | nil => cases es' <;> simp [equalEntries]
  | cons p es ih =>
    obtain ⟨name, v⟩ := p
    cases es' with
    | nil => simp [equalEntries]
    | cons q es' => simp [equalEntries, List.forall₂_cons, ih]

/-- **Equal objects** have one set of names, and under each equal values. -/
theorem equalFields_iff {o p : FrozenJsonObject} : equalFields o p = true ↔
    o.names = p.names ∧ ∀ n v w, o.get? n = some v → p.get? n = some w → equalValues v w = true := by
  rw [equalFields, equalEntries_iff]
  constructor
  · intro h
    have hnames : o.names = p.names := by
      rw [FrozenJsonObject.names, FrozenJsonObject.names, ← List.forall₂_eq_eq_eq, List.forall₂_map_left_iff,
        List.forall₂_map_right_iff]
      exact h.imp fun _ _ hpq => hpq.1
    refine ⟨hnames, fun n v w hv hw => ?_⟩
    have hv' := (lookup_eq_some_iff_mem o.nodup_names).1 hv
    have hw' := (lookup_eq_some_iff_mem p.nodup_names).1 hw
    obtain ⟨i, hi, hget⟩ := List.getElem_of_mem hv'
    have hi' : i < p.entries.length := h.length_eq ▸ hi
    obtain ⟨hname, hequal⟩ := (List.forall₂_iff_get.1 h).2 i hi hi'
    simp only [List.get_eq_getElem, hget] at hname hequal
    have hq : p.entries[i] = (n, w) := List.inj_on_of_nodup_map p.nodup_names (List.getElem_mem hi') hw' hname.symm
    rwa [hq] at hequal
  · rintro ⟨hnames, hvalues⟩
    have hlength : o.entries.length = p.entries.length := by simpa [FrozenJsonObject.names] using congrArg List.length hnames
    refine List.forall₂_iff_get.2 ⟨hlength, fun i hi hi' => ?_⟩
    have hname : o.entries[i].1 = p.entries[i].1 := by
      have hget : o.names[i]? = p.names[i]? := by rw [hnames]
      simpa [FrozenJsonObject.names, hi, hi'] using hget
    refine ⟨hname, hvalues p.entries[i].1 _ _ ?_ ?_⟩
    · exact (lookup_eq_some_iff_mem o.nodup_names).2 (hname ▸ List.getElem_mem hi)
    · exact (lookup_eq_some_iff_mem p.nodup_names).2 (List.getElem_mem hi')

/-! ## What is given back of a value -/

/-- What is given back of a field's value: an integer in a number field as
the float that it is, a zero without its sign, a datetime as the store
spells it. -/
def givenBack (unsigned respelled : Bool) (f : RecordField) : PortableJson → PortableJson
  | .int i => if f.type = .number then ((toFloat i.1).map .float).getD (.int i) else .int i
  | .float x => .float (if unsigned then unsignedZero x else x)
  | .str text =>
    if respelled ∧ f.type = .datetime then ((parseDatetime text).map fun t => .str (isoText t)).getD (.str text)
    else .str text
  | v => v

section values

variable {b : StorageBackend} {unsigned respelled : Bool} {f : RecordField} {v w : PortableJson} {i : Signed64}
  {x : FiniteFloat} {c : SqlValue}

/-- The bits of an exact integer's float. -/
theorem exists_bits_of_exact (hi : isExactInteger i.1) : ∃ bits, bits < infBits ∧ units bits = i.1.natAbs * unit ∧
    (Binary64.ofSignedDecimal (decide (i.1 < 0)) i.1.natAbs 0).bits = bits := by
  have hle : i.1.natAbs ≤ 2 ^ 53 := by
    obtain ⟨hlow, hhigh⟩ := hi
    rw [IEEE_754_EXACT_INTEGER_MAX] at hlow hhigh
    omega
  obtain ⟨bits, hbits, hunits⟩ := exists_units_eq hle
  refine ⟨bits, hbits, hunits, ?_⟩
  rw [bits_ofSignedDecimal]
  exact ofDecimal_int le_rfl (by rw [Int.toNat_zero, pow_zero, Nat.mul_one]) hbits hunits

/-- **An exact integer's float** has its value, and is kept by either store. -/
theorem exists_toFloat (hi : isExactInteger i.1) :
    ∃ x, toFloat i.1 = some x ∧ x.1.signedUnits = i.1 * unit ∧ unsignedZero x = x := by
  obtain ⟨bits, hbits, hunits, heq⟩ := exists_bits_of_exact hi
  have hfinite : (Binary64.ofSignedDecimal (decide (i.1 < 0)) i.1.natAbs 0).Finite := by
    rw [Binary64.Finite, heq]
    exact hbits
  have hx : toFloat i.1 = some ⟨_, hfinite⟩ := by
    unfold toFloat
    dsimp only
    rw [dif_pos hfinite]
  refine ⟨_, hx, ?_, (kept_of_exact hi (toFloat_eq_some hx)).2⟩
  have hneg : (Binary64.ofSignedDecimal (decide (i.1 < 0)) i.1.natAbs 0).neg = decide (i.1 < 0) := by
    rw [Binary64.ofSignedDecimal]
  rw [Binary64.signedUnits, heq, hunits, hneg]
  by_cases hlt : i.1 < 0
  · rw [if_pos (decide_eq_true hlt), Nat.cast_mul, Int.ofNat_natAbs_of_nonpos (by omega), Int.neg_mul, Int.neg_neg]
  · rw [if_neg (by simpa using hlt), Nat.cast_mul, Int.natAbs_of_nonneg (by omega)]

theorem signedUnits_unsignedZero (x : FiniteFloat) : (unsignedZero x).1.signedUnits = x.1.signedUnits := by
  by_cases h : x.1.bits = 0
  · have hzero : ∀ y : FiniteFloat, y.1.bits = 0 → y.1.signedUnits = 0 := fun y hy => by
      rw [Binary64.signedUnits, hy, units_zero]
      split_ifs <;> rfl
    rw [hzero x h, unsignedZero, if_pos h, hzero positiveZero rfl]
  · rw [unsignedZero_of_ne h]

/-- A value of the field's type: null, or one that `_matches_type` takes. -/
def Typed (f : RecordField) (v : PortableJson) : Prop := v = .null ∨ Records.matchesType v f.type = true

theorem Typed.exact (h : Typed f (.int i)) (hf : f.type = .number) : isExactInteger i.1 := by
  rcases h with h | h
  · exact absurd h (by simp)
  · rw [hf] at h
    exact of_decide_eq_true h

/-- A datetime that is spelled as the store spells it is left alone. -/
theorem givenBack_of_spelled (h : respelled = true → f.type = .datetime → ∀ text, v = .str text → Spelled text) :
    givenBack unsigned respelled f v = givenBack unsigned false f v := by
  cases v with
  | str text =>
    by_cases hf : respelled = true ∧ f.type = .datetime
    · have htext := h hf.1 hf.2 text rfl
      obtain ⟨t, ht, heq⟩ := Option.map_eq_some_iff.1 htext
      simp [givenBack, hf, ht, heq]
    · simp [givenBack, hf]
  | _ => rfl

/-- **What is given back equals the value**, where no datetime is respelled. -/
theorem equalValues_givenBack (h : Typed f v) : equalValues (givenBack unsigned false f v) v = true := by
  cases v with
  | int i =>
    by_cases hf : f.type = .number
    · obtain ⟨x, hx, hunits, -⟩ := exists_toFloat (h.exact hf)
      simp [givenBack, hf, hx, equalValues, scalar, AllowedValue.equal, AllowedValue.number, x.2, hunits]
    · rw [givenBack, if_neg hf]
      exact equalValues_self _
  | float x =>
    cases unsigned
    · exact equalValues_self _
    · simp [givenBack, equalValues, scalar, AllowedValue.equal, AllowedValue.number, x.2, (unsignedZero x).2,
        signedUnits_unsignedZero]
  | str text =>
    rw [givenBack, if_neg (by simp)]
    exact equalValues_self _
  | _ => exact equalValues_self _

/-- What equals a text is the text. -/
theorem equalValues_str {text : String} (h : equalValues w (.str text) = true) : w = .str text := by
  cases w <;> simp_all [equalValues, scalar, AllowedValue.equal, AllowedValue.number]

/-- **A column gives back** of what is written to it. -/
theorem decodeField_columnValue (hv : validateJson v = true) (htype : Typed f v) (h : encodeField b f v = some c) :
    decodeField b f (columnValue b c) = some (givenBack (decide (b = .sqlite)) (decide (b = .postgresql)) f v) := by
  cases v with
  | null =>
    obtain rfl := Option.some.inj h
    rfl
  | bool x =>
    cases hf : f.type <;> simp only [encodeField, hf, reduceCtorEq] at h
    obtain rfl := Option.some.inj h
    cases b <;> cases x <;> simp [columnValue, decodeField, givenBack, hf]
  | int i =>
    cases hf : f.type <;> simp only [encodeField, hf, reduceCtorEq] at h
    · obtain rfl := Option.some.inj h
      simp [columnValue, decodeField, givenBack, hf]
    · obtain ⟨x, hx, -, hzero⟩ := exists_toFloat (htype.exact hf)
      rw [if_pos (htype.exact hf), hx] at h
      obtain rfl := Option.some.inj h
      cases b <;> simp [columnValue, decodeField, givenBack, hf, hx, hzero]
  | float x =>
    cases hf : f.type <;> simp only [encodeField, hf, reduceCtorEq] at h
    obtain rfl := Option.some.inj h
    cases b <;> simp [columnValue, decodeField, givenBack, hf]
  | str text =>
    cases hf : f.type <;> simp only [encodeField, hf, reduceCtorEq] at h
    case string =>
      obtain rfl := Option.some.inj h
      simp [columnValue, decodeField, givenBack, hf]
    case datetime =>
      split_ifs at h with hb
      · obtain rfl := Option.some.inj h
        simp [columnValue, decodeField, givenBack, hf, hb]
      · obtain ⟨t, ht, rfl⟩ := Option.map_eq_some_iff.1 h
        cases b <;> simp_all [columnValue, decodeField, givenBack]
    case uuid =>
      split_ifs at h with hb
      · obtain rfl := Option.some.inj h
        simp [columnValue, decodeField, givenBack, hf, hb]
      · obtain ⟨u, hu, rfl⟩ := Option.map_eq_some_iff.1 h
        have htext := Uuid.text_of_ofText hu
        cases b <;> simp_all [columnValue, decodeField, givenBack]
  | arr items =>
    cases hf : f.type <;> simp only [encodeField, hf, reduceCtorEq] at h
    obtain rfl := Option.some.inj h
    have hload : loadJson b (storeJson b (.arr items)) = some (.arr items) := by
      cases b with
      | sqlite => exact loadJson_storeJson_sqlite hv
      | postgresql =>
        rw [loadJson_storeJson_postgresql hv, read_of_kept (kept_of_matchesType htype fun x hx => absurd hx (by simp)),
          Option.bind_some, freezeValue_thawJson hv]
    simp only [columnValue, decodeField, hf, hload, givenBack]
  | obj entries => cases hf : f.type <;> simp [encodeField, hf] at h

end values

/-! ## Given back, and checked again -/

section fields

variable {b : StorageBackend} {s : RecordSpecification} {entityName : String} {e : RecordEntity}
  {unsigned respelled : Bool} {f : RecordField} {v : PortableJson} {o p : FrozenJsonObject}
  {cells : List (String × SqlValue)}

theorem equal_of_number {a a' w : AllowedValue} (hsome : a.number.isSome = true) (heq : a'.number = a.number)
    (h : a.equal w = true) : a'.equal w = true := by
  rw [AllowedValue.equal, Bool.or_eq_true, Bool.and_eq_true, decide_eq_true_eq, decide_eq_true_eq] at h ⊢
  refine .inr ⟨heq ▸ hsome, ?_⟩
  rcases h with rfl | ⟨-, h⟩
  · exact heq
  · exact heq.trans h

/-- **What is given back of a value passes the check** that the value has passed. -/
theorem validateValue_givenBack (h : validateValue f v = true) :
    validateValue f (givenBack unsigned false f v) = true := by
  have hnumber : ∀ (x : FiniteFloat) (w : PortableJson) (a : AllowedValue), f.type = .number → scalar w = some a →
      (AllowedValue.float x.1).number = a.number → a.number.isSome = true →
      (f.allowedValues.all fun values => matchesEnumeration values w f.type) = true →
      (f.allowedValues.all fun values => matchesEnumeration values (.float x) f.type) = true := by
    intro x w a hf hw heq hsome hall
    rw [hf] at hall ⊢
    refine (Option.all_eq_true _ _).2 fun values hvalues => ?_
    have hw' := (Option.all_eq_true _ _).1 hall values hvalues
    simp only [matchesEnumeration, allowed, hw, Option.any_some, List.any_eq_true] at hw'
    obtain ⟨y, hy, hequal⟩ := hw'
    exact List.any_eq_true.2 ⟨y, hy, equal_of_number hsome heq hequal⟩
  cases v with
  | int i =>
    by_cases hf : f.type = .number
    · rw [validateValue, Bool.and_eq_true] at h
      · have hexact : isExactInteger i.1 := Typed.exact (.inr h.1) hf
        obtain ⟨x, hx, hunits, -⟩ := exists_toFloat hexact
        rw [givenBack, if_pos hf, hx, Option.map_some, Option.getD_some, validateValue, Bool.and_eq_true]
        · refine ⟨by rw [hf]; rfl, hnumber x _ (.int i.1) hf rfl ?_ rfl h.2⟩
          simp [AllowedValue.number, x.2, hunits]
        · simp
      · simp
    · rwa [givenBack, if_neg hf]
  | float x =>
    cases unsigned
    · exact h
    · rw [validateValue, Bool.and_eq_true] at h
      · have hf : f.type = .number := by
          cases hf : f.type <;> simp [matchesType, hf] at h
          rfl
        rw [givenBack, validateValue, Bool.and_eq_true]
        · refine ⟨by rw [hf]; rfl, hnumber _ _ (.float x.1) hf rfl ?_ (by simp [AllowedValue.number, x.2]) h.2⟩
          simp [AllowedValue.number, x.2, (unsignedZero x).2, signedUnits_unsignedZero]
        · simp
      · simp
  | str text => rwa [givenBack, if_neg (by simp)]
  | _ => exact h

/-- The fields with each value as it is given back, those left out as nothing. -/
def givenFields (unsigned respelled : Bool) (e : RecordEntity) (o : FrozenJsonObject) : Option FrozenJsonObject :=
  FrozenJsonObject.fromMapping
    (e.domainFields.map fun f => (f.name, givenBack unsigned respelled f (fieldValue o f)))

/-- Nothing has been left out, and what is given back is within bounds. -/
structure AllGiven (unsigned : Bool) (e : RecordEntity) (o : FrozenJsonObject) : Prop where
  named : ∀ f ∈ e.domainFields, f.name ∈ o.names
  fits : (givenFields unsigned false e o).isSome = true

theorem collect_some {β : Type} (g : RecordField → β) (fields : List RecordField) :
    collect (fun f => some (g f)) fields = some (fields.map fun f => (f.name, g f)) := by
  induction fields with
  | nil => rfl
  | cons f rest ih =>
    rw [collect, ih]
    rfl

theorem fieldValue_of_named (hnamed : f.name ∈ o.names) : o.get? f.name = some (fieldValue o f) := by
  obtain ⟨entry, hentry, hname⟩ := List.mem_map.1 hnamed
  have hget : o.get? f.name = some entry.2 := (lookup_eq_some_iff_mem o.nodup_names).2 (hname ▸ hentry)
  rw [fieldValue, hget, Option.getD_some]

section checked

variable (hvalid : validateCreate s entityName o = true) (he : s.entity entityName = some e)

include hvalid he

/-- A field of a checked object has a value that has passed its check. -/
theorem validateValue_of_create (hnodup : (e.domainFields.map (·.name)).Nodup) (hf : f ∈ e.domainFields)
    (hnamed : f.name ∈ o.names) : validateValue f (fieldValue o f) = true := by
  obtain ⟨e', he', hall⟩ := validateRecord_entity hvalid
  obtain rfl := Option.some.inj (he.symm.trans he')
  have hentry := List.all_eq_true.1 hall _ ((lookup_eq_some_iff_mem o.nodup_names).1 (fieldValue_of_named hnamed))
  rwa [validateEntry, (find?_name_eq_some_iff hnodup).2 ⟨hf, rfl⟩, Option.any_some] at hentry

theorem typed_of_create (hnodup : (e.domainFields.map (·.name)).Nodup) (hf : f ∈ e.domainFields)
    (hnamed : f.name ∈ o.names) : Typed f (fieldValue o f) := by
  have hvalue := validateValue_of_create hvalid he hnodup hf hnamed
  by_cases hnull : fieldValue o f = .null
  · exact .inl hnull
  · rw [validateValue, Bool.and_eq_true] at hvalue
    · exact .inr hvalue.1
    · exact hnull

/-- The names of a checked object are those of fields. -/
theorem named_of_create {n : String} (hn : n ∈ o.names) : ∃ f ∈ e.domainFields, f.name = n := by
  obtain ⟨e', he', hall⟩ := validateRecord_entity hvalid
  obtain rfl := Option.some.inj (he.symm.trans he')
  obtain ⟨entry, hentry, rfl⟩ := List.mem_map.1 hn
  have hfound := List.all_eq_true.1 hall _ hentry
  rw [validateEntry, Option.any_eq_true] at hfound
  obtain ⟨f, hf, -⟩ := hfound
  exact ⟨f, List.mem_of_find?_eq_some hf, by simpa using List.find?_some hf⟩

/-- **What is given back of complete fields** is normalised, and equals them. -/
theorem givenFields_normalised (hnamed : ∀ f ∈ e.domainFields, f.name ∈ o.names)
    (hp : givenFields unsigned false e o = some p) : Normalised s entityName e p ∧ equalFields p o = true ∧
      ∀ f ∈ e.domainFields, fieldValue p f = givenBack unsigned false f (fieldValue o f) := by
  obtain ⟨hnodup, hvalue, hothers⟩ := get?_of_collect (collect_some _ _) hp
  have hget : ∀ f ∈ e.domainFields, p.get? f.name = some (givenBack unsigned false f (fieldValue o f)) :=
    fun f hf => by
      obtain ⟨v, hv, hget⟩ := hvalue f hf
      rw [hget, ← hv]
  have hfound : ∀ n v, p.get? n = some v → ∃ f ∈ e.domainFields, f.name = n ∧
      v = givenBack unsigned false f (fieldValue o f) := fun n v hv => by
    by_cases hn : n ∈ e.domainFields.map (·.name)
    · obtain ⟨f, hf, rfl⟩ := List.mem_map.1 hn
      exact ⟨f, hf, rfl, Option.some.inj (hv.symm.trans (hget f hf))⟩
    · exact absurd (hv.symm.trans (hothers n hn)) (by simp)
  have hchecked := fun f hf => validateValue_of_create hvalid he hnodup hf (hnamed f hf)
  refine ⟨⟨he, hnodup, fun f hf => ⟨_, hget f hf, fun htype i hi => ?_⟩, hothers, ?_⟩, ?_, fun f hf => ?_⟩
  · -- the float of an integer is not one
    have htyped := typed_of_create hvalid he hnodup hf (hnamed f hf)
    cases hv : fieldValue o f with
    | int j =>
      rw [hv] at htyped hi
      obtain ⟨x, hx, -⟩ := exists_toFloat (htyped.exact htype)
      simp [givenBack, htype, hx] at hi
    | _ => simp [givenBack, hv] at hi
  · simp only [validateCreate, validateRecord, he, Bool.false_and, Bool.not_false, Bool.true_and, Bool.not_true,
      Bool.false_or, Bool.and_eq_true, List.all_eq_true, Bool.or_eq_true, List.contains_eq_mem, decide_eq_true_eq]
    refine ⟨fun entry hentry => ?_, fun f hf => .inr ?_⟩
    · obtain ⟨f, hf, hname, hv⟩ := hfound entry.1 entry.2 ((lookup_eq_some_iff_mem p.nodup_names).2 hentry)
      rw [validateEntry, (find?_name_eq_some_iff hnodup).2 ⟨hf, hname⟩, Option.any_some, hv]
      exact validateValue_givenBack (hchecked f hf)
    · exact List.mem_map_of_mem ((lookup_eq_some_iff_mem p.nodup_names).1 (hget f hf))
  · refine equalFields_iff.2 ⟨?_, fun n v w hv hw => ?_⟩
    · refine (List.perm_ext_iff_of_nodup p.nodup_names o.nodup_names).2 (fun n => ?_) |>.eq_of_pairwise
        (fun a b _ _ hab hba => le_antisymm (le_of_lt hab) (le_of_lt hba)) p.pairwise_names o.pairwise_names
      constructor
      · intro hn
        obtain ⟨entry, hentry, rfl⟩ := List.mem_map.1 hn
        obtain ⟨f, hf, hname, -⟩ := hfound entry.1 entry.2 ((lookup_eq_some_iff_mem p.nodup_names).2 hentry)
        exact hname ▸ hnamed f hf
      · intro hn
        obtain ⟨f, hf, rfl⟩ := named_of_create hvalid he hn
        exact List.mem_map_of_mem ((lookup_eq_some_iff_mem p.nodup_names).1 (hget f hf))
    · obtain ⟨f, hf, rfl, rfl⟩ := hfound n v hv
      obtain rfl := Option.some.inj (hw.symm.trans (fieldValue_of_named (hnamed f hf)))
      exact equalValues_givenBack (typed_of_create hvalid he hnodup hf (hnamed f hf))
  · rw [fieldValue, hget f hf, Option.getD_some]

end checked

/-! ## Columns -/

/-- **A row's fields equal those it was written from** just where none had
been left out, and every datetime is spelled as PostgreSQL spells it. -/
theorem decodeFields_equal_iff (hvalid : validateCreate s entityName o = true) (he : s.entity entityName = some e)
    (hcells : encodeFields b e o = some cells) :
    (∃ p, decodeFields b s entityName cells = some p ∧ equalFields p o = true) ↔
      AllGiven (decide (b = .sqlite)) e o ∧ (b = .postgresql → AllSpelled e o) := by
  have hcell : (e.domainFields.map (·.name)).Nodup → ∀ f ∈ e.domainFields, f.name ∈ o.names →
      decodeField b f (cellOf cells f.name) =
        some (givenBack (decide (b = .sqlite)) (decide (b = .postgresql)) f (fieldValue o f)) :=
    fun hnodup f hf hnamed => by
      obtain ⟨c, hc, hlookup⟩ := lookup_collect hcells hnodup hf
      obtain ⟨c', hc', rfl⟩ := Option.map_eq_some_iff.1 hc
      rw [cellOf, hlookup, Option.getD_some]
      exact decodeField_columnValue (validateJson_of_get? (fieldValue_of_named hnamed))
        (typed_of_create hvalid he hnodup hf hnamed) hc'
  constructor
  · rintro ⟨p, hp, hequal⟩
    obtain ⟨o', ho', hnormal⟩ := Option.bind_eq_some_iff.1 hp
    obtain ⟨e', he', values, hvalues, hmapping, -⟩ := recordFields_eq_some.1 ho'
    obtain rfl := Option.some.inj (he.symm.trans he')
    obtain ⟨e', hp', hnormalised⟩ := normaliseFields_normalised hnormal
    obtain rfl := Option.some.inj (he.symm.trans hp'.entity)
    obtain ⟨hnodup, hvalue, -⟩ := get?_of_collect hvalues hmapping
    obtain ⟨hnames, hequals⟩ := equalFields_iff.1 hequal
    have hnamed : ∀ f ∈ e.domainFields, f.name ∈ o.names := fun f hf => by
      rw [← hnames]
      exact List.mem_map_of_mem ((lookup_eq_some_iff_mem p.nodup_names).1 (hp'.fieldValue_eq hf).1)
    have hback := fun f hf => hcell hnodup f hf (hnamed f hf)
    -- what is read of a field, before and after it is normalised
    have hread : ∀ f ∈ e.domainFields, p.get? f.name =
        some (givenBack (decide (b = .sqlite)) (decide (b = .postgresql)) f (fieldValue o f)) := fun f hf => by
      obtain ⟨w, hw, hget⟩ := hvalue f hf
      rw [← hnormalised f hf, fieldValue, hget, Option.getD_some, normaliseValue_of_normal (normal_decodeField hw), ← hw,
        hback f hf]
    have hspelled : b = .postgresql → AllSpelled e o := by
      rintro rfl f hf htype text htext
      have hfv : fieldValue o f = .str text := by rw [fieldValue, htext, Option.getD_some]
      have htyped := typed_of_create hvalid he hnodup hf (hnamed f hf)
      rw [hfv] at htyped
      rcases htyped with hnull | hmatches
      · exact absurd hnull (by simp)
      · rw [htype] at hmatches
        obtain ⟨t, ht⟩ := Option.isSome_iff_exists.1 (show (parseDatetime text).isSome = true from hmatches)
        have hget := hread f hf
        rw [hfv] at hget
        have hsame := hequals f.name _ _ hget htext
        simp only [givenBack, htype, ht, decide_true, and_self, if_true, Option.map_some, Option.getD_some] at hsame
        rw [Spelled, ht, Option.map_some, PortableJson.str.inj (equalValues_str hsame)]
    refine ⟨⟨hnamed, ?_⟩, hspelled⟩
    have hsome : collect (fun f => decodeField b f (cellOf cells f.name)) e.domainFields =
        some (e.domainFields.map fun f => (f.name, givenBack (decide (b = .sqlite)) false f (fieldValue o f))) := by
      rw [← collect_some fun f => givenBack (decide (b = .sqlite)) false f (fieldValue o f)]
      refine collect_congr fun f hf => (hback f hf).trans (congrArg some (givenBack_of_spelled ?_))
      rintro hb htype text hv
      refine hspelled (of_decide_eq_true hb) f hf htype text ?_
      rw [fieldValue_of_named (hnamed f hf), hv]
    rw [hsome] at hvalues
    obtain rfl := Option.some.inj hvalues
    rw [givenFields, hmapping, Option.isSome_some]
  · rintro ⟨⟨hnamed, hfits⟩, hspelled⟩
    obtain ⟨p, hp⟩ := Option.isSome_iff_exists.1 hfits
    obtain ⟨hnormal, hequal, -⟩ := givenFields_normalised hvalid he hnamed hp
    refine ⟨p, ?_, hequal⟩
    have hsome : collect (fun f => decodeField b f (cellOf cells f.name)) e.domainFields =
        some (e.domainFields.map fun f => (f.name, givenBack (decide (b = .sqlite)) false f (fieldValue o f))) := by
      rw [← collect_some fun f => givenBack (decide (b = .sqlite)) false f (fieldValue o f)]
      refine collect_congr fun f hf => (hcell hnormal.nodup f hf (hnamed f hf)).trans
        (congrArg some (givenBack_of_spelled ?_))
      rintro hb htype text hv
      refine hspelled (of_decide_eq_true hb) f hf htype text ?_
      rw [fieldValue_of_named (hnamed f hf), hv]
    rw [decodeFields, recordFields_eq_some.2 ⟨e, he, _, hsome, hp, hnormal.valid⟩, Option.bind_some,
      hnormal.normaliseFields_self]

end fields

/-! ## Documents -/

/-- An object's entries, zeros without their signs. -/
def plainEntries (entries : List (String × PortableJson)) : List (String × PortableJson) :=
  entries.map fun p => (p.1, plainValue p.2)

section plain

variable {entries : List (String × PortableJson)} {v w : PortableJson} {raw : PyVal} {f : RecordField}

theorem length_utf8Encode_append (s t : List Char) :
    (utf8Encode (s ++ t)).length = (utf8Encode s).length + (utf8Encode t).length := by
  rw [utf8Encode_append, List.length_append]

theorem length_utf8Encode_cons (c : Char) (t : List Char) :
    (utf8Encode (c :: t)).length = (utf8Encode [c]).length + (utf8Encode t).length :=
  length_utf8Encode_append [c] t

theorem length_joinComma_le {xs ys : List (List Char)}
    (h : List.Forall₂ (fun x y => (utf8Encode x).length ≤ (utf8Encode y).length) xs ys) :
    (utf8Encode (joinComma xs)).length ≤ (utf8Encode (joinComma ys)).length := by
  induction h with
  | nil => exact le_rfl
  | @cons x y xs ys hxy hrest ih =>
    rw [joinComma_cons, joinComma_cons, length_utf8Encode_append, length_utf8Encode_append]
    refine Nat.add_le_add hxy ?_
    have hnil : xs = [] ↔ ys = [] := by rw [← List.length_eq_zero_iff, ← List.length_eq_zero_iff, hrest.length_eq]
    by_cases hxs : xs = []
    · rw [if_pos hxs, if_pos (hnil.1 hxs)]
    · rw [if_neg hxs, if_neg fun hys => hxs (hnil.2 hys), length_utf8Encode_cons, length_utf8Encode_cons _ (joinComma ys)]
      exact Nat.add_le_add_left ih _

/-- A zero's sign takes room. -/
theorem length_print_plainValue (v : PortableJson) :
    (utf8Encode (dumpsStyle.print (plainValue v))).length ≤ (utf8Encode (dumpsStyle.print v)).length := by
  cases v with
  | float x =>
    by_cases h : x.1.bits = 0
    · have htext : ∀ y : FiniteFloat, y.1.bits = 0 →
          dumpsStyle.print (.float y) = (if y.1.neg then ['-'] else []) ++ ['0', '.', '0'] := fun y hy => by
        have hy' := reprLiteral_text y
        rwa [if_pos hy] at hy'
      rw [plainValue, unsignedZero, if_pos h, htext x h, htext positiveZero rfl, length_utf8Encode_append,
        length_utf8Encode_append]
      exact Nat.add_le_add_right (Nat.zero_le _) _
    · rw [plainValue, unsignedZero_of_ne h]
  | _ => exact le_rfl

theorem jsonSize_plainEntries : jsonSize (.obj (plainEntries entries)) ≤ jsonSize (.obj entries) := by
  have hprint : List.Forall₂ (fun x y => (utf8Encode x).length ≤ (utf8Encode y).length)
      (dumpsStyle.printEntries (plainEntries entries)) (dumpsStyle.printEntries entries) := by
    induction entries with
    | nil => exact .nil
    | cons p rest ih =>
      refine .cons ?_ ih
      rw [length_utf8Encode_append, length_utf8Encode_append, length_utf8Encode_cons,
        length_utf8Encode_cons _ (dumpsStyle.print p.2)]
      exact Nat.add_le_add_left (Nat.add_le_add_left (length_print_plainValue p.2) _) _
  rw [jsonSize, jsonSize, dumps, dumps, JsonStyle.print, JsonStyle.print, length_utf8Encode_cons,
    length_utf8Encode_append, length_utf8Encode_cons _ (joinComma _ ++ _), length_utf8Encode_append]
  exact Nat.add_le_add_left (Nat.add_le_add_right (length_joinComma_le hprint) _) _

theorem validateEntries_plainEntries (h : validateEntries entries = true) :
    validateEntries (plainEntries entries) = true := by
  induction entries with
  | nil => rfl
  | cons p rest ih =>
    rw [validateEntries, Bool.and_eq_true] at h
    refine (validateEntries.eq_2 ..).trans ?_
    rw [Bool.and_eq_true]
    refine ⟨?_, ih h.2⟩
    cases hv : p.2 <;> simp_all [plainValue, validateJson]

/-- **The object without the signs of its zeros** is one. -/
theorem exists_plain (o : FrozenJsonObject) : ∃ p : FrozenJsonObject, p.entries = plainEntries o.entries := by
  have h := o.frozen
  rw [validateJson, Bool.and_eq_true, Bool.and_eq_true, decide_eq_true_eq] at h
  refine ⟨⟨plainEntries o.entries, ?_⟩, rfl⟩
  have hnames : (plainEntries o.entries).map Prod.fst = o.entries.map Prod.fst := by
    rw [plainEntries, List.map_map]
    rfl
  rw [validateJson, Bool.and_eq_true, Bool.and_eq_true, decide_eq_true_eq, hnames]
  exact ⟨⟨h.1.1, validateEntries_plainEntries h.1.2⟩, jsonSize_plainEntries.trans h.2⟩

/-- **What `jsonb` gives back of a value**, where its float is below `10¹⁶`. -/
theorem read_jsonbStyle (htype : Typed f v) (hbelow : ∀ x, v = .float x → Below1e16 x) :
    jsonbStyle.read v = some (thawJson (plainValue v)) := by
  cases v with
  | float x => exact numberValue_jsonbLiteral (hbelow x rfl)
  | _ => exact read_of_kept (kept_of_matchesType htype fun x hx => absurd hx (by simp))

theorem readEntries_plainEntries (h : ∀ p ∈ entries, jsonbStyle.read p.2 = some (thawJson (plainValue p.2))) :
    jsonbStyle.readEntries entries = some (thawEntries (plainEntries entries)) := by
  induction entries with
  | nil => rfl
  | cons p rest ih =>
    rw [JsonStyle.readEntries, h p List.mem_cons_self, ih fun q hq => h q (List.mem_cons_of_mem _ hq)]
    rfl

/-- What is read of a value and frozen, where it passes the check again. -/
theorem plainValue_of_read (htype : Typed f v) (hread : jsonbStyle.read v = some raw) (hfreeze : freezeValue raw = some w)
    (hw : ∃ u, normaliseValue f w = some u) (hvalid : validateJson v = true) :
    (∀ x, v = .float x → Below1e16 x) ∧ w = plainValue v := by
  have hbelow : ∀ x, v = .float x → Below1e16 x := by
    rintro x rfl
    by_contra hlarge
    obtain ⟨i, rfl, hi⟩ := numberValue_jsonbLiteral_large hlarge hread
    rw [freezeValue] at hfreeze
    split_ifs at hfreeze
    obtain rfl := Option.some.inj hfreeze
    have hf : f.type = .number := by
      rcases htype with hnull | hmatches
      · exact absurd hnull (by simp)
      · cases hf : f.type <;> simp [matchesType, hf] at hmatches
        rfl
    obtain ⟨u, hu⟩ := hw
    rw [normaliseValue, if_pos hf, if_neg hi] at hu
    exact absurd hu (by simp)
  refine ⟨hbelow, ?_⟩
  rw [read_jsonbStyle htype hbelow] at hread
  obtain rfl := Option.some.inj hread
  have hplain : validateJson (plainValue v) = true := by
    cases v <;> exact hvalid
  rw [freezeValue_thawJson hplain] at hfreeze
  exact (Option.some.inj hfreeze).symm

end plain

section documents

variable {b : StorageBackend} {s : RecordSpecification} {entityName : String} {e : RecordEntity} {unsigned : Bool}
  {f : RecordField} {v : PortableJson} {o o' p : FrozenJsonObject}

/-- Every float is below `10¹⁶` in magnitude. -/
def AllBelow (e : RecordEntity) (o : FrozenJsonObject) : Prop :=
  ∀ f ∈ e.domainFields, ∀ x, o.get? f.name = some (.float x) → Below1e16 x

theorem normaliseValue_typed (h : Typed f v) :
    normaliseValue f (if unsigned then plainValue v else v) = some (givenBack unsigned false f v) := by
  cases v with
  | int i =>
    have hplain : (if unsigned then plainValue (.int i) else .int i) = PortableJson.int i := by cases unsigned <;> rfl
    rw [hplain, normaliseValue, givenBack]
    by_cases hf : f.type = .number
    · obtain ⟨x, hx, -⟩ := exists_toFloat (h.exact hf)
      rw [if_pos hf, if_pos hf, if_pos (h.exact hf), hx]
      rfl
    · rw [if_neg hf, if_neg hf]
  | str text =>
    have hback : givenBack unsigned false f (.str text) = .str text := by simp [givenBack]
    rw [hback]
    cases unsigned <;> rfl
  | _ => cases unsigned <;> rfl

theorem validateCreate_plain (hp : p.entries = plainEntries o.entries) (h : validateCreate s entityName o = true) :
    validateCreate s entityName p = true := by
  obtain ⟨e, he, hall⟩ := validateRecord_entity h
  have hnames : p.names = o.names := by
    rw [FrozenJsonObject.names, hp, plainEntries, List.map_map]
    rfl
  simp only [validateCreate, validateRecord, he, Bool.false_and, Bool.not_false, Bool.true_and, Bool.and_eq_true] at h ⊢
  refine ⟨List.all_eq_true.2 fun entry hentry => ?_, hnames ▸ h.2⟩
  rw [hp] at hentry
  obtain ⟨entry, hmem, rfl⟩ := List.mem_map.1 hentry
  have hvalue := List.all_eq_true.1 hall entry hmem
  rw [validateEntry, Option.any_eq_true] at hvalue ⊢
  obtain ⟨f, hf, hvalue⟩ := hvalue
  refine ⟨f, hf, ?_⟩
  cases hv : entry.2 with
  | float x =>
    rw [hv] at hvalue
    exact @validateValue_givenBack true f _ hvalue
  | _ =>
    rw [hv] at hvalue
    exact hvalue

/-- **Fields that are read again** are accepted as they are given back. -/
theorem acceptFields_iff (hvalid : validateCreate s entityName o = true) (he : s.entity entityName = some e)
    (hnamed : ∀ f ∈ e.domainFields, f.name ∈ o.names) (hvalid' : validateCreate s entityName o' = true)
    (hvalues : ∀ f ∈ e.domainFields, fieldValue o' f = if unsigned then plainValue (fieldValue o f) else fieldValue o f) :
    acceptFields s entityName o' = some p ↔ givenFields unsigned false e o = some p := by
  have hsome : (e.domainFields.map (·.name)).Nodup →
      collect (fun f => normaliseValue f (fieldValue o' f)) e.domainFields =
        some (e.domainFields.map fun f => (f.name, givenBack unsigned false f (fieldValue o f))) := fun hnodup => by
    rw [← collect_some fun f => givenBack unsigned false f (fieldValue o f)]
    refine collect_congr fun f hf => ?_
    rw [hvalues f hf, normaliseValue_typed (typed_of_create hvalid he hnodup hf (hnamed f hf))]
  rw [acceptFields, if_pos hvalid']
  constructor
  · intro h
    obtain ⟨e', he', complete, hcomplete, hmapping, -⟩ := normaliseFields_eq_some.1 h
    obtain rfl := Option.some.inj (he.symm.trans he')
    rw [hsome (get?_of_collect hcomplete hmapping).1] at hcomplete
    obtain rfl := Option.some.inj hcomplete
    exact hmapping
  · intro h
    obtain ⟨hnormal, -, -⟩ := givenFields_normalised hvalid he hnamed h
    exact normaliseFields_eq_some.2 ⟨e, he, _, hsome hnormal.nodup, h, hnormal.valid⟩

theorem named_of_equal (h : Normalised s entityName e p) (hequal : equalFields p o = true) :
    ∀ f ∈ e.domainFields, f.name ∈ o.names := fun f hf => by
  rw [← (equalFields_iff.1 hequal).1]
  exact List.mem_map_of_mem ((lookup_eq_some_iff_mem p.nodup_names).1 (h.fieldValue_eq hf).1)

theorem readSnapshotFields_sqlite (o : FrozenJsonObject) :
    readSnapshotFields s entityName (some (snapshot .sqlite o)) = (acceptFields s entityName o).map some := by
  have hload : jsonLoads (snapshot .sqlite o) = some (thawJson o.value) := jsonLoads_dumps (distinct_value o)
  have hfreeze : freezeObject (thawJson o.value) = some o := by
    have hvalue : freezeValue (thawJson o.value) = some (.obj o.entries) := freezeValue_thawJson o.frozen
    rw [freezeObject, hvalue]
    exact FrozenJsonObject.ofEntries_eq_some.2 rfl
  rw [readSnapshotFields, hload, Option.bind_some, readFields, hfreeze, Option.bind_some]

/-- **A document's fields equal those that were written** just where none had
been left out, and `jsonb` keeps the numbers. -/
theorem readSnapshotFields_equal_iff (hvalid : validateCreate s entityName o = true) (he : s.entity entityName = some e) :
    (∃ p, readSnapshotFields s entityName (some (snapshot b o)) = some (some p) ∧ equalFields p o = true) ↔
      AllGiven (decide (b = .postgresql)) e o ∧ (b = .postgresql → AllBelow e o) := by
  cases b with
  | sqlite =>
    have hread : ∀ p, readSnapshotFields s entityName (some (snapshot .sqlite o)) = some (some p) ↔
        acceptFields s entityName o = some p := fun p => by
      rw [readSnapshotFields_sqlite]
      cases acceptFields s entityName o <;> simp
    simp only [hread, reduceCtorEq, decide_false, false_implies, and_true]
    constructor
    · rintro ⟨p, hp, hequal⟩
      obtain ⟨e', hnormal⟩ := acceptFields_normalised hp
      obtain rfl := Option.some.inj (he.symm.trans hnormal.entity)
      have hnamed := named_of_equal hnormal hequal
      exact ⟨hnamed, Option.isSome_iff_exists.2 ⟨p, (acceptFields_iff hvalid he hnamed hvalid fun _ _ => rfl).1 hp⟩⟩
    · rintro ⟨hnamed, hfits⟩
      obtain ⟨p, hp⟩ := Option.isSome_iff_exists.1 hfits
      exact ⟨p, (acceptFields_iff hvalid he hnamed hvalid fun _ _ => rfl).2 hp, (givenFields_normalised hvalid he hnamed hp).2.1⟩
  | postgresql =>
    have hread : ∀ p, readSnapshotFields s entityName (some (snapshot .postgresql o)) = some (some p) ↔
        ∃ raw o', jsonbStyle.read o.value = some raw ∧ freezeObject raw = some o' ∧
          acceptFields s entityName o' = some p := fun p => by
      rw [readSnapshotFields_snapshot]
      simp only [Option.map_eq_some_iff, Option.some.injEq, exists_eq_right, Option.bind_eq_some_iff, readFields]
      constructor
      · rintro ⟨raw, hraw, o', ho', hp⟩
        exact ⟨raw, o', hraw, ho', hp⟩
      · rintro ⟨raw, o', hraw, ho', hp⟩
        exact ⟨raw, hraw, o', ho', hp⟩
    simp only [hread, decide_true, true_implies]
    constructor
    · rintro ⟨p, ⟨raw, o', hraw, ho', hp⟩, hequal⟩
      obtain ⟨e', hnormal, hnormalised⟩ := acceptFields_eq_some hp
      obtain rfl := Option.some.inj (he.symm.trans hnormal.entity)
      have hnamed := named_of_equal hnormal hequal
      have hvalid' : validateCreate s entityName o' = true := by
        unfold acceptFields at hp
        split_ifs at hp with hvalid'
        exact hvalid'
      have hplain : ∀ f ∈ e.domainFields, (∀ x, fieldValue o f = .float x → Below1e16 x) ∧
          fieldValue o' f = plainValue (fieldValue o f) := fun f hf => by
        have hget := fieldValue_of_named (hnamed f hf)
        obtain ⟨w, v', hw, hv', hget'⟩ := get?_freezeObject hraw ho' hget
        have hfv : fieldValue o' f = v' := by rw [fieldValue, hget', Option.getD_some]
        have hn := hnormalised f hf
        rw [(hnormal.fieldValue_eq hf).1] at hn
        rw [hfv] at hn ⊢
        exact plainValue_of_read (typed_of_create hvalid he hnormal.nodup hf (hnamed f hf)) hw hv' ⟨_, hn⟩
          (validateJson_of_get? hget)
      refine ⟨⟨hnamed, Option.isSome_iff_exists.2 ⟨p, ?_⟩⟩, fun f hf x hx => (hplain f hf).1 x ?_⟩
      · have hiff : acceptFields s entityName o' = some p ↔ givenFields true false e o = some p :=
          acceptFields_iff hvalid he hnamed hvalid' fun f hf => (hplain f hf).2
        exact hiff.1 hp
      · rw [fieldValue, hx, Option.getD_some]
    · rintro ⟨⟨hnamed, hfits⟩, hbelow⟩
      obtain ⟨p, hp⟩ := Option.isSome_iff_exists.1 hfits
      obtain ⟨hnormal, hequal, -⟩ := givenFields_normalised hvalid he hnamed hp
      obtain ⟨o', ho'⟩ := exists_plain o
      have hentries : jsonbStyle.readEntries o.entries = some (thawEntries (plainEntries o.entries)) :=
        readEntries_plainEntries fun entry hentry => by
          have hget := (lookup_eq_some_iff_mem o.nodup_names).2 hentry
          obtain ⟨f, hf, hname⟩ := named_of_create hvalid he (List.mem_map_of_mem hentry)
          have hv : fieldValue o f = entry.2 := by
            rw [fieldValue, hname, FrozenJsonObject.get?, hget, Option.getD_some]
          have htyped := typed_of_create hvalid he hnormal.nodup hf (hnamed f hf)
          rw [hv] at htyped
          refine read_jsonbStyle htyped fun x hx => hbelow f hf x ?_
          rw [hname, FrozenJsonObject.get?, hget, hx]
      refine ⟨p, ⟨.dict (thawEntries (plainEntries o.entries)), o', ?_, ?_, ?_⟩, hequal⟩
      · rw [FrozenJsonObject.value, JsonStyle.read, hentries, Option.map_some]
      · have hvalue : freezeValue (thawJson o'.value) = some (.obj o'.entries) := freezeValue_thawJson o'.frozen
        rw [FrozenJsonObject.value, thawJson, ho'] at hvalue
        rw [freezeObject, hvalue]
        exact FrozenJsonObject.ofEntries_eq_some.2 ho'
      · have hiff : (∀ f ∈ e.domainFields, fieldValue o' f = if true then plainValue (fieldValue o f) else fieldValue o f) →
            (acceptFields s entityName o' = some p ↔ givenFields true false e o = some p) :=
          acceptFields_iff hvalid he hnamed (validateCreate_plain ho' hvalid)
        refine (hiff fun f hf => ?_).2 hp
        rw [if_pos rfl]
        have hmem := (lookup_eq_some_iff_mem o.nodup_names).1 (fieldValue_of_named (hnamed f hf))
        have hget : o'.get? f.name = some (plainValue (fieldValue o f)) := by
          refine (lookup_eq_some_iff_mem o'.nodup_names).2 ?_
          rw [ho']
          exact List.mem_map_of_mem (f := fun p => (p.1, plainValue p.2)) hmem
        rw [fieldValue, hget, Option.getD_some]

/-! ## Normalised fields -/

/-- **Normalised fields** are complete, whether or not their zeros have signs. -/
theorem Normalised.allGiven (h : Normalised s entityName e o) : AllGiven unsigned e o := by
  have hback : ∀ f ∈ e.domainFields, givenBack unsigned false f (fieldValue o f) =
      if unsigned then plainValue (fieldValue o f) else fieldValue o f := fun f hf => by
    have hnormal := (h.fieldValue_eq hf).2
    cases hv : fieldValue o f with
    | int i =>
      have hf' : f.type ≠ .number := fun htype => hnormal htype i hv
      cases unsigned <;> simp [givenBack, hf', plainValue]
    | _ => cases unsigned <;> simp [givenBack, plainValue]
  refine ⟨fun f hf => ?_, ?_⟩
  · exact List.mem_map_of_mem ((lookup_eq_some_iff_mem o.nodup_names).1 (h.fieldValue_eq hf).1)
  · cases unsigned with
    | false =>
      obtain ⟨entries, hentries, hmapping⟩ := h.collect_self
        (g := fun f => some (givenBack false false f (fieldValue o f))) fun f hf => congrArg some (hback f hf)
      rw [collect_some] at hentries
      obtain rfl := Option.some.inj hentries
      rw [givenFields, hmapping, Option.isSome_some]
    | true =>
      obtain ⟨p, hp⟩ := exists_plain o
      have hlookup : ∀ n, p.get? n = (o.get? n).map plainValue := fun n => by
        rw [FrozenJsonObject.get?, hp, plainEntries, FrozenJsonObject.get?]
        induction o.entries with
        | nil => rfl
        | cons entry rest ih =>
          rw [List.map_cons, List.lookup_cons, List.lookup_cons, ih]
          cases n == entry.1 <;> rfl
      have hnames : ((e.domainFields.map fun f => (f.name, givenBack true false f (fieldValue o f))).map
          Prod.fst).Nodup := by
        rw [List.map_map]
        exact h.nodup
      have hmapping : givenFields true false e o = some p := fromMapping_of_lookup hnames fun n => by
        rw [hlookup n]
        by_cases hn : n ∈ e.domainFields.map (·.name)
        · obtain ⟨f, hf, rfl⟩ := List.mem_map.1 hn
          rw [(h.fieldValue_eq hf).1, Option.map_some, lookup_eq_some_iff_mem hnames]
          exact List.mem_map.2 ⟨f, hf, by rw [hback f hf, if_pos rfl]⟩
        · rw [h.others n hn, Option.map_none, List.lookup_eq_none_iff]
          rintro entry hentry
          obtain ⟨f, hf, rfl⟩ := List.mem_map.1 hentry
          exact bne_iff_ne.2 fun heq : n = f.name => hn (heq ▸ List.mem_map_of_mem hf)
      rw [hmapping, Option.isSome_some]

/-- The fields of a document are normalised. -/
theorem normalised_of_read {text : List Char} (h : readSnapshotFields s entityName (some text) = some (some o)) :
    ∃ e, Normalised s entityName e o := by
  simp only [readSnapshotFields, Option.map_eq_some_iff, Option.some.injEq, exists_eq_right, Option.bind_eq_some_iff,
    readFields] at h
  obtain ⟨raw, -, o', -, haccept⟩ := h
  exact acceptFields_normalised haccept

/-- What is frozen of a document's entries has been read of one of them. -/
theorem exists_of_mem_freezeNamed : ∀ {entries : List (String × PortableJson)} {d : List (PyStr × PyVal)}
    {es : List (String × PortableJson)}, jsonbStyle.readEntries entries = some d → freezeNamed d = some es →
    ∀ n w, (n, w) ∈ es → ∃ v raw, (n, v) ∈ entries ∧ jsonbStyle.read v = some raw ∧ freezeValue raw = some w
  | [], d, es, hread, hfreeze, n, w, hmem => by
    obtain rfl := Option.some.inj hread
    obtain rfl := Option.some.inj hfreeze
    exact absurd hmem List.not_mem_nil
  | (name, u) :: rest, d, es, hread, hfreeze, n, w, hmem => by
    rw [JsonStyle.readEntries] at hread
    split at hread
    · rename_i raw d' hraw hd
      obtain rfl := Option.some.inj hread
      rw [freezeNamed, requireScalarText_pyStr] at hfreeze
      split at hfreeze
      · rename_i name' w' es' hname hw' hes
        obtain rfl := Option.some.inj hname
        obtain rfl := Option.some.inj hfreeze
        rcases List.mem_cons.1 hmem with heq | hmem
        · obtain ⟨rfl, rfl⟩ := Prod.mk.inj heq
          exact ⟨u, raw, List.mem_cons_self, hraw, hw'⟩
        · obtain ⟨v, raw', hv, hread', hfreeze'⟩ := exists_of_mem_freezeNamed hd hes n w hmem
          exact ⟨v, raw', List.mem_cons_of_mem _ hv, hread', hfreeze'⟩
      · exact absurd hfreeze (by simp)
    · exact absurd hread (by simp)

/-- A float that `jsonb` gives back is below `10¹⁶`. -/
theorem below1e16_of_read {raw : PyVal} {x : FiniteFloat} (hread : jsonbStyle.read v = some raw)
    (hfreeze : freezeValue raw = some (.float x)) : Below1e16 x := by
  cases v with
  | float y =>
    by_cases hsmall : Below1e16 y
    · obtain rfl : PyVal.float (unsignedZero y).1 = raw :=
        Option.some.inj ((numberValue_jsonbLiteral hsmall).symm.trans hread)
      rw [freezeValue, dif_pos (unsignedZero y).2] at hfreeze
      obtain rfl := PortableJson.float.inj (Option.some.inj hfreeze)
      by_cases h : y.1.bits = 0
      · rw [unsignedZero, if_pos h]
        decide +kernel
      · rwa [unsignedZero_of_ne h]
    · obtain ⟨i, rfl, -⟩ := numberValue_jsonbLiteral_large hsmall hread
      rw [freezeValue] at hfreeze
      split_ifs at hfreeze
      exact absurd (Option.some.inj hfreeze) (by simp)
  | null =>
    obtain rfl := Option.some.inj hread
    exact absurd hfreeze (by simp [freezeValue])
  | bool y =>
    obtain rfl := Option.some.inj hread
    exact absurd hfreeze (by simp [freezeValue])
  | int i =>
    obtain rfl := Option.some.inj hread
    rw [freezeValue] at hfreeze
    split_ifs at hfreeze
    exact absurd (Option.some.inj hfreeze) (by simp)
  | str text =>
    obtain rfl := Option.some.inj hread
    exact absurd hfreeze (by simp [freezeValue])
  | arr items =>
    obtain ⟨r, -, rfl⟩ := Option.map_eq_some_iff.1 hread
    obtain ⟨u, -, hu⟩ := Option.map_eq_some_iff.1 hfreeze
    exact absurd hu (by simp)
  | obj entries =>
    obtain ⟨r, -, rfl⟩ := Option.map_eq_some_iff.1 hread
    obtain ⟨u, -, hu⟩ := Option.map_eq_some_iff.1 hfreeze
    exact absurd hu (by simp)

/-- **What is read of a document that `jsonb` keeps** has small floats. -/
theorem allBelow_of_read (hread : readSnapshotFields s entityName (some (snapshot .postgresql o')) = some (some o))
    (he : s.entity entityName = some e) : AllBelow e o := by
  rw [readSnapshotFields_snapshot] at hread
  simp only [Option.map_eq_some_iff, Option.some.injEq, exists_eq_right, Option.bind_eq_some_iff, readFields] at hread
  obtain ⟨raw, hraw, q, hq, haccept⟩ := hread
  obtain ⟨e', hnormal, hnormalised⟩ := acceptFields_eq_some haccept
  obtain rfl := Option.some.inj (he.symm.trans hnormal.entity)
  intro f hf x hx
  rw [← hnormalised f hf] at hx
  cases hv : fieldValue q f with
  | float y =>
    rw [hv] at hx
    obtain rfl := PortableJson.float.inj (Option.some.inj hx)
    obtain ⟨d, hd, rfl⟩ := Option.map_eq_some_iff.1 hraw
    rw [freezeObject, freezeValue] at hq
    cases hes : freezeNamed d with
    | none =>
      rw [hes] at hq
      exact absurd hq (by simp)
    | some es =>
      rw [hes] at hq
      have hentries : q.entries = es.insertionSort fun a b => a.1 ≤ b.1 := FrozenJsonObject.ofEntries_eq_some.1 hq
      have hmem := (lookup_eq_some_iff_mem q.nodup_names).1 (get?_of_fieldValue hv (by simp))
      rw [hentries, List.mem_insertionSort] at hmem
      obtain ⟨v, raw, -, hread, hfreeze⟩ := exists_of_mem_freezeNamed hd hes _ _ hmem
      exact below1e16_of_read hread hfreeze
  | int i =>
    rw [hv, normaliseValue] at hx
    split_ifs at hx with htype hexact
    · obtain ⟨y, hy, heq⟩ := Option.map_eq_some_iff.1 hx
      obtain rfl := PortableJson.float.inj heq
      exact (kept_of_exact hexact (toFloat_eq_some hy)).1
    · exact absurd (Option.some.inj hx) (by simp)
  | _ =>
    rw [hv] at hx
    exact absurd (Option.some.inj hx) (by simp)

end documents

end Data

end Aipcs
