import Aipcs.Portable.Dumps

/-!
# Portable — plain loads

`json.loads` called without hooks, as the stores call it: a name that
stands twice keeps its last value, integers have no bound but that of
`int`, a float may be infinite and the constants `NaN` and `Infinity` are
read. Whatever the bundle's hooks let through is read the same.
-/

namespace Aipcs

namespace Portable

/-! ## Hooks -/

/-- What a decoder makes of an object's entries, of a number, and whether
it reads the constants. -/
structure Hooks where
  object : List (PyStr × PyVal) → Option PyVal
  number : Literal → Option PyVal
  constants : Bool

/-- `dict(entries)`: a name stands where it stood first, with its last value. -/
def pyDict (items : List (PyStr × PyVal)) : List (PyStr × PyVal) :=
  items.foldl (fun d p =>
    if d.any fun q => q.1 = p.1 then d.map fun q => if q.1 = p.1 then p else q else d ++ [p]) []

/-- The most digits that `int` reads: ten to this power is too much. -/
def MAX_INT_DIGITS : ℕ := 4300

/-- What `int` and `float` make of a literal. -/
def plainNumber (l : Literal) : Option PyVal :=
  if l.isInteger then if l.integer.natAbs < 10 ^ MAX_INT_DIGITS then some (.int l.integer) else none
  else some (.float (Binary64.ofSignedDecimal l.neg l.decimal.1 l.decimal.2))

/-- The decoder without hooks. -/
def plainHooks : Hooks := ⟨fun items => some (.dict (pyDict items)), plainNumber, true⟩

def positiveInfinity : Binary64 := ⟨false, infBits, by unfold infBits; omega⟩

def negativeInfinity : Binary64 := ⟨true, infBits, by unfold infBits; omega⟩

def quietNaN : Binary64 := ⟨false, infBits + 2 ^ 51, by unfold infBits; omega⟩

/-- The constants that are no JSON. -/
def scanConstant (input : List Char) : Option (PyVal × List Char) :=
  match input with
  | 'N' :: 'a' :: 'N' :: rest => some (.float quietNaN, rest)
  | 'I' :: 'n' :: 'f' :: 'i' :: 'n' :: 'i' :: 't' :: 'y' :: rest => some (.float positiveInfinity, rest)
  | '-' :: 'I' :: 'n' :: 'f' :: 'i' :: 'n' :: 'i' :: 't' :: 'y' :: rest => some (.float negativeInfinity, rest)
  | _ => none

/-! ## One step of the scanner -/

section steps

variable (h : Hooks) (once : List Char → Option (PyVal × List Char))
  (members : List Char → Option (List (PyStr × PyVal) × List Char)) (items : List Char → Option (List PyVal × List Char))

/-- `scan_once`, given what reads the parts. -/
def valueStep (input : List Char) : Option (PyVal × List Char) :=
  match input with
  | '"' :: rest =>
    match scanString rest with
    | some (s, rest) => some (.str s, rest)
    | none => none
  | '{' :: rest =>
    match skipSpace rest with
    | '}' :: rest => (h.object []).map fun v => (v, rest)
    | rest =>
      match members rest with
      | some (items, rest) => (h.object items).map fun v => (v, rest)
      | none => none
  | '[' :: rest =>
    match skipSpace rest with
    | ']' :: rest => some (.seq [], rest)
    | rest =>
      match items rest with
      | some (items, rest) => some (.seq items, rest)
      | none => none
  | 'n' :: 'u' :: 'l' :: 'l' :: rest => some (.none, rest)
  | 't' :: 'r' :: 'u' :: 'e' :: rest => some (.bool true, rest)
  | 'f' :: 'a' :: 'l' :: 's' :: 'e' :: rest => some (.bool false, rest)
  | _ =>
    match scanNumber input with
    | some (l, rest) => (h.number l).map fun v => (v, rest)
    | none => if h.constants then scanConstant input else none

/-- `_parse_object`, from its first name, given what reads the parts. -/
def membersStep (input : List Char) : Option (List (PyStr × PyVal) × List Char) :=
  match input with
  | '"' :: rest =>
    match scanString rest with
    | some (name, rest) =>
      match skipSpace rest with
      | ':' :: rest =>
        match once (skipSpace rest) with
        | some (v, rest) =>
          match skipSpace rest with
          | '}' :: rest => some ([(name, v)], rest)
          | ',' :: rest =>
            match members (skipSpace rest) with
            | some (items, rest) => some ((name, v) :: items, rest)
            | none => none
          | _ => none
        | none => none
      | _ => none
    | none => none
  | _ => none

/-- `_parse_array`, from its first item, given what reads the parts. -/
def itemsStep (input : List Char) : Option (List PyVal × List Char) :=
  match once input with
  | some (v, rest) =>
    match skipSpace rest with
    | ']' :: rest => some ([v], rest)
    | ',' :: rest =>
      match items (skipSpace rest) with
      | some (items, rest) => some (v :: items, rest)
      | none => none
    | _ => none
  | none => none

end steps

namespace Hooks

variable (h : Hooks)

mutual

/-- `scan_once`. -/
def scanOnce : ℕ → List Char → Option (PyVal × List Char)
  | 0, _ => none
  | fuel + 1, input => valueStep h (scanMembers fuel) (scanItems fuel) input

/-- `_parse_object`, from its first name. -/
def scanMembers : ℕ → List Char → Option (List (PyStr × PyVal) × List Char)
  | 0, _ => none
  | fuel + 1, input => membersStep (scanOnce fuel) (scanMembers fuel) input

/-- `_parse_array`, from its first item. -/
def scanItems : ℕ → List Char → Option (List PyVal × List Char)
  | 0, _ => none
  | fuel + 1, input => itemsStep (scanOnce fuel) (scanItems fuel) input

end

/-- `json.loads(..., object_pairs_hook=..., parse_int=..., parse_float=..., parse_constant=...)`. -/
def loads (text : List Char) : Option PyVal :=
  match h.scanOnce (text.length + 1) (skipSpace text) with
  | some (v, rest) => if skipSpace rest = [] then some v else none
  | none => none

end Hooks

/-! ## What stricter hooks let through -/

/-- The hooks of the bundle's decoder. -/
def strictHooks : Hooks := ⟨pairs, numberValue, false⟩

section strict

variable {fuel : ℕ} {input : List Char}

theorem scanOnce_step : scanOnce (fuel + 1) input = valueStep strictHooks (scanMembers fuel) (scanItems fuel) input := by
  rw [scanOnce.eq_def]
  rfl

theorem scanMembers_step : scanMembers (fuel + 1) input = membersStep (scanOnce fuel) (scanMembers fuel) input := by
  rw [scanMembers.eq_def]
  rfl

theorem scanItems_step : scanItems (fuel + 1) input = itemsStep (scanOnce fuel) (scanItems fuel) input := by
  rw [scanItems.eq_def]
  rfl

end strict

/-- What reads something reads the same with others. -/
def Refines {α β : Type} (f g : α → Option β) : Prop := ∀ a b, f a = some b → g a = some b

/-- The hooks make what others make, where those make something. -/
structure Hooks.Extends (h h' : Hooks) : Prop where
  object : Refines h.object h'.object
  number : Refines h.number h'.number
  constants : h.constants = true → h'.constants = true

section refinement

variable {h h' : Hooks} {once once' : List Char → Option (PyVal × List Char)}
  {members members' : List Char → Option (List (PyStr × PyVal) × List Char)}
  {items items' : List Char → Option (List PyVal × List Char)}

theorem refines_map {β γ : Type} {f : β → γ} {o o' : Option β} {c : γ} (ho : ∀ b, o = some b → o' = some b)
    (hc : o.map f = some c) : o'.map f = some c := by
  obtain ⟨b, hb, rfl⟩ := Option.map_eq_some_iff.1 hc
  rw [ho b hb]
  rfl

theorem itemsStep_refines (ho : Refines once once') (hi : Refines items items') :
    Refines (itemsStep once items) (itemsStep once' items') := by
  intro input r hr
  unfold itemsStep at hr ⊢
  split at hr
  · rename_i v rest hv
    rw [ho _ _ hv]
    dsimp only
    split at hr
    · exact hr
    · split at hr
      · rename_i hrest
        rw [hi _ _ hrest]
        exact hr
      · exact absurd hr (by simp)
    · exact absurd hr (by simp)
  · exact absurd hr (by simp)

theorem membersStep_refines (ho : Refines once once') (hm : Refines members members') :
    Refines (membersStep once members) (membersStep once' members') := by
  intro input r hr
  unfold membersStep at hr ⊢
  split at hr
  · split at hr
    · split at hr
      · split at hr
        · rename_i hv
          rw [ho _ _ hv]
          dsimp only
          split at hr
          · exact hr
          · split at hr
            · rename_i hrest
              rw [hm _ _ hrest]
              exact hr
            · exact absurd hr (by simp)
          · exact absurd hr (by simp)
        · exact absurd hr (by simp)
      · exact absurd hr (by simp)
    · exact absurd hr (by simp)
  · exact absurd hr (by simp)

theorem valueStep_refines (hh : h.Extends h') (hm : Refines members members') (hi : Refines items items') :
    Refines (valueStep h members items) (valueStep h' members' items') := by
  intro input r hr
  unfold valueStep at hr ⊢
  split at hr
  · exact hr
  · split at hr
    · exact refines_map (hh.object []) hr
    · split at hr
      · rename_i hmembers
        rw [hm _ _ hmembers]
        exact refines_map (hh.object _) hr
      · exact absurd hr (by simp)
  · split at hr
    · exact hr
    · split at hr
      · rename_i hitems
        rw [hi _ _ hitems]
        exact hr
      · exact absurd hr (by simp)
  · exact hr
  · exact hr
  · exact hr
  · split at hr
    · exact refines_map (hh.number _) hr
    · split_ifs at hr with hconstants
      rw [if_pos (hh.constants hconstants)]
      exact hr

end refinement

/-- **What stricter hooks let through is scanned the same.** -/
theorem scan_refines {h : Hooks} (hh : strictHooks.Extends h) (fuel : ℕ) :
    Refines (scanOnce fuel) (h.scanOnce fuel) ∧ Refines (scanMembers fuel) (h.scanMembers fuel) ∧
      Refines (scanItems fuel) (h.scanItems fuel) := by
  induction fuel with
  | zero =>
    refine ⟨fun _ _ hr => ?_, fun _ _ hr => ?_, fun _ _ hr => ?_⟩
    · rw [scanOnce.eq_def] at hr
      exact absurd hr (by simp)
    · rw [scanMembers.eq_def] at hr
      exact absurd hr (by simp)
    · rw [scanItems.eq_def] at hr
      exact absurd hr (by simp)
  | succ fuel ih =>
    obtain ⟨ihOnce, ihMembers, ihItems⟩ := ih
    refine ⟨fun _ _ hr => ?_, fun _ _ hr => ?_, fun _ _ hr => ?_⟩
    · rw [scanOnce_step] at hr
      exact valueStep_refines hh ihMembers ihItems _ _ hr
    · rw [scanMembers_step] at hr
      exact membersStep_refines ihOnce ihMembers _ _ hr
    · rw [scanItems_step] at hr
      exact itemsStep_refines ihOnce ihItems _ _ hr

theorem loads_refines {h : Hooks} (hh : strictHooks.Extends h) : Refines jsonLoads h.loads := by
  intro text v hv
  unfold jsonLoads at hv
  split at hv
  · rename_i w rest hscan
    rw [Hooks.loads, (scan_refines hh _).1 _ _ hscan]
    exact hv
  · exact absurd hv (by simp)

/-! ## Without hooks -/

/-- `json.loads`. -/
def plainLoads (text : List Char) : Option PyVal := plainHooks.loads text

theorem foldl_pyDict : ∀ (items d : List (PyStr × PyVal)), ((d ++ items).map Prod.fst).Nodup →
    items.foldl (fun d p =>
      if d.any fun q => q.1 = p.1 then d.map fun q => if q.1 = p.1 then p else q else d ++ [p]) d = d ++ items
  | [], d, _ => (List.append_nil d).symm
  | p :: rest, d, hnodup => by
    have hnew : (d.any fun q => q.1 = p.1) = false := by
      rw [List.any_eq_false]
      intro q hq heq
      rw [List.map_append, List.map_cons, List.nodup_append] at hnodup
      exact hnodup.2.2 q.1 (List.mem_map_of_mem hq) p.1 List.mem_cons_self (by simpa using heq)
    rw [List.foldl_cons, hnew, if_neg (by simp), foldl_pyDict rest (d ++ [p]) (by simpa using hnodup),
      List.append_assoc, List.singleton_append]

/-- Names that are distinct stand as they are. -/
theorem pyDict_of_nodup {items : List (PyStr × PyVal)} (h : (items.map Prod.fst).Nodup) : pyDict items = items :=
  foldl_pyDict items [] h

theorem plainHooks_extends : strictHooks.Extends plainHooks where
  object items v h := by
    change pairs items = some v at h
    unfold pairs at h
    split_ifs at h with hnodup
    obtain rfl := Option.some.inj h
    exact congrArg (fun d => some (PyVal.dict d)) (pyDict_of_nodup hnodup)
  number l v h := by
    change plainNumber l = some v
    change numberValue l = some v at h
    unfold numberValue at h
    unfold plainNumber
    cases hint : l.isInteger with
    | true =>
      rw [hint, if_pos rfl] at h
      rw [if_pos rfl]
      split_ifs at h with hbounds
      have hlarge : 2 ^ 63 < 10 ^ MAX_INT_DIGITS :=
        (by norm_num : 2 ^ 63 < 10 ^ 19).trans_le (Nat.pow_le_pow_right (by norm_num) (by decide))
      rw [if_pos (lt_of_le_of_lt (by omega : l.integer.natAbs ≤ 2 ^ 63) hlarge)]
      exact h
    | false =>
      rw [hint, if_neg (by simp)] at h
      rw [if_neg (by simp)]
      dsimp only at h
      split_ifs at h
      exact h
  constants _ := rfl

theorem plainLoads_of_jsonLoads {text : List Char} {v : PyVal} (h : jsonLoads text = some v) : plainLoads text = some v :=
  loads_refines plainHooks_extends text v h

/-- **`json.loads` of what `json.dumps` printed**, without hooks. -/
theorem plainLoads_dumps {v : PortableJson} (hv : v.Distinct) : plainLoads (dumps v) = some (thawJson v) :=
  plainLoads_of_jsonLoads (jsonLoads_dumps hv)

end Portable

end Aipcs
