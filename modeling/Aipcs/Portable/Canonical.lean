import Aipcs.Common.Table
import Aipcs.Portable.Loads
import Mathlib.Data.String.Basic

/-!
# Portable — documents that are their own dump

`json.dumps` of what `json.loads` gave, with its names sorted: a reader
that asks a text to be this has one spelling for each document, up to
what Python takes for equal. `loads_objectText` is the way back, for an
object whose members are each spelled as some value.
-/

namespace Aipcs

namespace Portable

/-! ## Dumps of what was loaded -/

/-- `float.__repr__` as `json.dumps` has it: the constants that are no JSON stay. -/
def floatText (x : Binary64) : List Char :=
  if h : x.Finite then (reprLiteral ⟨x, h⟩).text
  else if x.bits = infBits then if x.neg then "-Infinity".toList else "Infinity".toList
  else "NaN".toList

/-- The entries by name, as Python orders text. -/
def sortNames {α : Type} (entries : List (String × α)) : List (String × α) :=
  entries.insertionSort fun a b => a.1 ≤ b.1

/-- A member of an object. -/
def memberText (p : String × List Char) : List Char := encodeString p.1 ++ ':' :: p.2

/-- An object's text, of its members' texts. -/
def objectText (members : List (String × List Char)) : List Char := '{' :: (joinComma (members.map memberText) ++ ['}'])

mutual

/-- `_canonical_json`: none where a lone surrogate stands, which is no
text that bytes decode to. -/
def canonicalText : PyVal → Option (List Char)
  | .none => some ['n', 'u', 'l', 'l']
  | .bool true => some ['t', 'r', 'u', 'e']
  | .bool false => some ['f', 'a', 'l', 's', 'e']
  | .int i => some (intText i)
  | .float x => some (floatText x)
  | .str s => (requireScalarText s).map encodeString
  | .seq items => (canonicalItems items).map fun texts => '[' :: (joinComma texts ++ [']'])
  | .dict entries => (canonicalEntries entries).map fun texts => objectText (sortNames texts)
  | .portable _ => none
  | .unsupported => none

def canonicalItems : List PyVal → Option (List (List Char))
  | [] => some []
  | v :: rest =>
    match canonicalText v, canonicalItems rest with
    | some text, some rest => some (text :: rest)
    | _, _ => none

def canonicalEntries : List (PyStr × PyVal) → Option (List (String × List Char))
  | [] => some []
  | (name, v) :: rest =>
    match requireScalarText name, canonicalText v, canonicalEntries rest with
    | some name, some text, some rest => some ((name, text) :: rest)
    | _, _, _ => none

end

/-- `set(entries) == names`. -/
def hasNames (entries : List (PyStr × PyVal)) (names : List String) : Bool :=
  (entries.all fun p => names.any fun n => p.1 = pyStr n) && names.all fun n => entries.any fun p => p.1 = pyStr n

section dumps

variable {entries : List (PyStr × PyVal)} {texts : List (String × List Char)} {names : List String}

theorem pyStr_of_scalar {s : PyStr} {t : String} (h : requireScalarText s = some t) : s = pyStr t := by
  unfold requireScalarText at h
  split_ifs at h with hsurrogate
  obtain rfl := Option.some.inj h
  have hback : ∀ p ∈ s, codePoint (Char.ofNat p.val) = p := by
    rintro ⟨n, hn⟩ hp
    have hscalar : ¬ (0xD800 ≤ n ∧ n ≤ 0xDFFF) := fun hsur => hsurrogate ⟨⟨n, hn⟩, hp, hsur⟩
    have hvalid : n.isValidChar := by
      unfold Nat.isValidChar
      omega
    dsimp only
    rw [codePoint, CodePoint.mk.injEq, Char.ofNat, dif_pos hvalid]
    rfl
  rw [pyStr, String.toList_ofList, List.map_map]
  exact (List.map_id s).symm.trans (List.map_congr_left fun p hp => (hback p hp).symm)

/-- An object's texts have its names, each with the text of its value. -/
theorem canonicalEntries_eq_some (h : canonicalEntries entries = some texts) :
    entries.map Prod.fst = texts.map (fun t => pyStr t.1) ∧
      ∀ t ∈ texts, ∃ v, (pyStr t.1, v) ∈ entries ∧ canonicalText v = some t.2 := by
  induction entries generalizing texts with
  | nil =>
    rw [canonicalEntries, Option.some.injEq] at h
    subst h
    exact ⟨rfl, fun t ht => absurd ht List.not_mem_nil⟩
  | cons p entries ih =>
    rw [canonicalEntries] at h
    split at h
    · rename_i name text rest hname htext hrest
      obtain rfl := Option.some.inj h
      obtain ⟨hnames, hvalues⟩ := ih hrest
      have hp := pyStr_of_scalar hname
      refine ⟨by rw [List.map_cons, List.map_cons, hnames, hp], fun t ht => ?_⟩
      rcases List.mem_cons.1 ht with rfl | ht
      · exact ⟨p.2, hp ▸ List.mem_cons_self, htext⟩
      · obtain ⟨v, hv, htext⟩ := hvalues t ht
        exact ⟨v, List.mem_cons_of_mem _ hv, htext⟩
    · exact absurd h (by simp)

theorem mem_names (h : hasNames entries names = true) (n : String) : pyStr n ∈ entries.map Prod.fst ↔ n ∈ names := by
  simp only [hasNames, Bool.and_eq_true, List.all_eq_true, List.any_eq_true, decide_eq_true_eq] at h
  constructor
  · intro hn
    obtain ⟨p, hp, hpn⟩ := List.mem_map.1 hn
    obtain ⟨m, hm, hpm⟩ := h.1 p hp
    exact pyStr_injective (hpn.symm.trans hpm) ▸ hm
  · intro hn
    obtain ⟨p, hp, hpn⟩ := h.2 n hn
    exact List.mem_map.2 ⟨p, hp, hpn⟩

/-- **An object's text**, where its names are a list's in order: each
member is the text of the value under its name. -/
theorem objectText_of_canonicalText {text : List Char} (hdistinct : (entries.map Prod.fst).Nodup)
    (hnames : hasNames entries names = true) (hsorted : names.Pairwise (· < ·))
    (h : canonicalText (.dict entries) = some text) :
    ∃ members, text = objectText members ∧
      List.Forall₂ (fun n m => m.1 = n ∧ ∃ v, entries.lookup (pyStr n) = some v ∧ canonicalText v = some m.2) names
        members := by
  rw [canonicalText, Option.map_eq_some_iff] at h
  obtain ⟨texts, htexts, rfl⟩ := h
  refine ⟨sortNames texts, rfl, ?_⟩
  obtain ⟨hfst, hvalues⟩ := canonicalEntries_eq_some htexts
  have hperm : (sortNames texts).Perm texts := List.perm_insertionSort _ _
  have hnodup : (texts.map Prod.fst).Nodup := by
    rw [hfst] at hdistinct
    refine List.Nodup.of_map pyStr ?_
    rwa [List.map_map]
  -- the names in order are the list's
  have hsame : (sortNames texts).map Prod.fst = names := by
    have hmem : ∀ n, n ∈ (sortNames texts).map Prod.fst ↔ n ∈ names := by
      intro n
      rw [(hperm.map Prod.fst).mem_iff, ← List.mem_map_of_injective pyStr_injective, List.map_map]
      change pyStr n ∈ texts.map (fun t => pyStr t.1) ↔ n ∈ names
      rw [← hfst, mem_names hnames]
    have hle : ((sortNames texts).map Prod.fst).Pairwise (· ≤ ·) :=
      List.pairwise_map.2 (List.pairwise_insertionSort (fun a b : String × List Char => a.1 ≤ b.1) texts)
    have hsame : ((sortNames texts).map Prod.fst).Perm names :=
      (List.perm_ext_iff_of_nodup ((hperm.map Prod.fst).nodup_iff.2 hnodup) (hsorted.imp fun h => h.ne)).2 hmem
    exact hsame.eq_of_pairwise' hle (hsorted.imp fun h => h.le)
  have hvalue : ∀ t ∈ texts, ∃ v, entries.lookup (pyStr t.1) = some v ∧ canonicalText v = some t.2 := by
    intro t ht
    obtain ⟨v, hv, htext⟩ := hvalues t ht
    exact ⟨v, (lookup_eq_some_iff_mem hdistinct).2 hv, htext⟩
  rw [← hsame, List.forall₂_map_left_iff]
  exact List.forall₂_same.2 fun t ht => ⟨rfl, hvalue t (hperm.mem_iff.1 ht)⟩

end dumps

/-! ## The names of what was loaded -/

theorem pyDict_names (items : List (PyStr × PyVal)) : ((pyDict items).map Prod.fst).Nodup := by
  have hstep : ∀ (items d : List (PyStr × PyVal)), (d.map Prod.fst).Nodup → ((items.foldl (fun d p =>
      if d.any fun q => q.1 = p.1 then d.map fun q => if q.1 = p.1 then p else q else d ++ [p]) d).map Prod.fst).Nodup := by
    intro items
    induction items with
    | nil => exact fun d hd => hd
    | cons p items ih =>
      intro d hd
      rw [List.foldl_cons]
      apply ih
      split_ifs with hany
      · have hkeep : (d.map fun q => if q.1 = p.1 then p else q).map Prod.fst = d.map Prod.fst := by
          rw [List.map_map]
          refine List.map_congr_left fun q _ => ?_
          by_cases hq : q.1 = p.1
          · rw [Function.comp_apply, if_pos hq, hq]
          · rw [Function.comp_apply, if_neg hq]
        rwa [hkeep]
      · rw [List.map_append, List.nodup_append]
        refine ⟨hd, List.nodup_singleton _, fun a ha b hb hab => hany ?_⟩
        obtain ⟨q, hq, rfl⟩ := List.mem_map.1 ha
        obtain rfl : b = p.1 := by simpa using hb
        exact List.any_eq_true.2 ⟨q, hq, by simpa using hab⟩
  exact hstep items [] List.nodup_nil

section loaded

variable {entries : List (PyStr × PyVal)} {rest rest' : List Char}

theorem nodup_of_object {items : List (PyStr × PyVal)}
    (h : ((plainHooks.object items).map fun v => (v, rest)) = some (.dict entries, rest')) :
    (entries.map Prod.fst).Nodup := by
  obtain ⟨v, hv, heq⟩ := Option.map_eq_some_iff.1 h
  obtain rfl : PyVal.dict (pyDict items) = v := Option.some.inj hv
  rw [Prod.mk.injEq, PyVal.dict.injEq] at heq
  exact heq.1 ▸ pyDict_names items

theorem number_ne_dict {l : Literal} : ((plainHooks.number l).map fun v => (v, rest)) ≠ some (.dict entries, rest') := by
  intro h
  obtain ⟨v, hv, heq⟩ := Option.map_eq_some_iff.1 h
  change plainNumber l = some v at hv
  rw [Prod.mk.injEq] at heq
  unfold plainNumber at hv
  split_ifs at hv
  · exact absurd ((Option.some.inj hv).trans heq.1) (by simp)
  · exact absurd ((Option.some.inj hv).trans heq.1) (by simp)

theorem scanConstant_ne_dict {input : List Char} : scanConstant input ≠ some (.dict entries, rest') := by
  intro h
  unfold scanConstant at h
  split at h <;> simp at h

/-- An object is read where a bracket stands, so by the object's hook. -/
theorem nodup_of_scanOnce {fuel : ℕ} {input : List Char}
    (h : plainHooks.scanOnce fuel input = some (.dict entries, rest')) : (entries.map Prod.fst).Nodup := by
  cases fuel with
  | zero =>
    rw [Hooks.scanOnce.eq_def] at h
    exact absurd h (by simp)
  | succ fuel =>
    rw [Hooks.scanOnce.eq_def] at h
    dsimp only at h
    unfold valueStep at h
    split at h
    · split at h <;> simp at h
    · split at h
      · exact nodup_of_object h
      · split at h
        · exact nodup_of_object h
        · exact absurd h (by simp)
    · split at h
      · simp at h
      · split at h <;> simp at h
    · simp at h
    · simp at h
    · simp at h
    · split at h
      · exact absurd h number_ne_dict
      · split_ifs at h
        exact absurd h scanConstant_ne_dict

/-- **A loaded object has each name once.** -/
theorem nodup_of_plainLoads {text : List Char} (h : plainLoads text = some (.dict entries)) :
    (entries.map Prod.fst).Nodup := by
  unfold plainLoads Hooks.loads at h
  split at h
  · rename_i v rest hscan
    split_ifs at h
    obtain rfl := Option.some.inj h
    exact nodup_of_scanOnce hscan
  · exact absurd h (by simp)

end loaded

/-! ## Objects, member by member -/

/-- A text that is read as a value wherever a comma or a closing bracket follows. -/
structure Spells (text : List Char) (v : PyVal) : Prop where
  head : ∃ c more, text = c :: more ∧ isSpace c = false
  scan : ∀ fuel c rest, c = ',' ∨ c = '}' → plainHooks.scanOnce (fuel + 1) (text ++ c :: rest) = some (v, c :: rest)

section spells

variable {fuel : ℕ} {input text rest : List Char} {v : PyVal}

theorem plain_scanOnce_step : plainHooks.scanOnce (fuel + 1) input =
    valueStep plainHooks (plainHooks.scanMembers fuel) (plainHooks.scanItems fuel) input := by
  rw [Hooks.scanOnce.eq_def]

theorem plain_scanMembers_step : plainHooks.scanMembers (fuel + 1) input =
    membersStep (plainHooks.scanOnce fuel) (plainHooks.scanMembers fuel) input := by
  rw [Hooks.scanMembers.eq_def]

theorem Spells.skipSpace (h : Spells text v) (rest : List Char) : skipSpace (text ++ rest) = text ++ rest := by
  obtain ⟨c, more, rfl, hc⟩ := h.head
  rw [List.cons_append, skipSpace_cons hc]

theorem spells_string (s : String) : Spells (encodeString s) (.str (pyStr s)) where
  head := ⟨'"', _, rfl, by decide⟩
  scan fuel c rest _ := by
    obtain ⟨body, htext, hscan⟩ := @scanString_encodeString (c :: rest) s
    rw [plain_scanOnce_step, htext]
    simp only [valueStep, hscan]

theorem spells_true : Spells ['t', 'r', 'u', 'e'] (.bool true) where
  head := ⟨'t', _, rfl, by decide⟩
  scan fuel c rest _ := by
    rw [plain_scanOnce_step]
    rfl

theorem spells_number {l : Literal} (hl : l.WellFormed) (hv : plainNumber l = some v) : Spells l.text v := by
  obtain ⟨c, more, htext, hc⟩ := Literal.text_head hl
  have hspace : isSpace c = false := by
    rcases hc with rfl | hc
    · decide
    · by_contra hs
      simp only [isSpace, Bool.not_eq_false, Bool.or_eq_true, decide_eq_true_eq] at hs
      rcases hs with ((rfl | rfl) | rfl) | rfl <;> exact absurd hc (by decide)
  refine ⟨⟨c, more, htext, hspace⟩, fun fuel d rest hd => ?_⟩
  have hends : EndsNumber (d :: rest) := endsNumber_cons (hd.elim .inl fun h => .inr (.inr h)) rest
  have hne : ∀ e : Char, e ≠ '-' → isDigit e = false → ∀ tail, l.text ++ d :: rest ≠ e :: tail := by
    intro e he hdigit tail h
    rw [htext, List.cons_append] at h
    obtain ⟨rfl, -⟩ := List.cons.inj h
    rcases hc with rfl | hc
    · exact he rfl
    · rw [hc] at hdigit
      exact absurd hdigit (by simp)
  rw [plain_scanOnce_step]
  unfold valueStep
  split
  · next h => exact absurd h (hne '"' (by decide) (by decide) _)
  · next h => exact absurd h (hne '{' (by decide) (by decide) _)
  · next h => exact absurd h (hne '[' (by decide) (by decide) _)
  · next h => exact absurd h (hne 'n' (by decide) (by decide) _)
  · next h => exact absurd h (hne 't' (by decide) (by decide) _)
  · next h => exact absurd h (hne 'f' (by decide) (by decide) _)
  · rw [scanNumber_text hl hends]
    change (plainNumber l).map _ = _
    rw [hv, Option.map_some]

theorem spells_int {i : ℤ} (hi : i.natAbs < 10 ^ MAX_INT_DIGITS) : Spells (intText i) (.int i) := by
  have hv : plainNumber (intLiteral i) = some (.int i) := by
    rw [plainNumber, intLiteral_isInteger, if_pos rfl, intLiteral_integer, if_pos hi]
  rw [← intLiteral_text]
  exact spells_number (intLiteral_wellFormed i) hv

theorem spells_float (x : FiniteFloat) : Spells (floatText x.1) (.float x.1) := by
  rw [floatText, dif_pos x.2]
  exact spells_number (reprLiteral_wellFormed x) (plainHooks_extends.number _ _ (numberValue_reprLiteral x))

/-- The last member of an object. -/
theorem scanMembers_last_spelled (h : Spells text v) (name : String) :
    plainHooks.scanMembers (fuel + 2) (memberText (name, text) ++ '}' :: rest) = some ([(pyStr name, v)], rest) := by
  obtain ⟨body, htext, hscan⟩ := @scanString_encodeString (':' :: (text ++ '}' :: rest)) name
  have hinput : memberText (name, text) ++ '}' :: rest = '"' :: body := by
    rw [memberText, List.append_assoc, List.cons_append, htext]
  rw [plain_scanMembers_step, hinput]
  simp only [membersStep, hscan, skipSpace_cons (show isSpace ':' = false by decide), h.skipSpace,
    h.scan _ '}' rest (.inr rfl), skipSpace_cons (show isSpace '}' = false by decide)]

/-- A member and a comma. -/
theorem scanMembers_more_spelled (h : Spells text v) (name : String) :
    plainHooks.scanMembers (fuel + 2) (memberText (name, text) ++ ',' :: rest) =
      (plainHooks.scanMembers (fuel + 1) (skipSpace rest)).map fun r => ((pyStr name, v) :: r.1, r.2) := by
  obtain ⟨body, htext, hscan⟩ := @scanString_encodeString (':' :: (text ++ ',' :: rest)) name
  have hinput : memberText (name, text) ++ ',' :: rest = '"' :: body := by
    rw [memberText, List.append_assoc, List.cons_append, htext]
  rw [plain_scanMembers_step, hinput]
  simp only [membersStep, hscan, skipSpace_cons (show isSpace ':' = false by decide), h.skipSpace,
    h.scan _ ',' rest (.inl rfl), skipSpace_cons (show isSpace ',' = false by decide)]
  cases plainHooks.scanMembers (fuel + 1) (Portable.skipSpace rest) <;> rfl

theorem memberText_head (p : String × List Char) (tail : List Char) :
    ∃ more, memberText p ++ tail = '"' :: more := ⟨_, rfl⟩

/-- Members are scanned one after the other; each takes one step of the fuel. -/
theorem scanMembers_spelled {members : List (String × List Char)} {entries : List (PyStr × PyVal)}
    (h : List.Forall₂ (fun m p => p.1 = pyStr m.1 ∧ Spells m.2 p.2) members entries) (hne : members ≠ [])
    (hfuel : members.length < fuel) :
    plainHooks.scanMembers fuel (joinComma (members.map memberText) ++ '}' :: rest) = some (entries, rest) := by
  induction h generalizing fuel with
  | nil => exact absurd rfl hne
  | @cons m p members entries hm hmembers ih =>
    obtain ⟨name, text⟩ := m
    obtain ⟨name', v⟩ := p
    obtain ⟨rfl, hv⟩ := hm
    obtain ⟨fuel, rfl⟩ : ∃ k, fuel = k + 2 := ⟨fuel - 2, by rw [List.length_cons] at hfuel; omega⟩
    rw [List.map_cons, joinComma_cons]
    cases hmembers with
    | nil =>
      rw [List.map_nil, if_pos rfl, List.append_nil]
      exact scanMembers_last_spelled hv name
    | @cons m' p' members' entries' hm' hmembers' =>
      rw [if_neg (by simp), List.append_assoc, List.cons_append, scanMembers_more_spelled hv]
      have hhead : ∃ more, joinComma ((m' :: members').map memberText) ++ '}' :: rest = '"' :: more := by
        rw [List.map_cons, joinComma_cons, List.append_assoc]
        exact memberText_head _ _
      obtain ⟨more, hmore⟩ := hhead
      rw [hmore, skipSpace_cons (by decide), ← hmore, ih (by simp) (by rw [List.length_cons] at hfuel; omega),
        Option.map_some]

theorem length_joinComma (members : List (String × List Char)) :
    members.length ≤ (joinComma (members.map memberText)).length := by
  induction members with
  | nil => exact Nat.zero_le _
  | cons m members ih =>
    have hm : 1 ≤ (memberText m).length := by
      simp [memberText, encodeString]
    rw [List.map_cons, joinComma_cons, List.length_append, List.length_cons]
    split_ifs with hnil
    · rw [List.map_eq_nil_iff] at hnil
      subst hnil
      simpa using hm
    · rw [List.length_cons]
      omega

/-- **An object is read from its members' texts.** -/
theorem loads_objectText {members : List (String × List Char)} {entries : List (PyStr × PyVal)}
    (h : List.Forall₂ (fun m p => p.1 = pyStr m.1 ∧ Spells m.2 p.2) members entries) (hne : members ≠ [])
    (hnodup : (entries.map Prod.fst).Nodup) : plainLoads (objectText members) = some (.dict entries) := by
  have hlength := length_joinComma members
  have hhead : ∃ more, joinComma (members.map memberText) ++ ['}'] = '"' :: more := by
    obtain ⟨m, members, rfl⟩ := List.exists_cons_of_ne_nil hne
    rw [List.map_cons, joinComma_cons, List.append_assoc]
    exact memberText_head _ _
  obtain ⟨more, hmore⟩ := hhead
  have hscan : plainHooks.scanOnce ((objectText members).length + 1) (objectText members) = some (.dict entries, []) := by
    have hmembers : plainHooks.scanMembers (objectText members).length (joinComma (members.map memberText) ++ ['}']) =
        some (entries, []) := by
      refine scanMembers_spelled h hne ?_
      rw [objectText, List.length_cons, List.length_append, List.length_singleton]
      omega
    rw [plain_scanOnce_step]
    generalize (objectText members).length = fuel at hmembers ⊢
    rw [objectText, hmore]
    rw [hmore] at hmembers
    simp only [valueStep, skipSpace_cons (show isSpace '"' = false by decide)]
    split
    · next heq => exact absurd (List.cons.inj heq).1 (by decide)
    · rw [hmembers]
      change some (PyVal.dict (pyDict entries), []) = _
      rw [pyDict_of_nodup hnodup]
  have hspace : skipSpace (objectText members) = objectText members := skipSpace_cons (by decide) _
  rw [plainLoads, Hooks.loads, hspace, hscan]
  rfl

end spells

end Portable

end Aipcs
