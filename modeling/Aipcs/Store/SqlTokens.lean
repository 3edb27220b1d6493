import Mathlib.Data.List.Basic

/-!
# Store — SQL texts up to their white space

`sql_tokens_equal` compares the text that SQLite keeps of a table with the
text expected, token by token. `Lexes` says of a piece of text which
tokens it is, whatever follows that does not run on, and `Opens` whatever
follows; pieces are put together by rules, one a kind of token.
-/

namespace Aipcs

namespace Store

/-- `_ASCII_WHITESPACE`. -/
def isSqlSpace (c : Char) : Bool :=
  c = ' ' || c = '\t' || c = '\n' || c = '\r' || c = '\x0c' || c = '\x0b'

/-- `_PUNCTUATION`. -/
def isPunctuation (c : Char) : Bool := c = '(' || c = ')' || c = ','

/-- `_is_identifier_start`. -/
def isIdentifierStart (c : Char) : Bool := ('A' ≤ c && c ≤ 'Z') || ('a' ≤ c && c ≤ 'z') || c = '_'

/-- `_is_identifier_continuation`. -/
def isIdentifierContinuation (c : Char) : Bool := isIdentifierStart c || ('0' ≤ c && c ≤ '9')

/-- `_quoted_token`, past its opening: what is left of the token, and of the text. -/
def quotedToken (delimiter : Char) : List Char → Option (List Char × List Char)
  | [] => none
  | c :: rest =>
    if c = ';' then none
    else if c ≠ delimiter then (quotedToken delimiter rest).map fun p => (c :: p.1, p.2)
    else
      match rest with
      | [] => some ([c], [])
      | c' :: rest' =>
        if c' = delimiter then (quotedToken delimiter rest').map fun p => (c :: c' :: p.1, p.2)
        else some ([c], c' :: rest')

theorem quotedToken_length {delimiter : Char} : ∀ {text token rest : List Char},
    quotedToken delimiter text = some (token, rest) → rest.length < text.length
  | [], _, _, h => absurd h (by simp [quotedToken])
  | [c], token, rest, h => by
    rw [quotedToken] at h
    split_ifs at h
    · simp [quotedToken] at h
    · obtain ⟨-, rfl⟩ := Prod.mk.inj (Option.some.inj h)
      simp
  | c :: c' :: text, token, rest, h => by
    rw [quotedToken] at h
    split_ifs at h with _ hc hc'
    · obtain ⟨p, hp, hpair⟩ := Option.map_eq_some_iff.1 h
      obtain ⟨-, rfl⟩ := Prod.mk.inj hpair
      have := @quotedToken_length _ (c' :: text) _ _ hp
      simp only [List.length_cons] at this ⊢
      omega
    · obtain ⟨p, hp, hpair⟩ := Option.map_eq_some_iff.1 h
      obtain ⟨-, rfl⟩ := Prod.mk.inj hpair
      have := @quotedToken_length _ text _ _ hp
      simp only [List.length_cons]
      omega
    · obtain ⟨-, rfl⟩ := Prod.mk.inj (Option.some.inj h)
      simp

/-- `_tokens`. -/
def tokens : List Char → Option (List (List Char))
  | [] => some []
  | c :: rest =>
    if isSqlSpace c then tokens rest
    else if c = '"' ∨ c = '\'' then
      match h : quotedToken c rest with
      | none => none
      | some (token, left) =>
        have := quotedToken_length h
        (tokens left).map ((c :: token) :: ·)
    else if isIdentifierStart c then
      (tokens (rest.dropWhile isIdentifierContinuation)).map
        ((c :: rest.takeWhile isIdentifierContinuation) :: ·)
    else if isPunctuation c then (tokens rest).map ([c] :: ·)
    else none
termination_by text => text.length
decreasing_by
  all_goals simp only [List.length_cons]
  all_goals first
    | omega
    | exact Nat.lt_succ_of_le (List.dropWhile_suffix _).length_le

/-- `sql_tokens_equal`. -/
def sqlTokensEqual (actual expected : List Char) : Bool :=
  (tokens actual).isSome && decide (tokens actual = tokens expected)

-- the equations are made here, once, for all the theorems that unfold these
attribute [local grind =] quotedToken tokens

/-! ## Pieces of text -/

/-- The text ends here, or goes on with what no token runs into. -/
def closed : List Char → Bool
  | [] => true
  | c :: _ => isSqlSpace c || isPunctuation c

/-- The piece of text is these tokens, where what follows does not run on. -/
def Lexes (text : List Char) (words : List (List Char)) : Prop :=
  ∀ rest, closed rest = true → tokens (text ++ rest) = (tokens rest).map (words ++ ·)

/-- The piece of text is these tokens, whatever follows. -/
def Opens (text : List Char) (words : List (List Char)) : Prop :=
  ∀ rest, tokens (text ++ rest) = (tokens rest).map (words ++ ·)

theorem closed_iff {c : Char} {rest : List Char} : closed (c :: rest) = true ↔ isSqlSpace c = true ∨ isPunctuation c = true := by
  rw [closed, Bool.or_eq_true]

theorem identifierContinuation_of_closed {c : Char} {rest : List Char} (h : closed (c :: rest) = true) :
    isIdentifierContinuation c = false := by
  simp only [closed, isSqlSpace, isPunctuation, Bool.or_eq_true, decide_eq_true_eq] at h
  rcases h with (((((rfl | rfl) | rfl) | rfl) | rfl) | rfl) | ((rfl | rfl) | rfl) <;> decide

theorem ne_quote_of_closed {c : Char} {rest : List Char} (h : closed (c :: rest) = true) : c ≠ '"' := by
  rintro rfl
  exact absurd h (by simp [closed, isSqlSpace, isPunctuation])

theorem not_space_of_punctuation {c : Char} (hc : isPunctuation c = true) :
    isSqlSpace c = false ∧ c ≠ '"' ∧ c ≠ '\'' ∧ isIdentifierStart c = false := by
  simp only [isPunctuation, Bool.or_eq_true, decide_eq_true_eq] at hc
  rcases hc with (rfl | rfl) | rfl <;> decide

theorem tokens_space {c : Char} (hc : isSqlSpace c = true) (rest : List Char) : tokens (c :: rest) = tokens rest := by
  rw [tokens, if_pos hc]

theorem tokens_punctuation {c : Char} (hc : isPunctuation c = true) (rest : List Char) :
    tokens (c :: rest) = (tokens rest).map ([c] :: ·) := by
  obtain ⟨hspace, hdouble, hsingle, hstart⟩ := not_space_of_punctuation hc
  rw [tokens, if_neg (by simp [hspace]), if_neg (by simp [hdouble, hsingle]), if_neg (by simp [hstart]), if_pos hc]

theorem tokens_dropWhile (text rest : List Char) : tokens (text ++ rest) = tokens (text.dropWhile isSqlSpace ++ rest) := by
  induction text with
  | nil => rfl
  | cons c text ih =>
    by_cases hc : isSqlSpace c = true
    · rw [List.dropWhile_cons_of_pos hc, List.cons_append, tokens_space hc, ih]
    · rw [List.dropWhile_cons_of_neg hc]

theorem closed_of_dropWhile {text : List Char} (h : closed (text.dropWhile isSqlSpace) = true) : closed text = true := by
  cases text with
  | nil => rfl
  | cons c text =>
    by_cases hc : isSqlSpace c = true
    · exact closed_iff.2 (.inl hc)
    · rwa [List.dropWhile_cons_of_neg hc] at h

theorem closed_spaces {w text : List Char} (hw : w.all isSqlSpace = true) (h : closed text = true) :
    closed (w ++ text) = true := by
  cases w with
  | nil => exact h
  | cons c w =>
    rw [List.all_cons, Bool.and_eq_true] at hw
    exact closed_iff.2 (.inl hw.1)

theorem map_append_append {s t : List (List Char)} (x : Option (List (List Char))) :
    (x.map (t ++ ·)).map (s ++ ·) = x.map ((s ++ t) ++ ·) := by
  rw [Option.map_map]
  congr 1
  funext words
  simp

namespace Lexes

variable {a b : List Char} {s t : List (List Char)}

theorem nil : Lexes [] [] := fun rest _ => by
  cases h : tokens rest <;> simp [h]

theorem eq_tokens (h : Lexes a s) : tokens a = some s := by
  have := h [] rfl
  rwa [List.append_nil, tokens, Option.map_some, List.append_nil] at this

/-- White space before a piece. -/
theorem space {c : Char} (hc : isSqlSpace c = true) (h : Lexes a s) : Lexes (c :: a) s := fun rest hrest => by
  rw [List.cons_append, tokens_space hc]
  exact h rest hrest

theorem spaces {w : List Char} (hw : w.all isSqlSpace = true) (h : Lexes a s) : Lexes (w ++ a) s := by
  induction w with
  | nil => exact h
  | cons c w ih =>
    rw [List.all_cons, Bool.and_eq_true] at hw
    exact (ih hw.2).space hw.1

/-- White space at the beginning makes no difference. -/
theorem congr (hab : a.dropWhile isSqlSpace = b.dropWhile isSqlSpace) (h : Lexes a s) : Lexes b s := fun rest hrest => by
  rw [tokens_dropWhile, ← hab, ← tokens_dropWhile]
  exact h rest hrest

/-- A punctuation mark before a piece. -/
theorem punctuation {c : Char} (hc : isPunctuation c = true) (h : Lexes a s) : Lexes (c :: a) ([c] :: s) :=
  fun rest hrest => by
    rw [List.cons_append, tokens_punctuation hc, h rest hrest, Option.map_map]
    rfl

/-- **A word**, as keywords and types are. -/
theorem word {c : Char} {w : List Char} (hc : isIdentifierStart c = true)
    (hw : w.all isIdentifierContinuation = true) : Lexes (c :: w) [c :: w] := fun rest hrest => by
  have hspace : isSqlSpace c = false := by
    by_contra h
    simp only [Bool.not_eq_false, isSqlSpace, Bool.or_eq_true, decide_eq_true_eq] at h
    rcases h with ((((rfl | rfl) | rfl) | rfl) | rfl) | rfl <;> exact absurd hc (by decide)
  have hquote : ¬ (c = '"' ∨ c = '\'') := by
    rintro (rfl | rfl) <;> exact absurd hc (by decide)
  have hall : ∀ x ∈ w, isIdentifierContinuation x = true := List.all_eq_true.1 hw
  -- the word ends where the rest begins
  have hrest' : rest.takeWhile isIdentifierContinuation = [] ∧ rest.dropWhile isIdentifierContinuation = rest := by
    cases rest with
    | nil => exact ⟨rfl, rfl⟩
    | cons d rest =>
      have hd := identifierContinuation_of_closed hrest
      exact ⟨List.takeWhile_cons_of_neg (by simp [hd]), List.dropWhile_cons_of_neg (by simp [hd])⟩
  rw [List.cons_append, tokens, if_neg (by simp [hspace]), if_neg hquote, if_pos hc,
    List.takeWhile_append_of_pos hall, List.dropWhile_append_of_pos hall, hrest'.1, hrest'.2, List.append_nil]
  rfl

/-- Pieces one after the other, the second beginning with what the first does not run into. -/
theorem append (ha : Lexes a s) (hb : Lexes b t) (hclosed : closed b = true) : Lexes (a ++ b) (s ++ t) :=
  fun rest hrest => by
    have hab : closed (b ++ rest) = true := by
      cases b with
      | nil => exact hrest
      | cons c b => exact hclosed
    rw [List.append_assoc, ha _ hab, hb rest hrest, map_append_append]

/-- A piece ends where the next one begins with a space or a mark. -/
theorem append_opens (ha : Lexes a s) (hb : Opens b t) (hne : b ≠ []) (hclosed : closed b = true) :
    Opens (a ++ b) (s ++ t) := fun rest => by
  have hab : closed (b ++ rest) = true := by
    cases b with
    | nil => exact absurd rfl hne
    | cons c b => exact hclosed
  rw [List.append_assoc, ha _ hab, hb, map_append_append]

end Lexes

namespace Opens

variable {a b : List Char} {s t : List (List Char)}

theorem nil : Opens [] [] := fun rest => by
  cases h : tokens rest <;> simp [h]

theorem lexes (h : Opens a s) : Lexes a s := fun rest _ => h rest

theorem space {c : Char} (hc : isSqlSpace c = true) (h : Opens a s) : Opens (c :: a) s := fun rest => by
  rw [List.cons_append, tokens_space hc]
  exact h rest

theorem punctuation {c : Char} (hc : isPunctuation c = true) (h : Opens a s) : Opens (c :: a) ([c] :: s) :=
  fun rest => by
    rw [List.cons_append, tokens_punctuation hc, h rest, Option.map_map]
    rfl

theorem append (ha : Opens a s) (hb : Opens b t) : Opens (a ++ b) (s ++ t) := fun rest => by
  rw [List.append_assoc, ha, hb, map_append_append]

theorem append_lexes (ha : Opens a s) (hb : Lexes b t) : Lexes (a ++ b) (s ++ t) := fun rest hrest => by
  rw [List.append_assoc, ha, hb rest hrest, map_append_append]

end Opens

/-! ## Identifiers -/

/-- `identifier.replace('"', '""')`. -/
def doubled (identifier : List Char) : List Char := identifier.flatMap fun c => if c = '"' then ['"', '"'] else [c]

/-- `_quote`. -/
def quoteSql (identifier : List Char) : List Char := '"' :: (doubled identifier ++ ['"'])

section quoted

variable {delimiter c : Char} {rest : List Char}

theorem quotedToken_cons (hc : c ≠ ';') (hne : c ≠ delimiter) :
    quotedToken delimiter (c :: rest) = (quotedToken delimiter rest).map fun p => (c :: p.1, p.2) := by
  cases rest with
  | nil => simp [quotedToken, hc, hne]
  | cons d rest => rw [quotedToken, if_neg hc, if_pos hne]

theorem quotedToken_doubled (hd : delimiter ≠ ';') : quotedToken delimiter (delimiter :: delimiter :: rest) =
    (quotedToken delimiter rest).map fun p => (delimiter :: delimiter :: p.1, p.2) := by
  rw [quotedToken, if_neg hd, if_neg (by simp), if_pos rfl]

theorem quotedToken_end (hd : delimiter ≠ ';') (hrest : rest.head? ≠ some delimiter) :
    quotedToken delimiter (delimiter :: rest) = some ([delimiter], rest) := by
  cases rest with
  | nil => rw [quotedToken, if_neg hd, if_neg (by simp)]
  | cons c rest => rw [quotedToken, if_neg hd, if_neg (by simp), if_neg (by simpa using hrest)]

end quoted

/-- The token goes to the end of the identifier. -/
theorem quotedToken_quote {s : List Char} (hs : ';' ∉ s) {rest : List Char} (hrest : closed rest = true) :
    quotedToken '"' (doubled s ++ '"' :: rest) = some (doubled s ++ ['"'], rest) := by
  induction s with
  | nil =>
    refine quotedToken_end (by decide) fun hhead => ?_
    cases rest with
    | nil => exact absurd hhead (by simp)
    | cons c rest => exact ne_quote_of_closed hrest (Option.some.inj hhead)
  | cons c s ih =>
    obtain ⟨hc, hs'⟩ := not_or.1 (mt List.mem_cons.2 hs)
    by_cases hquote : c = '"'
    · subst hquote
      have hcons : doubled ('"' :: s) = '"' :: '"' :: doubled s := rfl
      rw [hcons, List.cons_append, List.cons_append, quotedToken_doubled (by decide), ih hs']
      rfl
    · have hcons : doubled (c :: s) = c :: doubled s := by rw [doubled, List.flatMap_cons, if_neg hquote]; rfl
      rw [hcons, List.cons_append, quotedToken_cons (Ne.symm hc) hquote, ih hs']
      rfl

/-- **Any identifier without a semicolon is one token when quoted.** -/
theorem Lexes.quote {s : List Char} (hs : ';' ∉ s) : Lexes (quoteSql s) [quoteSql s] := fun rest hrest => by
  rw [quoteSql, List.cons_append, tokens, if_neg (by decide), if_pos (.inl rfl), List.append_assoc,
    List.singleton_append]
  split
  · next h =>
    rw [quotedToken_quote hs hrest] at h
    exact absurd h (by simp)
  · next token left h =>
    rw [quotedToken_quote hs hrest] at h
    obtain ⟨rfl, rfl⟩ := Prod.mk.inj (Option.some.inj h)
    rfl

end Store

end Aipcs
