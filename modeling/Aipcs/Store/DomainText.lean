import Aipcs.Store.DomainLayout

/-!
# Store — the texts of tables, word by word

A table's text says its layout and nothing else: its words are those of
its columns and of its keys. Two texts of one layout have the same words,
whichever way they came about.
-/

namespace Aipcs

namespace Store

open Manifest Relational

/-! ## A table's text, in two parts -/

/-- What is read of a `CREATE TABLE`. -/
def readTable (e : RelationalEntity) (relationships : List RelationalRelationship) : TableLayout :=
  ⟨e.name, e.fields.map columnLayout, relationships.map foreignKeyLayout⟩

/-- The text of a table up to its last column. -/
def columnsSql (e : RelationalEntity) : List Char :=
  "CREATE TABLE ".toList ++ quote e.name ++ " (\n    ".toList ++
    ",\n    ".toList.intercalate (e.fields.map fieldDeclaration)

/-- The text of a table past its last column. -/
def restSql (relationships : List RelationalRelationship) : List Char :=
  (relationships.flatMap fun r => ",\n    ".toList ++ foreignKeyDeclaration r) ++ "\n) STRICT".toList

theorem intercalate_cons {α : Type} (separator x : List α) (xs : List (List α)) :
    separator.intercalate (x :: xs) = x ++ xs.flatMap (separator ++ ·) := by
  induction xs generalizing x with
  | nil => simp
  | cons y ys ih =>
    rw [List.intercalate_cons_cons, ih y, List.flatMap_cons, List.append_assoc, List.append_assoc]

theorem intercalate_append {α β γ : Type} (start separator stop : List α) (x : β) (xs : List β) (ys : List γ)
    (f : β → List α) (g : γ → List α) :
    start ++ separator.intercalate ((x :: xs).map f ++ ys.map g) ++ stop =
      (start ++ separator.intercalate ((x :: xs).map f)) ++ ((ys.flatMap fun y => separator ++ g y) ++ stop) := by
  rw [List.map_cons, List.cons_append, intercalate_cons, intercalate_cons, List.flatMap_append, List.flatMap_map g]
  simp only [List.append_assoc]

/-- The two parts are the whole. -/
theorem createTableSql_eq {e : RelationalEntity} (he : e.fields ≠ []) (relationships : List RelationalRelationship) :
    createTableSql e relationships = columnsSql e ++ restSql relationships := by
  obtain ⟨f, fields, hfields⟩ := List.exists_cons_of_ne_nil he
  unfold createTableSql columnsSql restSql
  rw [hfields]
  exact intercalate_append _ _ _ _ _ _ _ _

/-! ## Words -/

/-- The words of a column. -/
def columnWords (c : ColumnLayout) : List (List Char) :=
  [quote c.name, c.type.value.toList] ++
    if c.primaryKey then ["PRIMARY".toList, "KEY".toList, "NOT".toList, "NULL".toList]
    else if c.notNull then ["NOT".toList, "NULL".toList] else []

/-- The words of a foreign key. -/
def keyWords (k : ForeignKeyLayout) : List (List Char) :=
  ["CONSTRAINT".toList, quote k.name, "FOREIGN".toList, "KEY".toList, ['('], quote k.field, [')'], "REFERENCES".toList,
    quote k.target, ['('], quote k.targetField, [')'], "ON".toList, "DELETE".toList, "RESTRICT".toList, "ON".toList,
    "UPDATE".toList, "RESTRICT".toList]

/-- The words of columns, with commas between them. -/
def commaWords : List ColumnLayout → List (List Char)
  | [] => []
  | [c] => columnWords c
  | c :: c' :: rest => columnWords c ++ [','] :: commaWords (c' :: rest)

/-- The words of a table up to its last column. -/
def headWords (t : TableLayout) : List (List Char) :=
  ["CREATE".toList, "TABLE".toList, quote t.name, ['(']] ++ commaWords t.columns

/-- The words of a table past its last column. -/
def restWords (t : TableLayout) : List (List Char) :=
  (t.foreignKeys.flatMap fun k => [','] :: keyWords k) ++ [[')'], "STRICT".toList]

theorem commaWords_append {cs : List ColumnLayout} (hcs : cs ≠ []) (c : ColumnLayout) :
    commaWords (cs ++ [c]) = commaWords cs ++ [','] :: columnWords c := by
  induction cs with
  | nil => exact absurd rfl hcs
  | cons x cs ih =>
    cases cs with
    | nil => rfl
    | cons x' cs =>
      have h := ih (by simp)
      simp only [List.cons_append] at h ⊢
      rw [commaWords, h, commaWords, List.append_assoc]
      rfl

/-! ## What the texts are -/

theorem semicolon_of_identifier {s : String} (h : isIdentifier s = true) : ';' ∉ s.toList := by
  unfold isIdentifier at h
  split at h
  · exact absurd h (by simp)
  · next c rest hs =>
    rw [hs]
    simp only [Bool.and_eq_true, List.all_eq_true] at h
    rintro (_ | ⟨_, hmem⟩)
    · exact absurd h.1.1.1 (by decide)
    · exact absurd (h.2 _ hmem) (by decide)

theorem lexes_quote {s : String} (h : isIdentifier s = true) : Lexes (quote s) [quote s] :=
  .quote (semicolon_of_identifier h)

theorem lexes_word {s : String} (h : ∃ c w, s.toList = c :: w ∧ isIdentifierStart c = true ∧
    w.all isIdentifierContinuation = true) : Lexes s.toList [s.toList] := by
  obtain ⟨c, w, hs, hc, hw⟩ := h
  rw [hs]
  exact .word hc hw

/-- A word after a space. -/
theorem lexes_keyword {c : Char} {w : List Char} (hc : isIdentifierStart c = true)
    (hw : w.all isIdentifierContinuation = true) : Lexes (' ' :: c :: w) [c :: w] := (Lexes.word hc hw).space rfl

theorem lexes_type (t : SqliteType) : Lexes t.value.toList [t.value.toList] := by
  cases t <;> exact lexes_word ⟨_, _, rfl, rfl, rfl⟩

/-- What is asked of a column, a key or not, required or not. -/
theorem lexes_constraint (primaryKey notNull : Bool) : Lexes
    (if primaryKey then " PRIMARY KEY NOT NULL".toList else if notNull then " NOT NULL".toList else [])
    (if primaryKey then ["PRIMARY".toList, "KEY".toList, "NOT".toList, "NULL".toList]
      else if notNull then ["NOT".toList, "NULL".toList] else []) := by
  have hnot : Lexes " NOT NULL".toList ["NOT".toList, "NULL".toList] :=
    (lexes_keyword (c := 'N') (w := "OT".toList) rfl rfl).append
      (lexes_keyword (c := 'N') (w := "ULL".toList) rfl rfl) rfl
  have hprimary : Lexes " PRIMARY KEY NOT NULL".toList ["PRIMARY".toList, "KEY".toList, "NOT".toList, "NULL".toList] :=
    (lexes_keyword (c := 'P') (w := "RIMARY".toList) rfl rfl).append
      ((lexes_keyword (c := 'K') (w := "EY".toList) rfl rfl).append hnot rfl) rfl
  cases primaryKey <;> cases notNull
  · exact .nil
  · exact hnot
  · exact hprimary
  · exact hprimary

theorem closed_constraint (primaryKey notNull : Bool) : closed
    (if primaryKey then " PRIMARY KEY NOT NULL".toList else if notNull then " NOT NULL".toList else []) = true := by
  cases primaryKey <;> cases notNull <;> rfl

theorem ite_or {α : Type} (p r : Bool) (x y z : α) :
    (if p then x else if r then y else z) = if p then x else if r || p then y else z := by
  cases p <;> cases r <;> rfl

/-- **A column's declaration.** -/
theorem lexes_field {f : RelationalField} (h : f.Valid) : Lexes (fieldDeclaration f) (columnWords (columnLayout f)) := by
  have hname : Opens (quote f.name ++ " ".toList) [quote f.name] :=
    (lexes_quote h.name).append_opens (.space rfl .nil) (List.cons_ne_nil _ _) rfl
  have htype := (hname.append_lexes (lexes_type (sqliteType f.logicalType))).append
    (lexes_constraint f.primaryKey (f.required || f.primaryKey)) (closed_constraint _ _)
  rw [← ite_or] at htype
  exact htype

/-- **A foreign key's declaration.** -/
theorem lexes_foreignKey {r : RelationalRelationship} (h : r.Valid) :
    Lexes (foreignKeyDeclaration r) (keyWords (foreignKeyLayout r)) := by
  have hconstraint : Opens "CONSTRAINT ".toList ["CONSTRAINT".toList] :=
    (Lexes.word (c := 'C') (w := "ONSTRAINT".toList) rfl rfl).append_opens (.space rfl .nil) (List.cons_ne_nil _ _) rfl
  have hforeign : Opens " FOREIGN KEY (".toList ["FOREIGN".toList, "KEY".toList, ['(']] :=
    ((lexes_keyword (c := 'F') (w := "OREIGN".toList) rfl rfl).append
      (lexes_keyword (c := 'K') (w := "EY".toList) rfl rfl) rfl).append_opens
      (.space rfl (.punctuation rfl .nil)) (List.cons_ne_nil _ _) rfl
  have hreferences : Opens "REFERENCES ".toList ["REFERENCES".toList] :=
    (Lexes.word (c := 'R') (w := "EFERENCES".toList) rfl rfl).append_opens (.space rfl .nil) (List.cons_ne_nil _ _) rfl
  have hleft : Opens " (".toList [['(']] := .space rfl (.punctuation rfl .nil)
  have hright : Opens ") ".toList [[')']] := .punctuation rfl (.space rfl .nil)
  have hactions : Lexes "ON DELETE RESTRICT ON UPDATE RESTRICT".toList
      ["ON".toList, "DELETE".toList, "RESTRICT".toList, "ON".toList, "UPDATE".toList, "RESTRICT".toList] :=
    (Lexes.word (c := 'O') (w := "N".toList) rfl rfl).append
      ((lexes_keyword (c := 'D') (w := "ELETE".toList) rfl rfl).append
      ((lexes_keyword (c := 'R') (w := "ESTRICT".toList) rfl rfl).append
      ((lexes_keyword (c := 'O') (w := "N".toList) rfl rfl).append
      ((lexes_keyword (c := 'U') (w := "PDATE".toList) rfl rfl).append
      (lexes_keyword (c := 'R') (w := "ESTRICT".toList) rfl rfl) rfl) rfl) rfl) rfl) rfl
  have hname := hconstraint.append_lexes (lexes_quote h.name.1)
  have hsource := (hname.append_opens hforeign (List.cons_ne_nil _ _) rfl).append_lexes (lexes_quote h.source.2)
  have htarget := ((hsource.append_opens hright (List.cons_ne_nil _ _) rfl).append hreferences).append_lexes
    (lexes_quote h.target.1)
  have hfield := (htarget.append_opens hleft (List.cons_ne_nil _ _) rfl).append_lexes (lexes_quote h.target.2)
  exact (hfield.append_opens hright (List.cons_ne_nil _ _) rfl).append_lexes hactions

theorem opens_comma : Opens ",\n    ".toList [[',']] :=
  .punctuation rfl (.space rfl (.space rfl (.space rfl (.space rfl (.space rfl .nil)))))

/-- Columns, with commas between them. -/
theorem lexes_fields : ∀ {fields : List RelationalField}, (∀ f ∈ fields, f.Valid) →
    Lexes (",\n    ".toList.intercalate (fields.map fieldDeclaration)) (commaWords (fields.map columnLayout))
  | [], _ => .nil
  | [f], h => by
    rw [List.map_singleton, List.map_singleton, List.intercalate_singleton]
    exact lexes_field (h f (List.mem_singleton_self f))
  | f :: f' :: fields, h => by
    have hrest := @lexes_fields (f' :: fields) fun x hx => h x (List.mem_cons_of_mem _ hx)
    have hfield := (lexes_field (h f List.mem_cons_self)).append_opens opens_comma (List.cons_ne_nil _ _) rfl
    rw [List.map_cons, List.map_cons, List.intercalate_cons_cons, List.map_cons, List.map_cons, commaWords,
      List.append_cons]
    exact hfield.append_lexes hrest

/-- **A table's text up to its last column.** -/
theorem lexes_columnsSql {e : RelationalEntity} (h : e.Valid) (relationships : List RelationalRelationship) :
    Lexes (columnsSql e) (headWords (readTable e relationships)) := by
  have hcreate : Opens "CREATE TABLE ".toList ["CREATE".toList, "TABLE".toList] :=
    ((Lexes.word (c := 'C') (w := "REATE".toList) rfl rfl).append
      (lexes_keyword (c := 'T') (w := "ABLE".toList) rfl rfl) rfl).append_opens (.space rfl .nil) (List.cons_ne_nil _ _) rfl
  have hleft : Opens " (\n    ".toList [['(']] :=
    .space rfl (.punctuation rfl (.space rfl (.space rfl (.space rfl (.space rfl (.space rfl .nil))))))
  have hname := (hcreate.append_lexes (lexes_quote h.name)).append_opens hleft (List.cons_ne_nil _ _) rfl
  exact hname.append_lexes (lexes_fields h.fields)

/-- **A table's text past its last column.** -/
theorem lexes_restSql {relationships : List RelationalRelationship} (h : ∀ r ∈ relationships, r.Valid)
    (e : RelationalEntity) : Lexes (restSql relationships) (restWords (readTable e relationships)) := by
  have hend : Lexes "\n) STRICT".toList [[')'], "STRICT".toList] :=
    .space rfl (.punctuation rfl (lexes_keyword (c := 'S') (w := "TRICT".toList) rfl rfl))
  unfold restSql restWords readTable
  induction relationships with
  | nil => exact hend
  | cons r relationships ih =>
    have hrest := ih fun x hx => h x (List.mem_cons_of_mem _ hx)
    have hkey := (opens_comma.append_lexes (lexes_foreignKey (h r List.mem_cons_self))).append hrest (by
      cases relationships <;> rfl)
    rw [List.flatMap_cons, List.append_assoc, List.map_cons, List.flatMap_cons, List.append_assoc]
    exact hkey

end Store

end Aipcs
