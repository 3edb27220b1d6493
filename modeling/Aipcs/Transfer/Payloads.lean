import Aipcs.Common.Sorting
import Aipcs.Data.Evidence
import Aipcs.Portable.Stream

/-!
# Transfer — the payloads of a bundle's members

A member is written as a dictionary of texts, numbers and documents, which
the bundle freezes in its own order of names and prints canonically. What
the reader gets of it has the integers that floats spell in place of those
floats, and is frozen again in the records' order. Decoded, it is the
member with its documents settled, and nothing else of it has changed
(`decodeMember_arrived`).
-/

namespace Aipcs

namespace Transfer

open Manifest Portable Records Registry Data

/-! ## A document on its way -/

theorem settleEntries_eq (entries : List (String × PortableJson)) :
    settleEntries entries = entries.mapM fun e => (settle e.2).map (Prod.mk e.1) := by
  induction entries with
  | nil => rfl
  | cons e entries ih =>
    obtain ⟨name, v⟩ := e
    rw [settleEntries, List.mapM_cons, ← ih]
    cases settle v <;> cases settleEntries entries <;> rfl

theorem freezeNamed_thaw (entries : List (String × PortableJson)) :
    freezeNamed (thawEntries entries) =
      entries.mapM fun e => (freezeValue (thawJson e.2)).map (Prod.mk e.1) := by
  induction entries with
  | nil => rfl
  | cons e entries ih =>
    obtain ⟨name, v⟩ := e
    rw [thawEntries, freezeNamed, requireScalarText_pyStr, List.mapM_cons, ← ih]
    cases freezeValue (thawJson v) <;> cases freezeNamed (thawEntries entries) <;> rfl

/-- Entries keep their names. -/
theorem keeps_name {g : PortableJson → Option PortableJson} (a b : String × PortableJson)
    (h : (g a.2).map (Prod.mk a.1) = some b) : b.1 = a.1 := by
  obtain ⟨w, -, rfl⟩ := Option.map_eq_some_iff.1 h
  rfl

theorem settleEntries_sortEntries (entries : List (String × PortableJson)) :
    settleEntries (sortEntries entries) = (settleEntries entries).map sortEntries := by
  rw [settleEntries_eq, settleEntries_eq]
  exact @Sorting.mapM_insertionSort _ _ _ _ _ nameLe _ _ keeps_name entries

theorem freezeNamed_sortEntries (entries : List (String × PortableJson)) :
    freezeNamed (thawEntries (sortEntries entries)) = (freezeNamed (thawEntries entries)).map sortEntries := by
  rw [freezeNamed_thaw, freezeNamed_thaw]
  exact @Sorting.mapM_insertionSort _ _ _ _ _ nameLe _ _ (@keeps_name fun v => freezeValue (thawJson v)) entries

/-- Names in ascending order are so again after they stood in another. -/
theorem insertionSort_sortEntries {entries : List (String × PortableJson)}
    (h : (entries.map Prod.fst).Pairwise (· < ·)) :
    (sortEntries entries).insertionSort (fun a b => a.1 ≤ b.1) = entries := by
  have hnodup : (entries.map Prod.fst).Nodup := h.imp fun hlt => ne_of_lt hlt
  have hsorted : entries.Pairwise fun a b => a.1 ≤ b.1 := (List.pairwise_map.1 h).imp le_of_lt
  refine Sorting.insertionSort_eq (fun a b => le_total a.1 b.1) (fun a b c hab hbc => le_trans hab hbc)
    (sortEntries_perm entries) hsorted fun a ha b hb hab hba => ?_
  exact List.inj_on_of_nodup_map hnodup ha hb (le_antisymm hab hba)

mutual

/-- **A value in a bundle**: frozen in the bundle's order of names, settled
by its text, thawed and frozen in the records' order again, it is what its
settling alone would make of it. -/
theorem freezeValue_settle : ∀ {v j : PortableJson} {room : ℕ}, validateJson v = true →
    freezeJson (thawJson v) room = some j → (settle j).bind (fun w => freezeValue (thawJson w)) = settle v
  | .null, j, room, _, h => by
    rw [thawJson, freezeJson] at h
    obtain rfl := Option.some.inj h
    rfl
  | .bool b, j, room, _, h => by
    rw [thawJson, freezeJson] at h
    obtain rfl := Option.some.inj h
    rfl
  | .int i, j, room, _, h => by
    rw [thawJson, freezeJson, dif_pos i.2] at h
    obtain rfl := Option.some.inj h
    exact dif_pos i.2
  | .float x, j, room, _, h => by
    rw [thawJson, freezeJson, dif_pos x.2] at h
    obtain rfl := Option.some.inj h
    rw [settle, settleFloat]
    cases spelledInteger x with
    | none => exact dif_pos x.2
    | some i =>
      dsimp only
      split_ifs with hi
      · exact dif_pos hi
      · rfl
  | .str s, j, room, _, h => by
    rw [thawJson, freezeJson_str] at h
    obtain rfl := Option.some.inj h
    change freezeValue (.str (pyStr s)) = some (.str s)
    rw [freezeValue, requireScalarText_pyStr, Option.map_some]
  | .arr items, j, room, hv, h => by
    rw [thawJson, freezeJson] at h
    split_ifs at h
    obtain ⟨js, hjs, rfl⟩ := Option.map_eq_some_iff.1 h
    rw [settle, settle, ← freezeValues_settle (show validateItems items = true by simpa [validateJson] using hv) hjs]
    cases settleItems js <;> rfl
  | .obj entries, j, room, hv, h => by
    rw [validateJson, Bool.and_eq_true, Bool.and_eq_true, frozenNames, Bool.and_eq_true, decide_eq_true_eq] at hv
    rw [thawJson, freezeJson] at h
    split_ifs at h
    cases hf : freezeEntries (thawEntries entries) (room - 1) with
    | none => rw [hf] at h; exact absurd h (by simp)
    | some frozen =>
      rw [hf] at h
      dsimp only at h
      split_ifs at h
      obtain rfl := Option.some.inj h
      have hentries := freezeNamed_settle hv.1.2 hf
      have hall : (settle (.obj (sortEntries frozen))).bind (fun w => freezeValue (thawJson w)) =
          ((settleEntries frozen).bind fun es => freezeNamed (thawEntries es)).map fun es =>
            .obj ((sortEntries es).insertionSort fun a b => a.1 ≤ b.1) := by
        rw [settle, settleEntries_sortEntries]
        cases settleEntries frozen with
        | none => rfl
        | some es =>
          simp only [Option.map_some, Option.bind_some, thawJson, freezeValue, freezeNamed_sortEntries, Option.map_map]
          rfl
      rw [hall, hentries, settle]
      cases hs : settleEntries entries with
      | none => rfl
      | some es =>
        rw [Option.map_some, Option.map_some,
          insertionSort_sortEntries (by rw [settleEntries_names hs]; exact hv.1.1.2)]

theorem freezeValues_settle : ∀ {items js : List PortableJson} {room : ℕ}, validateItems items = true →
    freezeItems (thawItems items) room = some js →
      (settleItems js).bind (fun ws => freezeValues (thawItems ws)) = settleItems items
  | [], js, room, _, h => by
    rw [thawItems, freezeItems] at h
    obtain rfl := Option.some.inj h
    rfl
  | v :: rest, js, room, hv, h => by
    rw [validateItems, Bool.and_eq_true] at hv
    rw [thawItems, freezeItems] at h
    split at h
    · next j js' hj hjs =>
      obtain rfl := Option.some.inj h
      have hhead := freezeValue_settle hv.1 hj
      have htail := freezeValues_settle hv.2 hjs
      rw [settleItems, settleItems, ← hhead, ← htail]
      cases hs : settle j with
      | none => rfl
      | some w =>
        cases hws : settleItems js' with
        | none =>
          rw [Option.bind_some, Option.bind_none]
          cases freezeValue (thawJson w) <;> rfl
        | some ws =>
          cases hone : freezeValue (thawJson w) <;> cases hrest : freezeValues (thawItems ws) <;>
            simp [thawItems, freezeValues, hone, hrest]
    · exact absurd h (by simp)

theorem freezeNamed_settle : ∀ {entries js : List (String × PortableJson)} {room : ℕ},
    validateEntries entries = true → freezeEntries (thawEntries entries) room = some js →
      (settleEntries js).bind (fun es => freezeNamed (thawEntries es)) = settleEntries entries
  | [], js, room, _, h => by
    rw [thawEntries, freezeEntries] at h
    obtain rfl := Option.some.inj h
    rfl
  | (name, v) :: rest, js, room, hv, h => by
    rw [validateEntries, Bool.and_eq_true] at hv
    rw [thawEntries, freezeEntries, requireScalarText_pyStr] at h
    split at h
    · next n j js' hn hj hjs =>
      obtain rfl := Option.some.inj h
      obtain rfl := Option.some.inj hn
      have hhead := freezeValue_settle hv.1 hj
      have htail := freezeNamed_settle hv.2 hjs
      rw [settleEntries, settleEntries, ← hhead, ← htail]
      cases hs : settle j with
      | none => rfl
      | some w =>
        cases hws : settleEntries js' with
        | none =>
          rw [Option.bind_some, Option.bind_none]
          cases freezeValue (thawJson w) <;> rfl
        | some ws =>
          dsimp only [Option.bind_some]
          rw [thawEntries, freezeNamed, requireScalarText_pyStr]
          cases freezeValue (thawJson w) <;> cases freezeNamed (thawEntries ws) <;> rfl
    · exact absurd h (by simp)

end

/-! ## Payloads -/

/-- A dictionary whose names are literals. -/
def payloadDict (entries : List (String × PyVal)) : PyVal := .dict (entries.map fun e => (pyStr e.1, e.2))

def textPayload (s : String) : PyVal := .str (pyStr s)

/-- `None`, or what a value is written as. -/
def optionalPayload {α : Type} (write : α → PyVal) : Option α → PyVal
  | none => .none
  | some v => write v

/-- `encode_member_payload`. -/
def encodeMemberPayload : PortableStoreMember → List (String × PyVal)
  | .record v => [("created_at", textPayload v.createdAt.text), ("created_via", textPayload v.createdVia.1),
      ("entity_name", textPayload v.entityName.1), ("fields", v.fields.toDict),
      ("record_id", textPayload v.recordId.text), ("record_version", .int v.recordVersion.1),
      ("updated_at", textPayload v.updatedAt.text)]
  | .history h => [("after", optionalPayload FrozenJsonObject.toDict h.after),
      ("before", optionalPayload FrozenJsonObject.toDict h.before), ("entity_name", textPayload h.entityName.1),
      ("kind", textPayload h.kind.value), ("occurred_at", textPayload h.occurredAt.text),
      ("record_id", textPayload h.recordId.text), ("record_version", .int h.recordVersion.1)]
  | .branch v => [("branch_id", textPayload v.branchId.text), ("branch_revision", .int v.branchRevision.1),
      ("branch_type", optionalPayload (fun s => textPayload s.1) v.branchType),
      ("created_at", textPayload v.createdAt.text), ("intent", textPayload v.intent.1),
      ("parent_branch_id", optionalPayload (fun u => textPayload u.text) v.parentBranchId),
      ("retrieval_summary", optionalPayload (fun s => textPayload s.1) v.retrievalSummary),
      ("slug", textPayload v.slug.1), ("status", textPayload v.status.value), ("title", textPayload v.title.1),
      ("updated_at", textPayload v.updatedAt.text)]
  | .branchMembership v => [("branch_id", textPayload v.branchId.text), ("entity_name", textPayload v.entityName.1),
      ("record_id", textPayload v.recordId.text), ("role", textPayload v.role.value)]

/-! ## Payloads read -/

/-- `_exact`. -/
def exactNames (names : List String) : PyVal → Bool
  | .dict entries => decide ((∀ n ∈ entries.map Prod.fst, n ∈ names.map pyStr) ∧
      ∀ n ∈ names.map pyStr, n ∈ entries.map Prod.fst)
  | _ => false

/-- `_uuid`. -/
def uuidOf (raw : PyVal) : Option Uuid := (stringOf raw).bind Uuid.ofText

/-- `_time`. -/
def timeOf (raw : PyVal) : Option Instant := (stringOf raw).bind Instant.ofText

/-- `_optional_json_object`, and the other values that may be `None`. -/
def optionalOf {α : Type} (read : PyVal → Option α) : PyVal → Option (Option α)
  | .none => some none
  | raw => (read raw).map some

/-- A text that a check lets pass. -/
def checkedText (ok : String → Bool) (raw : PyVal) : Option { s : String // ok s = true } :=
  (stringOf raw).bind fun s => if h : ok s = true then some ⟨s, h⟩ else none

/-- A number that `_require_revision` lets pass. -/
def versionOf : PyVal → Option Revision
  | .int i => if h : 1 ≤ i.toNat then some ⟨i.toNat, h⟩ else none
  | _ => none

/-- One of some values, by its text. -/
def choiceOf {α : Type} (values : List α) (text : α → String) (raw : PyVal) : Option α :=
  (stringOf raw).bind fun s => values.find? fun v => text v = s

def HISTORY_KINDS : List HistoryKind :=
  [.create, .update, .delete, .primaryAssign, .primaryMove, .primaryUnassign, .relatedAssign, .relatedUnassign]

/-- `RecordHistoryEvent(...)`. -/
def buildEvent (entityName : String) (recordId : Uuid) (recordVersion : ℕ) (kind : HistoryKind) (occurredAt : Instant)
    (before after : Option FrozenJsonObject) : Option RecordHistoryEvent :=
  if h : isIdentifier entityName = true ∧ 1 ≤ recordVersion ∧
      (kind = .create → before.isNone = true ∧ after.isSome = true) ∧
      (kind = .delete → before.isSome = true ∧ after.isNone = true) then
    some ⟨⟨entityName, h.1⟩, recordId, ⟨recordVersion, h.2.1⟩, kind, occurredAt, before, after,
      fun hkind => (h.2.2.1 hkind).imp_left Option.isNone_iff_eq_none.1,
      fun hkind => (h.2.2.2 hkind).imp_right Option.isNone_iff_eq_none.1⟩
  else none

def RECORD_NAMES : List String :=
  ["created_at", "created_via", "entity_name", "fields", "record_id", "record_version", "updated_at"]

def HISTORY_NAMES : List String :=
  ["after", "before", "entity_name", "kind", "occurred_at", "record_id", "record_version"]

def BRANCH_NAMES : List String :=
  ["branch_id", "branch_revision", "branch_type", "created_at", "intent", "parent_branch_id", "retrieval_summary",
    "slug", "status", "title", "updated_at"]

def MEMBERSHIP_NAMES : List String := ["branch_id", "entity_name", "record_id", "role"]

/-- The record of a payload. -/
def decodeRecordPayload (payload : PyVal) : Option RecordValue := do
  let entityName ← (member "entity_name" payload).bind stringOf
  let recordId ← (member "record_id" payload).bind uuidOf
  let recordVersion ← (member "record_version" payload).bind versionOf
  let createdAt ← (member "created_at" payload).bind timeOf
  let updatedAt ← (member "updated_at" payload).bind timeOf
  let createdVia ← (member "created_via" payload).bind stringOf
  let fields ← (member "fields" payload).bind Data.freezeObject
  if exactNames RECORD_NAMES payload then
    buildRecord entityName recordId recordVersion.1 createdAt updatedAt createdVia fields
  else none

/-- The event of a payload. -/
def decodeHistoryPayload (payload : PyVal) : Option RecordHistoryEvent := do
  let entityName ← (member "entity_name" payload).bind stringOf
  let recordId ← (member "record_id" payload).bind uuidOf
  let recordVersion ← (member "record_version" payload).bind versionOf
  let kind ← (member "kind" payload).bind (choiceOf HISTORY_KINDS HistoryKind.value)
  let occurredAt ← (member "occurred_at" payload).bind timeOf
  let before ← (member "before" payload).bind (optionalOf Data.freezeObject)
  let after ← (member "after" payload).bind (optionalOf Data.freezeObject)
  if exactNames HISTORY_NAMES payload then
    buildEvent entityName recordId recordVersion.1 kind occurredAt before after
  else none

/-- The branch of a payload. -/
def decodeBranchPayload (payload : PyVal) : Option BranchValue := do
  let branchId ← (member "branch_id" payload).bind uuidOf
  let slug ← (member "slug" payload).bind (checkedText requireSlug)
  let title ← (member "title" payload).bind (checkedText fun s => requireText s 160)
  let intent ← (member "intent" payload).bind (checkedText fun s => requireText s 1000)
  let branchType ← (member "branch_type" payload).bind (optionalOf (checkedText requireBranchType))
  let parentBranchId ← (member "parent_branch_id" payload).bind (optionalOf uuidOf)
  let status ← (member "status" payload).bind (choiceOf [.active, .archived, .superseded] BranchStatus.value)
  let retrievalSummary ← (member "retrieval_summary" payload).bind (optionalOf (checkedText fun s => requireText s 1000))
  let createdAt ← (member "created_at" payload).bind timeOf
  let updatedAt ← (member "updated_at" payload).bind timeOf
  let branchRevision ← (member "branch_revision" payload).bind versionOf
  if exactNames BRANCH_NAMES payload then
    buildBranch branchId slug title intent branchType parentBranchId status retrievalSummary createdAt updatedAt
      branchRevision
  else none

/-- The membership of a payload. -/
def decodeMembershipPayload (payload : PyVal) : Option BranchMembership := do
  let branchId ← (member "branch_id" payload).bind uuidOf
  let entityName ← (member "entity_name" payload).bind stringOf
  let recordId ← (member "record_id" payload).bind uuidOf
  let role ← (member "role" payload).bind (choiceOf [.primary, .related] BranchRole.value)
  if exactNames MEMBERSHIP_NAMES payload then
    if h : entityName ≠ "" ∧ entityName.length ≤ 64 then some ⟨branchId, ⟨entityName, h⟩, recordId, role⟩ else none
  else none

/-- `_decode_member`. -/
def decodeMember (kind : SectionKind) (payload : PyVal) : Option PortableStoreMember :=
  match kind with
  | .record => (decodeRecordPayload payload).map .record
  | .history => (decodeHistoryPayload payload).map .history
  | .branch => (decodeBranchPayload payload).map .branch
  | .branchMembership => (decodeMembershipPayload payload).map .branchMembership
  | _ => none

/-! ## What arrives -/

/-- The document as a bundle brings it: with the integers its floats spell in
place of those floats. -/
def settleDocument (o : FrozenJsonObject) : Option FrozenJsonObject :=
  (settleEntries o.entries).bind FrozenJsonObject.ofEntries

def settleOptional : Option FrozenJsonObject → Option (Option FrozenJsonObject)
  | none => some none
  | some o => (settleDocument o).map some

/-- The member as a bundle brings it. -/
def settleMember : PortableStoreMember → Option PortableStoreMember
  | .record v => do
    let fields ← settleDocument v.fields
    (buildRecord v.entityName.1 v.recordId v.recordVersion.1 v.createdAt v.updatedAt v.createdVia.1 fields).map .record
  | .history h => do
    let before ← settleOptional h.before
    let after ← settleOptional h.after
    (buildEvent h.entityName.1 h.recordId h.recordVersion.1 h.kind h.occurredAt before after).map .history
  | m => some m

/-- What is read where a value was written. -/
def Arrives (v raw : PyVal) : Prop :=
  ∃ room j w, freezeJson v room = some j ∧ settle j = some w ∧ raw = thawJson w

section arrival

variable {raw : PyVal} {s : String} {n : ℕ}

theorem arrives_text (h : Arrives (textPayload s) raw) : raw = textPayload s := by
  obtain ⟨room, j, w, hj, hw, rfl⟩ := h
  rw [textPayload, freezeJson_str] at hj
  obtain rfl := Option.some.inj hj
  obtain rfl := Option.some.inj hw
  rfl

theorem arrives_int {i : ℤ} (h : Arrives (.int i) raw) : raw = .int i := by
  obtain ⟨room, j, w, hj, hw, rfl⟩ := h
  rw [freezeJson] at hj
  split_ifs at hj
  obtain rfl := Option.some.inj hj
  obtain rfl := Option.some.inj hw
  rfl

theorem arrives_none (h : Arrives .none raw) : raw = .none := by
  obtain ⟨room, j, w, hj, hw, rfl⟩ := h
  rw [freezeJson] at hj
  obtain rfl := Option.some.inj hj
  obtain rfl := Option.some.inj hw
  rfl

/-- **A document arrives settled.** -/
theorem arrives_document {o : FrozenJsonObject} (h : Arrives o.toDict raw) :
    Data.freezeObject raw = settleDocument o := by
  obtain ⟨room, j, w, hj, hw, rfl⟩ := h
  have hback := freezeValue_settle o.frozen hj
  rw [hw, Option.bind_some] at hback
  rw [Data.freezeObject, hback, settle, settleDocument]
  cases settleEntries o.entries <;> rfl

/-- What is not `None` does not arrive as `None`. -/
theorem arrives_optional {α β : Type} {write : α → PyVal} {read : PyVal → Option β} {v : Option α}
    {given : α → Option β} (h : Arrives (optionalPayload write v) raw)
    (hone : ∀ a, Arrives (write a) raw → read raw = given a ∧ raw ≠ .none) :
    optionalOf read raw = v.elim (some none) fun a => (given a).map some := by
  cases v with
  | none => rw [arrives_none h]; rfl
  | some a =>
    obtain ⟨hread, hne⟩ := hone a h
    rw [optionalOf.eq_def]
    cases raw <;> first | exact absurd rfl hne | exact congrArg (Option.map some) hread

/-- What entries arrive as. -/
def ArriveAll (entries : List (String × PyVal)) (raws : List (PyStr × PyVal)) : Prop :=
  List.Forall₂ (fun e r => r.1 = pyStr e.1 ∧ Arrives e.2 r.2) entries raws

theorem arriveAll_entries {entries : List (String × PyVal)} {room : ℕ} {frozen settled : List (String × PortableJson)}
    (hfreeze : freezeEntries (entries.map fun e => (pyStr e.1, e.2)) room = some frozen)
    (hsettle : settleEntries frozen = some settled) : ArriveAll entries (thawEntries settled) := by
  induction entries generalizing frozen settled with
  | nil =>
    rw [List.map_nil, freezeEntries] at hfreeze
    obtain rfl := Option.some.inj hfreeze
    obtain rfl := Option.some.inj hsettle
    exact .nil
  | cons e entries ih =>
    rw [List.map_cons, freezeEntries, requireScalarText_pyStr] at hfreeze
    split at hfreeze
    · next name j js hname hj hjs =>
      obtain rfl := Option.some.inj hfreeze
      obtain rfl := Option.some.inj hname
      rw [settleEntries] at hsettle
      split at hsettle
      · next w ws hw hws =>
        obtain rfl := Option.some.inj hsettle
        exact .cons ⟨rfl, room, j, w, hj, hw, rfl⟩ (ih hjs hws)
      · exact absurd hsettle (by simp)
    · exact absurd hfreeze (by simp)

/-- **A payload arrives entry by entry**, where its names are written in the
bundle's order. -/
theorem arriveAll_payload {entries : List (String × PyVal)} {o o' : PortableJsonObject}
    (hnames : StrictNames (entries.map Prod.fst)) (hfreeze : fromMapping entries = some o)
    (hsettle : settle o.value = some o'.value) :
    ∃ raws, thawJson o'.value = .dict raws ∧ ArriveAll entries raws := by
  obtain ⟨frozen, hfrozen, hvalue⟩ := Option.map_eq_some_iff.1 (hnames.fromMapping_eq_some.1 hfreeze)
  rw [← hvalue, settle] at hsettle
  obtain ⟨settled, hsettled, hvalue'⟩ := Option.map_eq_some_iff.1 hsettle
  rw [← hvalue']
  exact ⟨thawEntries settled, rfl, arriveAll_entries hfrozen hsettled⟩

theorem ArriveAll.names {entries : List (String × PyVal)} {raws : List (PyStr × PyVal)} (h : ArriveAll entries raws) :
    raws.map Prod.fst = (entries.map Prod.fst).map pyStr := by
  induction h with
  | nil => rfl
  | cons hhead _ ih => rw [List.map_cons, hhead.1, ih, List.map_cons, List.map_cons]

theorem ArriveAll.exact {entries : List (String × PyVal)} {raws : List (PyStr × PyVal)} (h : ArriveAll entries raws) :
    exactNames (entries.map Prod.fst) (.dict raws) = true := by
  rw [exactNames, h.names]
  exact decide_eq_true ⟨fun _ => id, fun _ => id⟩

/-- What is read under a name of the payload. -/
theorem ArriveAll.member {entries : List (String × PyVal)} {raws : List (PyStr × PyVal)} (h : ArriveAll entries raws)
    {name : String} {v : PyVal} (hv : entries.lookup name = some v) :
    ∃ raw, Data.member name (.dict raws) = some raw ∧ Arrives v raw := by
  induction h with
  | nil => exact absurd hv (by simp)
  | @cons e r entries raws hhead _ ih =>
    obtain ⟨n, w⟩ := e
    obtain ⟨p, raw⟩ := r
    obtain ⟨rfl, harrives⟩ := hhead
    rw [member_cons]
    by_cases hn : name = n
    · subst hn
      rw [List.lookup_cons_self, Option.some.injEq] at hv
      subst hv
      exact ⟨raw, if_pos rfl, harrives⟩
    · rw [List.lookup_cons, beq_false_of_ne hn] at hv
      rw [if_neg hn]
      exact ih hv

end arrival

section readers

variable {raws : List (PyStr × PyVal)} {entries : List (String × PyVal)} {name : String}

variable (h : ArriveAll entries raws)

include h

theorem ArriveAll.text {s : String} (hv : entries.lookup name = some (textPayload s)) :
    Data.member name (.dict raws) = some (textPayload s) := by
  obtain ⟨raw, hraw, harrives⟩ := h.member hv
  rw [hraw, arrives_text harrives]

theorem ArriveAll.int {i : ℤ} (hv : entries.lookup name = some (.int i)) :
    Data.member name (.dict raws) = some (.int i) := by
  obtain ⟨raw, hraw, harrives⟩ := h.member hv
  rw [hraw, arrives_int harrives]

theorem ArriveAll.document {o : FrozenJsonObject} (hv : entries.lookup name = some o.toDict) :
    (Data.member name (.dict raws)).bind Data.freezeObject = settleDocument o := by
  obtain ⟨raw, hraw, harrives⟩ := h.member hv
  rw [hraw, Option.bind_some, arrives_document harrives]

theorem ArriveAll.optionalText {α : Type} {write : α → String} {read : PyVal → Option α} {v : Option α}
    (hv : entries.lookup name = some (optionalPayload (fun a => textPayload (write a)) v))
    (hread : ∀ a, read (textPayload (write a)) = some a) :
    (Data.member name (.dict raws)).bind (optionalOf read) = some v := by
  obtain ⟨raw, hraw, harrives⟩ := h.member hv
  rw [hraw, Option.bind_some, @arrives_optional _ _ _ _ read _ some harrives fun a ha => by
    rw [arrives_text ha]
    exact ⟨hread a, by simp [textPayload]⟩]
  cases v <;> rfl

theorem ArriveAll.optionalDocument {v : Option FrozenJsonObject}
    (hv : entries.lookup name = some (optionalPayload FrozenJsonObject.toDict v)) :
    (Data.member name (.dict raws)).bind (optionalOf Data.freezeObject) = settleOptional v := by
  obtain ⟨raw, hraw, harrives⟩ := h.member hv
  rw [hraw, Option.bind_some, @arrives_optional _ _ _ _ Data.freezeObject _ settleDocument harrives fun o ho => by
    refine ⟨arrives_document ho, ?_⟩
    obtain ⟨room, j, w, hj, hw, rfl⟩ := ho
    rw [FrozenJsonObject.toDict, freezeJson] at hj
    split_ifs at hj
    split at hj
    · split_ifs at hj
      obtain rfl := Option.some.inj hj
      obtain ⟨es, -, rfl⟩ := Option.map_eq_some_iff.1 (show (settleEntries _).map PortableJson.obj = some w from hw)
      simp [thawJson]
    · exact absurd hj (by simp)]
  cases v <;> rfl

end readers

section members

variable {raws : List (PyStr × PyVal)} {m : PortableStoreMember}

@[simp] theorem stringOf_text (s : String) : stringOf (textPayload s) = some s := requireScalarText_pyStr s

@[simp] theorem uuidOf_text (u : Uuid) : uuidOf (textPayload u.text) = some u := by simp [uuidOf]

@[simp] theorem timeOf_text (t : Instant) : timeOf (textPayload t.text) = some t := by simp [timeOf]

@[simp] theorem versionOf_int (n : Revision) : versionOf (.int n.1) = some n := by
  simp [versionOf, n.2]

@[simp] theorem checkedText_text {ok : String → Bool} (s : { s : String // ok s = true }) :
    checkedText ok (textPayload s.1) = some s := by
  simp [checkedText, s.2]

@[simp] theorem historyKind_text (k : HistoryKind) :
    choiceOf HISTORY_KINDS HistoryKind.value (textPayload k.value) = some k := by
  rw [choiceOf, stringOf_text]
  cases k <;> decide

@[simp] theorem branchStatus_text (k : BranchStatus) :
    choiceOf [.active, .archived, .superseded] BranchStatus.value (textPayload k.value) = some k := by
  rw [choiceOf, stringOf_text]
  cases k <;> decide

@[simp] theorem branchRole_text (k : BranchRole) :
    choiceOf [.primary, .related] BranchRole.value (textPayload k.value) = some k := by
  rw [choiceOf, stringOf_text]
  cases k <;> decide

theorem strict_recordNames : StrictNames RECORD_NAMES := by decide
theorem strict_historyNames : StrictNames HISTORY_NAMES := by decide
theorem strict_branchNames : StrictNames BRANCH_NAMES := by decide
theorem strict_membershipNames : StrictNames MEMBERSHIP_NAMES := by decide

/-- The payload's names stand in the bundle's order. -/
theorem strict_memberPayload (m : PortableStoreMember) : StrictNames ((encodeMemberPayload m).map Prod.fst) := by
  cases m with
  | record v => exact strict_recordNames
  | history g => exact strict_historyNames
  | branch v => exact strict_branchNames
  | branchMembership v => exact strict_membershipNames

theorem decodeRecordPayload_arrived {v : RecordValue} (h : ArriveAll (encodeMemberPayload (.record v)) raws) :
    (decodeRecordPayload (.dict raws)).map .record = settleMember (.record v) := by
  have hexact : exactNames RECORD_NAMES (.dict raws) = true := h.exact
  have hentity : member "entity_name" (.dict raws) = some (textPayload v.entityName.1) := h.text rfl
  have hid : member "record_id" (.dict raws) = some (textPayload v.recordId.text) := h.text rfl
  have hversion : member "record_version" (.dict raws) = some (.int v.recordVersion.1) := h.int rfl
  have hcreated : member "created_at" (.dict raws) = some (textPayload v.createdAt.text) := h.text rfl
  have hupdated : member "updated_at" (.dict raws) = some (textPayload v.updatedAt.text) := h.text rfl
  have hvia : member "created_via" (.dict raws) = some (textPayload v.createdVia.1) := h.text rfl
  have hfields : (member "fields" (.dict raws)).bind Data.freezeObject = settleDocument v.fields := h.document rfl
  simp only [decodeRecordPayload, settleMember, hentity, hid, hversion, hcreated, hupdated, hvia, hfields, hexact,
    Option.bind_eq_bind, Option.bind_some, stringOf_text, uuidOf_text, timeOf_text, versionOf_int, if_true]
  rw [Option.map_bind]
  rfl

theorem decodeHistoryPayload_arrived {g : RecordHistoryEvent} (h : ArriveAll (encodeMemberPayload (.history g)) raws) :
    (decodeHistoryPayload (.dict raws)).map .history = settleMember (.history g) := by
  have hexact : exactNames HISTORY_NAMES (.dict raws) = true := h.exact
  have hentity : member "entity_name" (.dict raws) = some (textPayload g.entityName.1) := h.text rfl
  have hid : member "record_id" (.dict raws) = some (textPayload g.recordId.text) := h.text rfl
  have hversion : member "record_version" (.dict raws) = some (.int g.recordVersion.1) := h.int rfl
  have hkind : member "kind" (.dict raws) = some (textPayload g.kind.value) := h.text rfl
  have hoccurred : member "occurred_at" (.dict raws) = some (textPayload g.occurredAt.text) := h.text rfl
  have hbefore : (member "before" (.dict raws)).bind (optionalOf Data.freezeObject) = settleOptional g.before :=
    h.optionalDocument rfl
  have hafter : (member "after" (.dict raws)).bind (optionalOf Data.freezeObject) = settleOptional g.after :=
    h.optionalDocument rfl
  simp only [decodeHistoryPayload, settleMember, hentity, hid, hversion, hkind, hoccurred, hbefore, hafter, hexact,
    Option.bind_eq_bind, Option.bind_some, stringOf_text, uuidOf_text, timeOf_text, versionOf_int, historyKind_text,
    if_true]
  rw [Option.map_bind]
  exact congrArg _ (funext fun before => Option.map_bind)

theorem buildBranch_self (v : BranchValue) : buildBranch v.branchId v.slug v.title v.intent v.branchType
    v.parentBranchId v.status v.retrievalSummary v.createdAt v.updatedAt v.branchRevision = some v :=
  dif_pos v.ordered

theorem decodeBranchPayload_arrived {v : BranchValue} (h : ArriveAll (encodeMemberPayload (.branch v)) raws) :
    decodeBranchPayload (.dict raws) = some v := by
  have hexact : exactNames BRANCH_NAMES (.dict raws) = true := h.exact
  have hid : member "branch_id" (.dict raws) = some (textPayload v.branchId.text) := h.text rfl
  have hslug : member "slug" (.dict raws) = some (textPayload v.slug.1) := h.text rfl
  have htitle : member "title" (.dict raws) = some (textPayload v.title.1) := h.text rfl
  have hintent : member "intent" (.dict raws) = some (textPayload v.intent.1) := h.text rfl
  have htype : (member "branch_type" (.dict raws)).bind (optionalOf (checkedText requireBranchType)) =
      some v.branchType := h.optionalText rfl checkedText_text
  have hparent : (member "parent_branch_id" (.dict raws)).bind (optionalOf uuidOf) = some v.parentBranchId :=
    h.optionalText rfl uuidOf_text
  have hstatus : member "status" (.dict raws) = some (textPayload v.status.value) := h.text rfl
  have hsummary : (member "retrieval_summary" (.dict raws)).bind
      (optionalOf (checkedText fun s => requireText s 1000)) = some v.retrievalSummary :=
    h.optionalText rfl checkedText_text
  have hcreated : member "created_at" (.dict raws) = some (textPayload v.createdAt.text) := h.text rfl
  have hupdated : member "updated_at" (.dict raws) = some (textPayload v.updatedAt.text) := h.text rfl
  have hrevision : member "branch_revision" (.dict raws) = some (.int v.branchRevision.1) := h.int rfl
  simp only [decodeBranchPayload, hid, hslug, htitle, hintent, htype, hparent, hstatus, hsummary, hcreated, hupdated,
    hrevision, hexact, Option.bind_eq_bind, Option.bind_some, uuidOf_text, timeOf_text, versionOf_int,
    branchStatus_text, checkedText_text, if_true, buildBranch_self]

theorem decodeMembershipPayload_arrived {v : BranchMembership}
    (h : ArriveAll (encodeMemberPayload (.branchMembership v)) raws) :
    decodeMembershipPayload (.dict raws) = some v := by
  have hexact : exactNames MEMBERSHIP_NAMES (.dict raws) = true := h.exact
  have hbranch : member "branch_id" (.dict raws) = some (textPayload v.branchId.text) := h.text rfl
  have hentity : member "entity_name" (.dict raws) = some (textPayload v.entityName.1) := h.text rfl
  have hid : member "record_id" (.dict raws) = some (textPayload v.recordId.text) := h.text rfl
  have hrole : member "role" (.dict raws) = some (textPayload v.role.value) := h.text rfl
  simp only [decodeMembershipPayload, hbranch, hentity, hid, hrole, hexact, Option.bind_eq_bind, Option.bind_some,
    stringOf_text, uuidOf_text, branchRole_text, if_true]
  exact dif_pos v.entityName.2

/-- **A member arrives settled.** -/
theorem decodeMember_arrived (h : ArriveAll (encodeMemberPayload m) raws) :
    decodeMember m.kind (.dict raws) = settleMember m := by
  cases m with
  | record v => exact decodeRecordPayload_arrived h
  | history g => exact decodeHistoryPayload_arrived h
  | branch v => exact congrArg (Option.map PortableStoreMember.branch) (decodeBranchPayload_arrived h)
  | branchMembership v =>
    exact congrArg (Option.map PortableStoreMember.branchMembership) (decodeMembershipPayload_arrived h)

end members

end Transfer

end Aipcs
