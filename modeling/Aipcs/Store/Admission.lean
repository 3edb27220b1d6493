import Aipcs.Common.Table
import Aipcs.Common.Sha256
import Aipcs.Portable.Loads
import Aipcs.Registry.Service
import Aipcs.Store.Fence

/-!
# Service store — the row the fence is kept in

The fence is a reserved row of the table of mutations, which the replays of
a service's commands are kept in as well. The row is found by its kind and
the replays by their keys; no key that a command may carry begins as the
row's does.
-/

namespace Aipcs

namespace Store

open Portable Registry

/-! ## The fence as text -/

/-- A state as the store spells it. -/
def FenceState.text : FenceState → String
  | .open_ => "open"
  | .closed => "closed"

/-- `encode_fence`. -/
def encodeFence (f : WriteAdmissionFence) : List Char :=
  dumps (.obj [("generation", .int ⟨f.generation, by
    have := f.bounds
    unfold MAX_FENCE_GENERATION at this
    omega⟩), ("state", .str f.state.text)])

/-- `WriteAdmissionFence(...)`. -/
def writeAdmissionFence : PyVal → PyVal → Option WriteAdmissionFence
  | .int generation, .str state =>
    if h : 1 ≤ generation.toNat ∧ generation.toNat ≤ MAX_FENCE_GENERATION then
      if state = pyStr "open" then some ⟨generation.toNat, .open_, h⟩
      else if state = pyStr "closed" then some ⟨generation.toNat, .closed, h⟩
      else none
    else none
  | _, _ => none

/-- The fence that a dictionary gives the parts of. -/
def fenceOf (entries : List (PyStr × PyVal)) : Option WriteAdmissionFence :=
  match entries.lookup (pyStr "generation"), entries.lookup (pyStr "state") with
  | some generation, some state => writeAdmissionFence generation state
  | _, _ => none

/-- `set(raw) == {"generation", "state"}`. -/
def fenceNames (entries : List (PyStr × PyVal)) : Bool :=
  entries.all fun p => p.1 = pyStr "generation" || p.1 = pyStr "state"

/-- `decode_fence`, of a text. -/
def decodeFenceText (text : List Char) : Option WriteAdmissionFence :=
  match plainLoads text with
  | some (.dict entries) =>
    match fenceOf entries with
    | some f => if encodeFence f = text ∧ fenceNames entries = true then some f else none
    | none => none
  | _ => none

/-- `decode_fence`. -/
def decodeFence : PyVal → Option WriteAdmissionFence
  | .str s => (requireScalarText s).bind fun text => decodeFenceText text.toList
  | .dict entries => if fenceNames entries then fenceOf entries else none
  | _ => none

section codec

variable {f : WriteAdmissionFence} {text : List Char}

/-- What a fence's text is read as. -/
def fenceEntries (f : WriteAdmissionFence) : List (PyStr × PyVal) :=
  [(pyStr "generation", .int f.generation), (pyStr "state", .str (pyStr f.state.text))]

theorem plainLoads_encodeFence (f : WriteAdmissionFence) :
    plainLoads (encodeFence f) = some (.dict (fenceEntries f)) :=
  plainLoads_dumps (by simp [PortableJson.Distinct, PortableJson.DistinctEntries])

theorem pyStr_eq_iff {s t : String} : pyStr s = pyStr t ↔ s = t := pyStr_injective.eq_iff

theorem fenceOf_fenceEntries (f : WriteAdmissionFence) : fenceOf (fenceEntries f) = some f := by
  have hstate : (pyStr "state" == pyStr "generation") = false := by decide +kernel
  obtain ⟨generation, state, hbounds⟩ := f
  cases state with
  | open_ =>
    simp only [fenceOf, fenceEntries, List.lookup_cons, beq_self_eq_true, hstate, writeAdmissionFence, FenceState.text,
      if_true, Int.toNat_natCast, dif_pos hbounds]
  | closed =>
    have hclosed : pyStr "closed" ≠ pyStr "open" := by decide +kernel
    simp only [fenceOf, fenceEntries, List.lookup_cons, beq_self_eq_true, hstate, writeAdmissionFence, FenceState.text,
      if_neg hclosed, if_true, Int.toNat_natCast, dif_pos hbounds]

theorem fenceNames_fenceEntries (f : WriteAdmissionFence) : fenceNames (fenceEntries f) = true := by
  simp [fenceNames, fenceEntries]

/-- **Among texts, those that fences are encoded as are decoded**, each to its fence. -/
theorem decodeFenceText_eq_some : decodeFenceText text = some f ↔ text = encodeFence f := by
  constructor
  · intro h
    unfold decodeFenceText at h
    split at h
    · split at h
      · split_ifs at h with hok
        obtain rfl := Option.some.inj h
        exact hok.1.symm
      · exact absurd h (by simp)
    · exact absurd h (by simp)
  · rintro rfl
    rw [decodeFenceText, plainLoads_encodeFence]
    simp only [fenceOf_fenceEntries, fenceNames_fenceEntries, and_self, if_true]

theorem decodeFence_text : decodeFence (.str (pyStr (String.ofList (encodeFence f)))) = some f := by
  rw [decodeFence, requireScalarText_pyStr, Option.bind_some, String.toList_ofList]
  exact decodeFenceText_eq_some.2 rfl

theorem decodeFence_entries : decodeFence (.dict (fenceEntries f)) = some f := by
  rw [decodeFence, if_pos (fenceNames_fenceEntries f), fenceOf_fenceEntries]

end codec

/-! ## The table of mutations -/

/-- `R3_MUTATION_TABLE`. -/
def R3_MUTATION_TABLE : String := "__aipcs_record_mutation"

/-- What no key of a command begins with. -/
def RESERVED_PREFIX : String := "__aipcs_"

def FENCE_IDEMPOTENCY_KEY : String := "__aipcs_write_admission"

def FENCE_OPERATION_KIND : String := "write_admission"

/-- The digest of `aipcs-write-admission-v1`. -/
def FENCE_FINGERPRINT : String := String.ofList (sha256Hex "aipcs-write-admission-v1".toUTF8.toList)

/-- `_require_idempotency_key`. -/
def requireIdempotencyKey (s : String) : Bool :=
  1 ≤ s.length && s.length ≤ MAX_IDEMPOTENCY_KEY_LENGTH && !s.toList.contains '\x00' &&
    !RESERVED_PREFIX.toList.isPrefixOf s.toList

/-- A row of the table of mutations. -/
structure MutationRow where
  principalId : String
  idempotencyKey : String
  operationKind : String
  fingerprint : String
  resultJson : String
deriving DecidableEq

/-- The primary key. -/
def MutationRow.key (r : MutationRow) : String × String := (r.principalId, r.idempotencyKey)

abbrev MutationTable : Type := Table MutationRow.key

/-- A result as it is read back: text in SQLite, and in PostgreSQL what the document holds. -/
def readResult (b : StorageBackend) (resultJson : String) : Option PyVal :=
  match b with
  | .sqlite => some (.str (pyStr resultJson))
  | .postgresql => plainLoads resultJson.toList

/-- `_mutation_row`. -/
def mutationRow (t : MutationTable) (principalId key : String) : Option MutationRow := t.find? (principalId, key)

/-- The rows of the fence's kind. -/
def fenceRows (t : MutationTable) : List MutationRow := t.rows.filter fun r => r.operationKind = FENCE_OPERATION_KIND

/-- `_read_fence`. -/
def readFence (b : StorageBackend) (t : MutationTable) (principalId : String) : Option WriteAdmissionFence :=
  match fenceRows t with
  | [] => some INITIAL_FENCE
  | [r] =>
    if r.principalId = principalId ∧ r.idempotencyKey = FENCE_IDEMPOTENCY_KEY ∧ r.fingerprint = FENCE_FINGERPRINT then
      (readResult b r.resultJson).bind decodeFence
    else none
  | _ => none

/-- `_write_admission_open`. -/
def writeAdmissionOpen (b : StorageBackend) (t : MutationTable) : Option Bool :=
  match fenceRows t with
  | [] => some (INITIAL_FENCE.state = .open_)
  | [r] =>
    if r.idempotencyKey = FENCE_IDEMPOTENCY_KEY ∧ r.fingerprint = FENCE_FINGERPRINT then
      ((readResult b r.resultJson).bind decodeFence).map fun f => f.state = .open_
    else none
  | _ => none

/-- The row of a fence. -/
def fenceRow (principalId : String) (f : WriteAdmissionFence) : MutationRow :=
  ⟨principalId, FENCE_IDEMPOTENCY_KEY, FENCE_OPERATION_KIND, FENCE_FINGERPRINT, String.ofList (encodeFence f)⟩

/-- `_write_fence`: `INSERT … ON CONFLICT … DO UPDATE`. -/
def writeFence (t : MutationTable) (principalId : String) (f : WriteAdmissionFence) : MutationTable :=
  match t.insert (fenceRow principalId f) with
  | some u => u
  | none => t.set (fenceRow principalId f)

/-- `transition_fence`: the table it leaves, and its answer. It raises where
the fence is not to be read or has come to its last generation. -/
def transitionFenceRow (b : StorageBackend) (principalId : String) (expected : WriteAdmissionFence)
    (target : FenceState) (t : MutationTable) : Option (MutationTable × FenceTransitionResult) := do
  let current ← readFence b t principalId
  let r ← transitionFence current expected target
  return (if r.status = .applied then writeFence t principalId r.fence else t, r)

/-! ## The row among the others -/

section rows

variable {b : StorageBackend} {p : String} {t u : MutationTable} {f : WriteAdmissionFence} {r : MutationRow}

/-- The rows of the fence's kind are a fence's of the principal, and those under its key are of its kind. -/
structure Fenced (p : String) (t : MutationTable) : Prop where
  kind : ∀ r ∈ t.rows, r.operationKind = FENCE_OPERATION_KIND → ∃ f, r = fenceRow p f
  reserved : ∀ r ∈ t.rows, r.idempotencyKey = FENCE_IDEMPOTENCY_KEY → r.operationKind = FENCE_OPERATION_KIND

theorem fenced_empty (p : String) : Fenced p .empty :=
  ⟨fun _ hr => absurd hr List.not_mem_nil, fun _ hr => absurd hr List.not_mem_nil⟩

theorem mem_fenceRows : r ∈ fenceRows t ↔ r ∈ t.rows ∧ r.operationKind = FENCE_OPERATION_KIND := by
  rw [fenceRows, List.mem_filter, decide_eq_true_eq]

theorem fenceRow_key : (fenceRow p f).key = (p, FENCE_IDEMPOTENCY_KEY) := rfl

/-- There is one row of the fence's kind at most. -/
theorem Fenced.single (h : Fenced p t) (hr : r ∈ fenceRows t) : fenceRows t = [r] := by
  have hnodup : (fenceRows t).Nodup := (List.Nodup.of_map _ t.keyed).filter _
  have hall : ∀ r' ∈ fenceRows t, r' = r := by
    intro r' hr'
    obtain ⟨hmem, hkind⟩ := mem_fenceRows.1 hr
    obtain ⟨hmem', hkind'⟩ := mem_fenceRows.1 hr'
    obtain ⟨g, rfl⟩ := h.kind r hmem hkind
    obtain ⟨g', rfl⟩ := h.kind r' hmem' hkind'
    exact Table.eq_of_key hmem' hmem rfl
  match hrows : fenceRows t with
  | [] =>
    rw [hrows] at hr
    exact absurd hr List.not_mem_nil
  | [r'] => rw [hall r' (by rw [hrows]; exact List.mem_cons_self)]
  | r' :: r'' :: rest =>
    rw [hrows] at hnodup hall
    have heq : r' = r'' := (hall r' (by simp)).trans (hall r'' (by simp)).symm
    exact absurd heq fun heq => (List.nodup_cons.1 hnodup).1 (by simp [heq])

theorem Fenced.none (h : Fenced p t) (hf : ∀ f, fenceRow p f ∉ t.rows) : fenceRows t = [] := by
  rw [List.eq_nil_iff_forall_not_mem]
  intro r hr
  obtain ⟨hmem, hkind⟩ := mem_fenceRows.1 hr
  obtain ⟨f, rfl⟩ := h.kind r hmem hkind
  exact hf f hmem

theorem readResult_fenceRow (b : StorageBackend) (f : WriteAdmissionFence) :
    (readResult b (fenceRow p f).resultJson).bind decodeFence = some f := by
  cases b with
  | sqlite => exact decodeFence_text
  | postgresql =>
    change (plainLoads (String.ofList (encodeFence f)).toList).bind decodeFence = some f
    rw [String.toList_ofList, plainLoads_encodeFence]
    exact decodeFence_entries

/-- The fence that a row holds is read, and admits what it says. -/
theorem Fenced.read (h : Fenced p t) (hf : fenceRow p f ∈ t.rows) :
    readFence b t p = some f ∧ writeAdmissionOpen b t = some (decide (f.state = .open_)) := by
  have hrows := h.single (mem_fenceRows.2 ⟨hf, rfl⟩)
  rw [readFence, writeAdmissionOpen, hrows]
  dsimp only
  rw [readResult_fenceRow, if_pos ⟨rfl, rfl, rfl⟩, if_pos ⟨rfl, rfl⟩]
  exact ⟨rfl, rfl⟩

/-- Where no row holds one, the fence is the initial one. -/
theorem Fenced.readNone (h : Fenced p t) (hf : ∀ f, fenceRow p f ∉ t.rows) :
    readFence b t p = some INITIAL_FENCE ∧ writeAdmissionOpen b t = some (decide (INITIAL_FENCE.state = .open_)) := by
  rw [readFence, writeAdmissionOpen, h.none hf]
  exact ⟨rfl, rfl⟩

/-- **The fence of a store is always to be read**, and it is what writes are admitted by. -/
theorem Fenced.readable (h : Fenced p t) :
    ∃ f, readFence b t p = some f ∧ writeAdmissionOpen b t = some (decide (f.state = .open_)) := by
  by_cases hf : ∃ f, fenceRow p f ∈ t.rows
  · obtain ⟨f, hf⟩ := hf
    exact ⟨f, h.read hf⟩
  · exact ⟨INITIAL_FENCE, h.readNone fun f hmem => hf ⟨f, hmem⟩⟩

/-- What is read, and what admits, are the rows of the fence's kind. -/
theorem readFence_congr (h : fenceRows u = fenceRows t) :
    readFence b u p = readFence b t p ∧ writeAdmissionOpen b u = writeAdmissionOpen b t := by
  rw [readFence, readFence, writeAdmissionOpen, writeAdmissionOpen, h]
  exact ⟨rfl, rfl⟩

theorem mem_writeFence : r ∈ (writeFence t p f).rows ↔
    r = fenceRow p f ∨ r ∈ t.rows ∧ r.key ≠ (p, FENCE_IDEMPOTENCY_KEY) := by
  unfold writeFence
  split
  · rename_i u hu
    obtain ⟨hnone, -⟩ := Table.insert_eq_some.1 hu
    rw [Table.find?_eq_none] at hnone
    rw [Table.mem_insert hu]
    constructor
    · rintro (rfl | hr)
      · exact .inl rfl
      · exact .inr ⟨hr, hnone r hr⟩
    · rintro (rfl | ⟨hr, -⟩)
      · exact .inl rfl
      · exact .inr hr
  · rename_i hu
    have htaken : ∃ x ∈ t.rows, x.key = (fenceRow p f).key := by
      by_contra hfree
      obtain ⟨u, hu'⟩ := Table.insert_isSome (r := fenceRow p f) (Table.find?_eq_none.2 fun x hx hkey => hfree ⟨x, hx, hkey⟩)
      rw [hu] at hu'
      exact absurd hu' (by simp)
    rw [Table.mem_set, fenceRow_key]
    constructor
    · rintro (⟨rfl, -⟩ | hr)
      · exact .inl rfl
      · exact .inr hr
    · rintro (rfl | hr)
      · exact .inl ⟨rfl, htaken⟩
      · exact .inr hr

theorem Fenced.writeFence (h : Fenced p t) (f : WriteAdmissionFence) : Fenced p (writeFence t p f) where
  kind r hr hkind := by
    rcases mem_writeFence.1 hr with rfl | ⟨hr, -⟩
    · exact ⟨f, rfl⟩
    · exact h.kind r hr hkind
  reserved r hr hkey := by
    rcases mem_writeFence.1 hr with rfl | ⟨hr, -⟩
    · rfl
    · exact h.reserved r hr hkey

/-- **What is written is read back.** -/
theorem readFence_writeFence (h : Fenced p t) (f : WriteAdmissionFence) : readFence b (Store.writeFence t p f) p = some f :=
  ((h.writeFence f).read (mem_writeFence.2 (.inl rfl))).1

end rows

end Store

end Aipcs
