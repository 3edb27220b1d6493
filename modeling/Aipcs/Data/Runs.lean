import Aipcs.Data.History
import Aipcs.Relational.Transition
import Aipcs.Store.AtMostOnce

/-!
# Data — every run of a store keeps its history

The mutations of a SQLite store as sessions over its tables: what an
attempt stages is what its operation makes of the tables it finds, and the
manifest moves on by accepted transitions while no transaction is under
way. A transaction that commits what it has staged finds the tables as its
operation left them, since it is alone; so every run is a chain of
operations and evolutions, each of which keeps the history faithful.
-/

namespace Aipcs

namespace Data

open Manifest Portable Relational Records Registry Store.Mutating Program

/-! ## Changes of a store -/

/-- A service's store: the manifest it is at, and its tables. -/
structure Holdings where
  manifest : ManifestV2
  content : Content

/-- The specification that the records of a store are checked by. -/
def Holdings.specification (h : Holdings) : RecordSpecification := compileRecordSpecification h.manifest

/-- The mutation that a command is. -/
def Command.kind : Command → MutationKind
  | .createRecord _ => .createRecord
  | .updateRecord _ => .updateRecord
  | .deleteRecord _ => .deleteRecord
  | .createBranch _ => .createBranch
  | .updateBranch _ => .updateBranch
  | .assignBranchRecords _ => .assignBranchRecords

/-- One change of a store: an operation that takes effect, or an evolution. -/
inductive Change : Holdings → Holdings → Prop
  | operated {h : Holdings} {caller : Caller} {t : Readings} {c : Command} {y : Content} {r : Result} :
      operate .sqlite h.specification caller t h.content c = .ok (y, r) → Change h ⟨h.manifest, y⟩
  | evolved {h : Holdings} {target : ManifestV2} {t : RelationalTransition} :
      classifyTransition h.manifest target = some t → Change h ⟨target, h.content⟩

section transitions

variable {d : EntityDefinition}

/-- The domain fields of an entity are its attributes that the store does not manage. -/
theorem mem_domainFields {f : RecordField} :
    f ∈ (recordEntity d).domainFields ↔ f ∈ d.attributes ∧ serverManaged f.name = false := by
  rw [RecordEntity.domainFields, List.mem_filter, recordEntity, mem_sortedBy]
  simp

theorem nodup_domainFields (hd : d.Valid) : ((recordEntity d).domainFields.map (·.name)).Nodup := by
  have hnodup : ((sortedBy (·.name) d.attributes).map (·.name)).Nodup := by
    rw [((perm_sortedBy (·.name) d.attributes).map _).nodup_iff]
    exact hd.distinct
  exact hnodup.sublist (List.filter_sublist.map _)

/-- **An accepted target extends its source**, as records see it. -/
theorem extends_of_accepted {a b : ManifestV2} {t : RelationalTransition} (h : Accepted a b t) :
    Extends (compileRecordSpecification a) (compileRecordSpecification b) where
  entity en e he := by
    obtain ⟨d, hd, rfl, rfl⟩ := entity_compile he
    obtain ⟨d', hd', hname, added, hfields, -⟩ := h.entity_extended hd
    refine ⟨recordEntity d', ?_, ?_, fun f hf => ?_⟩
    · obtain hname : d.name = d'.name := hname
      rw [hname]
      exact compile_entity hd'
    · exact nodup_domainFields (b.valid.entities d' hd')
    · obtain ⟨hattribute, hmanaged⟩ := mem_domainFields.1 hf
      have hmem : field f ∈ (entity d').fields := by
        rw [hfields]
        exact List.mem_append_left _ (List.mem_map_of_mem hattribute)
      obtain ⟨f', hf', heq⟩ := List.mem_map.1 hmem
      have hname' : f'.name = f.name := congrArg RelationalField.name heq
      exact ⟨f', mem_domainFields.2 ⟨hf', by rw [hname']; exact hmanaged⟩, hname', congrArg RelationalField.logicalType heq⟩

end transitions

/-- The history of a store is faithful. -/
def Holdings.Faithful (h : Holdings) : Prop := Data.Faithful h.specification h.content

/-- **A change keeps the history faithful**, and so does a chain of them. -/
theorem Change.faithful {h h' : Holdings} (hc : Change h h') (hf : h.Faithful) : h'.Faithful := by
  cases hc with
  | operated hop => exact operate_faithful hf hop
  | evolved ht => exact Faithful.extend hf (extends_of_accepted (classifyTransition_eq_some ht))

theorem faithful_of_changes {h h' : Holdings} (hc : Relation.ReflTransGen Change h h') (hf : h.Faithful) :
    h'.Faithful := by
  induction hc with
  | refl => exact hf
  | tail _ hstep ih => exact hstep.faithful ih

/-! ## The sessions of a store -/

/-- The manifest may move on where no transaction is under way. -/
inductive Evolves (w : World Holdings) : World Holdings → Prop
  | stays : Evolves w w
  | moves {target : ManifestV2} {t : RelationalTransition} : (∀ n, w.txns n = .over) →
      classifyTransition w.content.manifest target = some t →
      Evolves w { w with content := ⟨target, w.content.content⟩ }

/-- What an operation answers is what a command of the mutation makes of
the tables: a refusal, or the tables it leaves. -/
def Operates (w : World Holdings) : (e : Call Holdings) → e.Reply → Prop
  | .operate m, .ok r => ∃ caller t c, caller.principalId = m.identity.principalId ∧ Command.kind c = m.operationKind ∧
      match operate .sqlite w.content.specification caller t w.content.content c, r with
      | .ok (y, _), .ok staged => staged.change w.content = ⟨w.content.manifest, y⟩
      | .error code, .error code' => code' = code
      | _, _ => False
  | _, _ => True

/-- A statement served, after whatever has happened meanwhile. -/
def Served (hash : String → ℤ) (namespace_ : String) (n : ℕ) (w : World Holdings) (e : Call Holdings)
    (r : e.Reply) (w' : World Holdings) : Prop :=
  ∃ v u, Evolves w v ∧ Meanwhile .sqlite v u ∧ Operates u e r ∧ Serve .sqlite hash namespace_ n u e r w'

/-- The mutations of a SQLite store that has just been materialised. -/
def storeMutations (hash : String → ℤ) (namespace_ : String) (m : ManifestV2) :
    System (Sessions (World Holdings) (E := Call Holdings) Call.Reply Mutation Outcome)
      (ℕ × Sessions.Event (E := Call Holdings) Call.Reply Mutation) :=
  Sessions.serving (fun w => w.content = ⟨m, .empty⟩ ∧ w.applied = [] ∧ (∀ x, w.replays x = none) ∧
    ∀ n, w.txns n = .over) (mutate .sqlite) (Served hash namespace_)

/-! ## What an attempt commits -/

/-- What an attempt may commit is what the statement before has staged. -/
def holding : Monitor (E := Call Holdings) Call.Reply (Option (Staged Holdings)) where
  permits s
    | .commit _ staged => staged = none ∨ staged = s
    | _ => True
  next _
    | .operate _, .ok (.ok staged) => some staged
    | _, _ => none

section attempts

variable {c : Mutation} {s : Option (Staged Holdings)}

/-- Nothing is asked of what an attempt comes to. -/
abbrev Any {α : Type} (_ : Option (Staged Holdings)) (_ : α) : Prop := True

theorem refuses_holding (code : DataFailureCode) : Ensures holding Any s (refuses code) :=
  Ensures.perform trivial fun _ => trivial

theorem finishes_holding {staged : Option (Staged Holdings)} {out : Outcome} (h : staged = none ∨ staged = s) :
    Ensures holding Any s (finishes c staged out) :=
  Ensures.perform h fun _ => trivial

theorem operation_holding : Ensures holding Any s (Store.Mutating.operation c) := by
  refine Ensures.perform trivial fun (r : Except StoreError (Option Replay)) => ?_
  match r with
  | .error error => exact refuses_holding _
  | .ok (some row) =>
    dsimp only
    unfold replayRow
    split_ifs
    · exact finishes_holding (.inl rfl)
    · exact refuses_holding _
    · exact refuses_holding _
  | .ok none =>
    refine Ensures.perform trivial fun (r : Except StoreError (Except DataFailureCode (Staged Holdings))) => ?_
    match r with
    | .error error => exact refuses_holding _
    | .ok (.error code) => exact refuses_holding _
    | .ok (.ok staged) => exact finishes_holding (.inr rfl)

theorem mutateOnce_holding : Ensures holding Any s (mutateOnce .sqlite c) := by
  refine Ensures.perform trivial fun (r : Except StoreError Unit) => ?_
  match r with
  | .error error => exact trivial
  | .ok () =>
    refine Ensures.perform trivial fun (r : Except StoreError Store.FenceState) => ?_
    match r with
    | .error error => exact refuses_holding _
    | .ok .closed => exact refuses_holding _
    | .ok .open_ => exact operation_holding

theorem observes_holding : Ensures holding Any s (observes .sqlite c) :=
  Ensures.perform trivial fun _ => trivial

/-- **A mutation commits nothing but what its last operation has staged.** -/
theorem mutate_holding : Ensures holding Any s (mutate .sqlite c) := by
  refine Ensures.bind mutateOnce_holding fun s out _ => ?_
  match out with
  | some out => exact trivial
  | none =>
    refine Ensures.bind observes_holding fun s out _ => ?_
    match out with
    | some out => exact trivial
    | none =>
      refine Ensures.bind mutateOnce_holding fun s out _ => ?_
      match out with
      | some out => exact trivial
      | none => exact Ensures.bind observes_holding fun _ _ _ => trivial

end attempts

/-! ## What every run keeps -/

variable {hash : String → ℤ} {namespace_ : String} {start : Holdings} {w w' u v : World Holdings} {m n : ℕ}

/-- One transaction at a time, and the store has come to be by changes. -/
structure Chained (start : Holdings) (w : World Holdings) : Prop where
  alone : ∀ i j, w.txns i ≠ .over → w.txns j ≠ .over → i = j
  changes : Relation.ReflTransGen Change start w.content

/-- What a session has staged is a change of the store while its
transaction is under way. -/
def Standing (n : ℕ) (w : World Holdings) (s : Option (Staged Holdings)) : Prop :=
  ∀ staged, s = some staged → w.txns n ≠ .over → Change w.content (staged.change w.content)

/-- Where the session's transaction is under way, it was before, in this very store. -/
def Undisturbed (n : ℕ) (w w' : World Holdings) : Prop :=
  w'.txns n ≠ .over → w.txns n ≠ .over ∧ w'.content = w.content

theorem Undisturbed.standing (h : Undisturbed n w w') {s : Option (Staged Holdings)} (hs : Standing n w s) :
    Standing n w' s := by
  intro staged heq hopen
  obtain ⟨hbefore, hcontent⟩ := h hopen
  rw [hcontent]
  exact hs staged heq hbefore

theorem Undisturbed.trans (h : Undisturbed n w u) (h' : Undisturbed n u w') : Undisturbed n w w' := by
  intro hopen
  obtain ⟨hu, hcontent⟩ := h' hopen
  obtain ⟨hw, hcontent'⟩ := h hu
  exact ⟨hw, hcontent.trans hcontent'⟩

theorem Evolves.keeps (h : Evolves w v) (hw : Chained start w) : Chained start v ∧ ∀ n, Undisturbed n w v := by
  cases h with
  | stays => exact ⟨hw, fun n hopen => ⟨hopen, rfl⟩⟩
  | moves hover ht => exact ⟨⟨hw.alone, hw.changes.tail (.evolved ht)⟩, fun n hopen => absurd (hover n) hopen⟩

theorem meanwhile_keeps (h : Meanwhile .sqlite v u) (hv : Chained start v) :
    Chained start u ∧ ∀ n, Undisturbed n v u := by
  have hback : ∀ n, u.txns n ≠ .over → v.txns n ≠ .over := by
    intro n hopen
    rcases h.txns n with heq | hover
    · rwa [heq] at hopen
    · exact absurd hover hopen
  refine ⟨⟨fun i j hi hj => hv.alone i j (hback i hi) (hback j hj), ?_⟩, fun n hopen => ⟨hback n hopen, h.content⟩⟩
  rw [h.content]
  exact hv.changes

/-- A transaction that was under way, or that none was beside, goes on. -/
theorem Chained.move (hw : Chained start w) {t : Txn} (ht : t = .over ∨ ∀ i, w.txns i ≠ .over → i = n) :
    Chained start (w.move n t) := by
  refine ⟨fun i j hi hj => ?_, hw.changes⟩
  have hback : ∀ i, i ≠ n → (w.move n t).txns i ≠ .over → w.txns i ≠ .over := by
    intro i hne hi
    rwa [move_of_ne hne] at hi
  have hmine : ∀ i, (w.move n t).txns n ≠ .over → i ≠ n → ¬ (w.move n t).txns i ≠ .over := by
    intro i hn hne hi
    rw [move_self] at hn
    exact hne (ht.resolve_left hn i (hback i hne hi))
  by_cases hin : i = n
  · by_cases hjn : j = n
    · rw [hin, hjn]
    · exact absurd hj (hmine j (hin ▸ hi) hjn)
  · by_cases hjn : j = n
    · exact absurd hi (hmine i (hjn ▸ hj) hin)
    · exact hw.alone i j (hback i hin hi) (hback j hjn hj)

theorem undisturbed_move {t : Txn} (h : m ≠ n) : Undisturbed m w (w.move n t) := by
  intro hopen
  rw [move_of_ne h] at hopen
  exact ⟨hopen, rfl⟩

/-- Nothing staged stands. -/
theorem standing_none : Standing n w none := fun _ heq => absurd heq (by simp)

/-- **A statement served** keeps the store a chain of changes: what commits
is what stands, and it disturbs no other transaction, there being none. -/
theorem serve_chained {e : Call Holdings} {r : e.Reply} {s : Option (Staged Holdings)} (hw : Chained start w)
    (hs : Standing n w s) (hp : holding.permits s e) (hop : Operates w e r)
    (h : Serve .sqlite hash namespace_ n w e r w') :
    Chained start w' ∧ Standing n w' (holding.next s e r) ∧ ∀ m, m ≠ n → Undisturbed m w w' := by
  have hself : ∀ m, m ≠ n → Undisturbed m w w := fun m _ hopen => ⟨hopen, rfl⟩
  cases h with
  | begins hidle =>
    exact ⟨hw.move (.inr fun i hi => absurd (hidle rfl i) hi), standing_none, fun m hm => undisturbed_move hm⟩
  | beginRaises => exact ⟨hw.move (.inl rfl), standing_none, fun m hm => undisturbed_move hm⟩
  | fenceRead => exact ⟨hw, standing_none, hself⟩
  | fenceRaises => exact ⟨hw, standing_none, hself⟩
  | locked hopen _ =>
    exact ⟨hw.move (.inr fun i hi => hw.alone i n hi hopen), standing_none, fun m hm => undisturbed_move hm⟩
  | lockRaises => exact ⟨hw, standing_none, hself⟩
  | rowRead => exact ⟨hw, standing_none, hself⟩
  | rowRaises => exact ⟨hw, standing_none, hself⟩
  | operated r hopen =>
    refine ⟨hw, ?_, hself⟩
    match r, hop with
    | .error code, _ => exact standing_none
    | .ok staged, ⟨caller, t, c, _, _, hop⟩ =>
      intro staged' heq _
      obtain rfl := Option.some.inj heq
      split at hop
      · rename_i y result _ hoperate hreply
        obtain rfl := Except.ok.inj hreply
        rw [hop]
        exact .operated hoperate
      · rename_i hreply
        exact absurd hreply (by simp)
      · exact hop.elim
  | operateRaises => exact ⟨hw, standing_none, hself⟩
  | @committed c staged returned hopen =>
    have hover : ∀ m, m ≠ n → w.txns m = .over := fun m hm => by
      by_contra hother
      exact hm (hw.alone m n hother hopen)
    have hchained : Chained start (staged.elim w (w.apply n c)) := by
      cases staged with
      | none => exact hw
      | some staged =>
        obtain rfl : some staged = s := hp.resolve_left (by simp)
        exact ⟨hw.alone, hw.changes.tail (hs staged rfl hopen)⟩
    refine ⟨hchained.move (.inl rfl), standing_none, fun m hm hstill => ?_⟩
    rw [World.commit, move_of_ne hm] at hstill
    refine absurd (hover m hm) ?_
    cases staged with
    | none => exact hstill
    | some staged => exact hstill
  | commitFails => exact ⟨hw.move (.inl rfl), standing_none, fun m hm => undisturbed_move hm⟩
  | rolledBack => exact ⟨hw.move (.inl rfl), standing_none, fun m hm => undisturbed_move hm⟩
  | observed => exact ⟨hw, standing_none, hself⟩
  | observeRaises => exact ⟨hw, standing_none, hself⟩

variable {manifest : ManifestV2}
variable {g : Sessions (World Holdings) (E := Call Holdings) Call.Reply Mutation Outcome}

/-- What is claimed of the sessions of a store. -/
def storeClaims : Sessions.Claims (World Holdings) (Call Holdings) Call.Reply Mutation Outcome
    (Option (Staged Holdings)) where
  idle _ _ := True
  running n _ w s := Standing n w s
  ended _ _ _ _ := True

theorem Undisturbed.survive (h : Undisturbed n w w') : storeClaims.Survive n w w' :=
  ⟨fun _ => trivial, fun _ _ hs => h.standing hs, fun _ _ _ => trivial⟩

/-- What holds of the sessions and the store in every run. -/
theorem storeMutations_hold (hg : (storeMutations hash namespace_ manifest).Reachable g) :
    Sessions.Holds storeClaims (fun _ => holding) (fun _ => Any) (Chained ⟨manifest, .empty⟩) g := by
  refine Sessions.invariant (fun w hw => ?_) (fun n c w _ _ => ?_) (fun n c w s e r w' hw hs hp _ hserves => ?_)
    (fun _ _ _ _ _ _ _ => trivial) (fun _ _ _ _ _ => trivial) (hg.mono fun s l _ => Sessions.calls_true s l)
  · obtain ⟨hcontent, -, -, hover⟩ := hw
    refine ⟨⟨fun i j hi => absurd (hover i) hi, ?_⟩, fun _ => trivial⟩
    rw [hcontent]
  · exact ⟨none, standing_none, mutate_holding⟩
  · obtain ⟨v, u, hevolves, hmeanwhile, hop, hserve⟩ := hserves
    obtain ⟨hv, hwv⟩ := hevolves.keeps hw
    obtain ⟨hu, hvu⟩ := meanwhile_keeps hmeanwhile hv
    have hwu : ∀ n, Undisturbed n w u := fun n => (hwv n).trans (hvu n)
    obtain ⟨hinv, hnext, hothers⟩ := serve_chained hu ((hwu n).standing hs) hp hop hserve
    exact ⟨hinv, hnext, fun m hm => ((hwu m).trans (hothers m hm)).survive⟩

/-- **Every run is a chain of changes.** -/
theorem run_chained (hg : (storeMutations hash namespace_ manifest).Reachable g) :
    Chained ⟨manifest, .empty⟩ g.world :=
  (storeMutations_hold hg).world

/-- **History is a faithful log.** In every state that a run of mutations
comes to, with whatever retries and whatever evolutions between them: the
events of a record are numbered from 1, the first alone is its creation
and the last alone, where its row is gone, its deletion; each begins where
the one before ended; those of memberships change nothing; and the last
ends at what the record's row holds, which is what they fold to. -/
theorem history_faithful (hg : (storeMutations hash namespace_ manifest).Reachable g) (k : RecordIdentity) :
    Log g.world.content.specification k.2.1 (g.world.content.content.events k)
      (g.world.content.content.recordRow k.1 k.2.1 k.2.2) :=
  Data.Faithful.log (faithful_of_changes (run_chained hg).changes (faithful_empty _)) k

/-! ## One operation -/

/-- A store that has just been materialised, with nothing under way. -/
def materialised (m : ManifestV2) : World Holdings := ⟨⟨m, .empty⟩, fun _ => none, .open_, fun _ => .over, []⟩

theorem served {w w' : World Holdings} {e : Call Holdings} {r : e.Reply} (hop : Operates w e r)
    (h : Serve .sqlite (fun _ => 0) "notes" 0 w e r w') : Served (fun _ => 0) "notes" 0 w e r w' :=
  ⟨w, w, .stays, ⟨rfl, rfl, rfl, fun _ => .inl rfl, fun _ _ => rfl⟩, hop, h⟩

/-- **What an operation makes of an empty store is committed by a run.** -/
theorem reachable_operated {m : ManifestV2} {caller : Caller} {t : Readings} {c : Command} {y : Content} {r : Result}
    (hop : operate .sqlite (compileRecordSpecification m) caller t .empty c = .ok (y, r)) :
    ∃ g, (storeMutations (fun _ => 0) "notes" m).Reachable g ∧ g.world.content = ⟨m, y⟩ := by
  let change : Mutation := ⟨⟨caller.principalId, "first"⟩, c.kind, "change", fun _ => true⟩
  let staged : Staged Holdings := ⟨fun h => ⟨h.manifest, y⟩, "changed"⟩
  have h₀ : Sessions.At (storeMutations (fun _ => 0) "notes" m) 0 change (mutate .sqlite change) (materialised m) :=
    Sessions.at_start ⟨rfl, rfl, fun _ => rfl, fun _ => rfl⟩
  have hopen : ((materialised m).move 0 (.open_ none)).txns 0 ≠ .over := by
    rw [move_self]
    simp
  have h₁ := h₀.call rfl (served trivial (.begins fun _ _ => rfl))
  have h₂ := h₁.call rfl (served trivial (.fenceRead hopen))
  have h₃ := h₂.call rfl (served trivial (.rowRead hopen))
  have hoperates : Operates ((materialised m).move 0 (.open_ none)) (.operate change) (.ok (.ok staged)) := by
    refine ⟨caller, t, c, rfl, rfl, ?_⟩
    change match operate .sqlite (compileRecordSpecification m) caller t .empty c,
        (Except.ok staged : Except DataFailureCode (Staged Holdings)) with
      | .ok (y, _), .ok staged => staged.change ⟨m, .empty⟩ = ⟨m, y⟩
      | .error code, .error code' => code' = code
      | _, _ => False
    rw [hop]
  have h₄ := h₃.call rfl (served hoperates (.operated (.ok staged) hopen))
  have h₅ := h₄.call rfl (served trivial (.committed true hopen))
  obtain ⟨g, hg, hworld, -⟩ := h₅
  exact ⟨g, hg, by rw [hworld]; rfl⟩

/-! ## A note and its history -/

namespace Noted

def noteManifest : ManifestV2 where
  schemaVersion := 1
  entities := [{ name := "note", attributes := SERVER_MANAGED_FIELDS ++ [{ name := "label", type := .string }] }]
  valid := by decide

def alice : Caller := ⟨"alice", "cli"⟩

def readings : Readings := ⟨default, ⟨21, by decide, by decide⟩⟩

def note : EntityName := ⟨"note", by decide⟩

def createNote : Command := .createRecord ⟨note, ⟨[("label", .str "first")], by decide +kernel⟩⟩

def created : Except DataFailureCode (Content × Result) :=
  operate .sqlite (compileRecordSpecification noteManifest) alice readings .empty createNote

/-- The tables that the create leaves. -/
def noted : Content := (created.toOption.map Prod.fst).getD .empty

theorem created_eq : ∃ r, created = .ok (noted, r) := by
  have hok : created.toOption.isSome = true := by decide +kernel
  obtain ⟨⟨y, r⟩, hy⟩ := Option.isSome_iff_exists.1 hok
  refine ⟨r, ?_⟩
  rw [noted, hy]
  cases hcreated : created with
  | error code =>
    rw [hcreated] at hy
    exact absurd hy (by simp [Except.toOption])
  | ok p =>
    rw [hcreated] at hy
    obtain rfl := Option.some.inj hy
    rfl

abbrev notes : System (Sessions (World Holdings) (E := Call Holdings) Call.Reply Mutation Outcome)
    (ℕ × Sessions.Event (E := Call Holdings) Call.Reply Mutation) :=
  storeMutations (fun _ => 0) "notes" noteManifest

/-- The create runs, and commits. -/
theorem runs : ∃ g, notes.Reachable g ∧ g.world.content = ⟨noteManifest, noted⟩ := by
  obtain ⟨r, hr⟩ := created_eq
  exact reachable_operated hr

end Noted

open Noted in
/-- The note has one event, its creation. -/
theorem history_faithful_note : ∃ g, notes.Reachable g ∧
    (g.world.content.content.events ("alice", "note", readings.newId)).map (·.eventKind) = [.create] ∧
    Log g.world.content.specification "note" (g.world.content.content.events ("alice", "note", readings.newId))
      (g.world.content.content.recordRow "alice" "note" readings.newId) := by
  obtain ⟨g, hg, hcontent⟩ := runs
  refine ⟨g, hg, ?_, history_faithful hg ("alice", "note", readings.newId)⟩
  rw [hcontent]
  decide +kernel

end Data

end Aipcs
