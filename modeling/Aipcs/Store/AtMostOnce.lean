import Aipcs.Store.Mutation

/-!
# Service store — mutations take effect at most once

What a session knows of its own mutation is followed by a monitor: whether
its transaction is under the lock, the row it has found there, whether
none of its commits can have taken effect, and the result it may give. The
store bears this out, and no statement of another session spoils it.
-/

namespace Aipcs

namespace Store

namespace Mutating

open Registry Program Barrier

variable {Content : Type}

/-! ## What a session knows -/

/-- How far the transaction of an attempt is. -/
inductive Stage where
  | outside
  | begun
  | secured
  | looked (row : Option Replay)
deriving DecidableEq

/-- The state of an attempt; that no commit of the session has taken
effect; and the results its mutation is known to have. -/
structure Progress where
  stage : Stage := .outside
  clean : Bool := true
  known : List String := []

/-- The result that a row holds, where it is the mutation's own. -/
def resultOf (c : Mutation) (row : Option Replay) : List String :=
  ((row.filter fun r => r.IsOf c).map (·.resultJson)).toList

/-- The knowledge of a session moved by the replies to its statements. -/
def follow (Content : Type) (adapter : StorageBackend) (c : Mutation) : Monitor (E := Call Content) Call.Reply Progress where
  permits s
    | .begin_ => s.stage = .outside
    | .lockIdempotency c' => c' = c
    | .mutationRow c' => c' = c ∧ s.stage = if adapter = .postgresql then .secured else .begun
    | .commit c' staged => c' = c ∧ (staged.isSome = true → s.stage = .looked none)
    | .observe c' => c' = c
    | _ => True
  next s
    | .begin_, .ok () => { s with stage := .begun }
    | .lockIdempotency _, .ok () => { s with stage := .secured }
    | .mutationRow _, .ok row => { s with stage := .looked row, known := s.known ++ resultOf c row }
    | .commit _ staged, (returned : Bool) =>
      { stage := .outside
        clean := s.clean && staged.isNone
        known := if returned then s.known ++ (staged.map (·.resultJson)).toList else s.known }
    | .rollback, () => { s with stage := .outside }
    | .observe _, (r : Except StoreError (Option Replay)) =>
      { s with
        clean := s.clean || (observation adapter c r).isNone
        known := s.known ++ r.toOption.elim [] (resultOf c) }
    | _, _ => s

variable {adapter : StorageBackend} {c : Mutation} {s : Progress}

/-- What an attempt is known to have come to: one of unknown outcome is
over; one that failed has had no effect. -/
def Attempted (s u : Progress) : Option Outcome → Prop
  | none => u.stage = .outside
  | some (.success r _) => r ∈ u.known
  | some (.failure _) => u.clean = s.clean

theorem refuses_ensures (code : DataFailureCode) :
    Ensures (follow Content adapter c) (Attempted s) s (refuses code) := by
  refine Ensures.perform trivial fun _ => ?_
  exact rfl

theorem finishes_ensures {staged : Option (Staged Content)} {out : Outcome}
    (hstage : staged.isSome = true → s.stage = .looked none) (r : String) (replayed : Bool)
    (hout : out = .success r replayed) (hknown : r ∈ s.known ++ (staged.map (·.resultJson)).toList) :
    Ensures (follow Content adapter c) (Attempted s) s (finishes c staged out) := by
  subst hout
  refine Ensures.perform ⟨rfl, hstage⟩ fun (returned : Bool) => ?_
  cases returned with
  | false => exact rfl
  | true => exact hknown

theorem mem_resultOf {row : Replay} (h : row.IsOf c) : row.resultJson ∈ resultOf c (some row) := by
  rw [resultOf, Option.filter_some_pos (by simpa using h)]
  simp

theorem replayRow_ensures {row : Replay} (hknown : ∀ r ∈ resultOf c (some row), r ∈ s.known) :
    Ensures (follow Content adapter c) (Attempted s) s (replayRow c row) := by
  unfold replayRow
  by_cases hrow : row.IsOf c
  · rw [if_neg (not_not.2 hrow)]
    by_cases hdecodes : c.decodes row.resultJson = true
    · rw [if_pos hdecodes]
      refine finishes_ensures (by simp) _ _ rfl ?_
      simpa using hknown _ (mem_resultOf hrow)
    · rw [if_neg hdecodes]
      exact refuses_ensures _
  · rw [if_pos hrow]
    exact refuses_ensures _

theorem Attempted.of_clean {s' u : Progress} {out : Option Outcome} (h : Attempted s' u out)
    (hclean : s'.clean = s.clean) : Attempted s u out := by
  match out with
  | none => exact h
  | some (.success _ _) => exact h
  | some (.failure _) => exact Eq.trans h hclean

theorem operation_ensures (hstage : s.stage = if adapter = .postgresql then .secured else .begun) :
    Ensures (follow Content adapter c) (Attempted s) s (operation c) := by
  refine Ensures.perform ⟨rfl, hstage⟩ fun (r : Except StoreError (Option Replay)) => ?_
  match r with
  | .error error => exact refuses_ensures _
  | .ok (some row) =>
    refine (replayRow_ensures fun r hr => ?_).mono fun u out h => h.of_clean rfl
    exact List.mem_append_right _ hr
  | .ok none =>
    refine Ensures.perform trivial fun (r : Except StoreError (Except DataFailureCode (Staged Content))) => ?_
    match r with
    | .error error => exact (refuses_ensures _).mono fun u out h => h.of_clean rfl
    | .ok (.error code) => exact (refuses_ensures _).mono fun u out h => h.of_clean rfl
    | .ok (.ok staged) =>
      refine (finishes_ensures (fun _ => rfl) _ _ rfl ?_).mono fun u out h => h.of_clean rfl
      exact List.mem_append_right _ (by simp)

theorem mutateOnce_ensures (hstage : s.stage = .outside) :
    Ensures (follow Content adapter c) (Attempted s) s (mutateOnce adapter c) := by
  refine Ensures.perform hstage fun (r : Except StoreError Unit) => ?_
  match r with
  | .error error => exact rfl
  | .ok () =>
    refine Ensures.perform trivial fun (r : Except StoreError FenceState) => ?_
    match r with
    | .error error => exact (refuses_ensures _).mono fun u out h => h.of_clean rfl
    | .ok .closed => exact (refuses_ensures _).mono fun u out h => h.of_clean rfl
    | .ok .open_ =>
      dsimp only
      by_cases hadapter : adapter = .postgresql
      · rw [secure, if_pos hadapter]
        refine Ensures.perform rfl fun (r : Except StoreError Unit) => ?_
        match r with
        | .error error => exact (refuses_ensures _).mono fun u out h => h.of_clean rfl
        | .ok () =>
          exact (operation_ensures (if_pos hadapter).symm).mono fun u out h => h.of_clean rfl
      · rw [secure, if_neg hadapter]
        exact (operation_ensures (if_neg hadapter).symm).mono fun u out h => h.of_clean rfl

/-- What an observation is known to have found. -/
def Seen (s u : Progress) : Option Outcome → Prop
  | none => u.stage = s.stage ∧ u.clean = true
  | some (.success r _) => r ∈ u.known
  | some (.failure code) => code = .operationUncertain

theorem mem_of_observation {r : Except StoreError (Option Replay)} {text : String} {replayed : Bool}
    (h : observation adapter c r = some (.success text replayed)) :
    ∃ row, r = .ok (some row) ∧ row.IsOf c ∧ row.resultJson = text := by
  unfold observation at h
  split_ifs at h
  · match r with
    | .ok (some row) =>
      rw [observe] at h
      split_ifs at h with hrow
      obtain ⟨rfl, -⟩ := Outcome.success.inj (Option.some.inj h)
      exact ⟨row, rfl, hrow.1, rfl⟩
    | .ok none => exact absurd h (by simp [observe])
    | .error _ => exact absurd h (by simp [observe])
  · match r with
    | .ok (some row) =>
      rw [observeCompleted] at h
      split_ifs at h with hrow
      · obtain ⟨rfl, -⟩ := Outcome.success.inj (Option.some.inj h)
        exact ⟨row, rfl, hrow.1, rfl⟩
      · exact absurd (Option.some.inj h) (by simp)
    | .ok none => exact absurd h (by simp [observeCompleted])
    | .error _ => exact absurd h (by simp [observeCompleted])

theorem code_of_observation {r : Except StoreError (Option Replay)} {code : DataFailureCode}
    (h : observation adapter c r = some (.failure code)) : code = .operationUncertain := by
  unfold observation at h
  split_ifs at h
  · match r with
    | .ok (some row) =>
      rw [observe] at h
      split_ifs at h
      exact absurd (Option.some.inj h) (by simp)
    | .ok none => exact absurd h (by simp [observe])
    | .error _ => exact absurd h (by simp [observe])
  · match r with
    | .ok (some row) =>
      rw [observeCompleted] at h
      split_ifs at h
      · exact absurd (Option.some.inj h) (by simp)
      · exact (Outcome.failure.inj (Option.some.inj h)).symm
    | .ok none => exact absurd h (by simp [observeCompleted])
    | .error _ => exact (Outcome.failure.inj (Option.some.inj h)).symm

theorem observes_ensures :
    Ensures (follow Content adapter c) (Seen s) s (observes adapter c) := by
  refine Ensures.perform rfl fun (r : Except StoreError (Option Replay)) => ?_
  change Seen s _ (observation adapter c r)
  match h : observation adapter c r with
  | none => exact ⟨rfl, by simp [follow, h]⟩
  | some (.success text replayed) =>
    obtain ⟨row, rfl, hrow, rfl⟩ := mem_of_observation h
    exact List.mem_append_right _ (mem_resultOf hrow)
  | some (.failure code) => exact code_of_observation h

/-- What a session may be answered: a result that is known, a failure of
which nothing has come, or uncertainty. -/
def Answered (s : Progress) : Outcome → Prop
  | .success r _ => r ∈ s.known
  | .failure code => code ≠ .operationUncertain → s.clean = true

/-- **What `_mutate` is known to answer.** -/
theorem mutate_ensures : Ensures (follow Content adapter c) Answered {} (mutate adapter c) := by
  refine Ensures.bind (mutateOnce_ensures rfl) fun s out hout => ?_
  match out with
  | some (.success r replayed) => exact hout
  | some (.failure code) => exact fun _ => hout
  | none =>
    refine Ensures.bind observes_ensures fun u out hseen => ?_
    match out with
    | some (.success r replayed) => exact hseen
    | some (.failure code) => exact fun h => absurd hseen h
    | none =>
      obtain ⟨hstage, hclean⟩ := hseen
      refine Ensures.bind (mutateOnce_ensures (hstage.trans hout)) fun v out hout => ?_
      match out with
      | some (.success r replayed) => exact hout
      | some (.failure code) => exact fun _ => Eq.trans hout hclean
      | none =>
        refine Ensures.bind observes_ensures fun x out hseen => ?_
        match out with
        | some (.success r replayed) => exact hseen
        | some (.failure code) => exact fun h => absurd hseen h
        | none => exact fun h => absurd rfl h

/-! ## What the store bears out -/

variable {hash : String → ℤ} {namespace_ : String} {w w' u : World Content} {n m : ℕ} {start : Content}
variable {told : Prop}

/-- The session's transaction keeps others from the identity: with
PostgreSQL by its lock, with SQLite by being under way. -/
def Secures (adapter : StorageBackend) (hash : String → ℤ) (namespace_ : String) (w : World Content) (n : ℕ)
    (x : MutationIdentity) : Prop :=
  if adapter = .postgresql then w.txns n = .open_ (some (lockKey hash namespace_ x)) else w.txns n ≠ .over

/-- **What holds of a store in every run**: an identity's mutation is
applied once, its row is that of the application, and the content is what
the applications make of it. -/
structure Inv (adapter : StorageBackend) (hash : String → ℤ) (namespace_ : String) (start : Content)
    (w : World Content) : Prop where
  once : (w.applied.map (·.identity)).Nodup
  replays : ∀ x row, w.replays x = some row ↔ ∃ a ∈ w.applied, a.identity = x ∧ a.replay = row
  content : w.content = w.applied.foldl (fun x a => a.change x) start
  exclusive : ∀ i j x, Secures adapter hash namespace_ w i x → Secures adapter hash namespace_ w j x → i = j

/-- The application is one of the mutation. -/
def Application.IsOf (a : Application Content) (c : Mutation) : Prop :=
  a.identity = c.identity ∧ a.replay.IsOf c

/-- What the store bears out of a session under way. -/
structure Running (adapter : StorageBackend) (hash : String → ℤ) (namespace_ : String) (told : Prop) (n : ℕ)
    (c : Mutation) (w : World Content) (s : Progress) : Prop where
  own : ∀ a ∈ w.applied, a.session = n → a.IsOf c
  clean : told → s.clean = true → ∀ a ∈ w.applied, a.session ≠ n
  known : ∀ r ∈ s.known, ∃ a ∈ w.applied, a.IsOf c ∧ a.replay.resultJson = r
  secured : s.stage = .secured → w.txns n = .over ∨ Secures adapter hash namespace_ w n c.identity
  looked : ∀ row, s.stage = .looked row →
    w.txns n = .over ∨ Secures adapter hash namespace_ w n c.identity ∧ w.replays c.identity = row

/-- What it bears out of one that has ended. -/
structure Ended (told : Prop) (n : ℕ) (c : Mutation) (w : World Content) (out : Option Outcome) : Prop where
  own : ∀ a ∈ w.applied, a.session = n → a.IsOf c
  success : ∀ r replayed, out = some (.success r replayed) →
    ∃ a ∈ w.applied, a.IsOf c ∧ a.replay.resultJson = r
  failure : ∀ code, out = some (.failure code) → told → code ≠ .operationUncertain →
    ∀ a ∈ w.applied, a.session ≠ n

/-- What is claimed of the sessions of a store. -/
def claims (adapter : StorageBackend) (hash : String → ℤ) (namespace_ : String) (told : Prop) :
    Sessions.Claims (World Content) (Call Content) Call.Reply Mutation Outcome Progress where
  idle n w := ∀ a ∈ w.applied, a.session ≠ n
  running n c w s := Running adapter hash namespace_ told n c w s
  ended n c w out := Ended told n c w out

/-- What another session, or nobody, does to a session: it adds
applications of its own, may end its transaction, and leaves the row that
the session secures. -/
structure Spares (adapter : StorageBackend) (hash : String → ℤ) (namespace_ : String) (m : ℕ)
    (w w' : World Content) : Prop where
  txns : w'.txns m = w.txns m ∨ w'.txns m = .over
  applied : w'.applied = w.applied ∨ ∃ a, a.session ≠ m ∧ w'.applied = w.applied ++ [a]
  replays : ∀ x, Secures adapter hash namespace_ w m x → w'.replays x = w.replays x

namespace Spares

theorem mem (h : Spares adapter hash namespace_ m w w') {a : Application Content} (ha : a ∈ w.applied) :
    a ∈ w'.applied := by
  rcases h.applied with heq | ⟨b, -, heq⟩
  · rwa [heq]
  · rw [heq]
    exact List.mem_append_left _ ha

theorem mem_of_mem (h : Spares adapter hash namespace_ m w w') {a : Application Content}
    (ha : a ∈ w'.applied) : a ∈ w.applied ∨ a.session ≠ m := by
  rcases h.applied with heq | ⟨b, hb, heq⟩
  · rw [heq] at ha
    exact .inl ha
  · rw [heq, List.mem_append, List.mem_singleton] at ha
    rcases ha with ha | rfl
    · exact .inl ha
    · exact .inr hb

theorem absent (h : Spares adapter hash namespace_ m w w') (hw : ∀ a ∈ w.applied, a.session ≠ m) :
    ∀ a ∈ w'.applied, a.session ≠ m := fun a ha => (h.mem_of_mem ha).elim (hw a) id

theorem own (h : Spares adapter hash namespace_ m w w') (hw : ∀ a ∈ w.applied, a.session = m → a.IsOf c) :
    ∀ a ∈ w'.applied, a.session = m → a.IsOf c :=
  fun a ha hm => (h.mem_of_mem ha).elim (fun ha => hw a ha hm) fun hne => absurd hm hne

theorem known (h : Spares adapter hash namespace_ m w w') {r : String}
    (hw : ∃ a ∈ w.applied, a.IsOf c ∧ a.replay.resultJson = r) :
    ∃ a ∈ w'.applied, a.IsOf c ∧ a.replay.resultJson = r := by
  obtain ⟨a, ha, hof⟩ := hw
  exact ⟨a, h.mem ha, hof⟩

theorem secures (h : Spares adapter hash namespace_ m w w') {x : MutationIdentity}
    (hw : Secures adapter hash namespace_ w m x) :
    w'.txns m = .over ∨ Secures adapter hash namespace_ w' m x := by
  rcases h.txns with heq | hover
  · right
    rw [Secures, heq]
    exact hw
  · exact .inl hover

/-- **What is claimed of a session survives the others.** -/
theorem survive (h : Spares adapter hash namespace_ m w w') :
    (claims adapter hash namespace_ told).Survive m w w' := by
  have hover : w.txns m = .over → w'.txns m = .over := fun ho => h.txns.elim (fun heq => heq.trans ho) id
  refine ⟨h.absent, fun c s hs => ⟨h.own hs.own, fun ht hclean => h.absent (hs.clean ht hclean),
    fun r hr => h.known (hs.known r hr), fun hstage => ?_, fun row hstage => ?_⟩,
    fun c out hout => ⟨h.own hout.own, fun r replayed heq => h.known (hout.success r replayed heq),
      fun code heq ht hne => h.absent (hout.failure code heq ht hne)⟩⟩
  · rcases hs.secured hstage with ho | hsecures
    · exact .inl (hover ho)
    · exact h.secures hsecures
  · rcases hs.looked row hstage with ho | ⟨hsecures, hrow⟩
    · exact .inl (hover ho)
    · refine (h.secures hsecures).imp_right fun hnew => ⟨hnew, ?_⟩
      rw [h.replays _ hsecures, hrow]

end Spares

/-! ## Statements -/

theorem Secures.open_ {x : MutationIdentity} (h : Secures adapter hash namespace_ w n x) :
    w.txns n ≠ .over := by
  unfold Secures at h
  split_ifs at h
  · rw [h]
    simp
  · exact h

/-- A transaction that was left, or ended, secures what it did. -/
theorem Secures.of_txns {x : MutationIdentity} (ht : w'.txns n = w.txns n ∨ w'.txns n = .over)
    (h : Secures adapter hash namespace_ w' n x) : Secures adapter hash namespace_ w n x := by
  rcases ht with heq | hover
  · rwa [Secures, heq] at h
  · exact absurd hover h.open_

/-- Nothing takes effect, and nothing new is secured. -/
theorem Inv.quiet (h : Inv adapter hash namespace_ start w) (hcontent : w'.content = w.content)
    (hreplays : w'.replays = w.replays) (happlied : w'.applied = w.applied)
    (htxns : ∀ n, w'.txns n = w.txns n ∨ w'.txns n = .over) : Inv adapter hash namespace_ start w' := by
  refine ⟨by rw [happlied]; exact h.once, fun x row => by rw [hreplays, happlied]; exact h.replays x row,
    by rw [hcontent, happlied]; exact h.content, fun i j x hi hj => ?_⟩
  exact h.exclusive i j x (hi.of_txns (htxns i)) (hj.of_txns (htxns j))

namespace Meanwhile

variable (hu : Meanwhile adapter w u)

include hu

theorem inv (h : Inv adapter hash namespace_ start w) : Inv adapter hash namespace_ start u :=
  h.quiet hu.content hu.replays hu.applied hu.txns

theorem spares : Spares adapter hash namespace_ m w u :=
  ⟨hu.txns m, .inl hu.applied, fun _ _ => by rw [hu.replays]⟩

end Meanwhile

theorem move_self {t : Txn} : (w.move n t).txns n = t := Function.update_self ..

theorem move_of_ne {t : Txn} (h : m ≠ n) : (w.move n t).txns m = w.txns m := Function.update_of_ne h ..

theorem spares_move {t : Txn} (h : m ≠ n) : Spares adapter hash namespace_ m w (w.move n t) :=
  ⟨.inl (move_of_ne h), .inl rfl, fun _ _ => rfl⟩

/-- A transaction that goes on keeps the invariant, where it secures
nothing that another does. -/
theorem Inv.move (h : Inv adapter hash namespace_ start w) {t : Txn}
    (ht : ∀ i x, i ≠ n → Secures adapter hash namespace_ w i x →
      ¬ Secures adapter hash namespace_ (w.move n t) n x) : Inv adapter hash namespace_ start (w.move n t) := by
  refine ⟨h.once, h.replays, h.content, fun i j x hi hj => ?_⟩
  have hback : ∀ {i}, i ≠ n → Secures adapter hash namespace_ (w.move n t) i x →
      Secures adapter hash namespace_ w i x := fun hne hi => hi.of_txns (.inl (move_of_ne hne))
  by_cases hin : i = n
  · by_cases hjn : j = n
    · rw [hin, hjn]
    · subst hin
      exact absurd hi (ht j x hjn (hback hjn hj))
  · by_cases hjn : j = n
    · subst hjn
      exact absurd hj (ht i x hin (hback hin hi))
    · exact h.exclusive i j x (hback hin hi) (hback hjn hj)

theorem Inv.over (h : Inv adapter hash namespace_ start w) : Inv adapter hash namespace_ start (w.move n .over) :=
  h.move fun _ _ _ _ hs => hs.open_ move_self

/-- **What is staged takes effect once**: under the lock of its identity,
where no row was found. -/
theorem Inv.apply (h : Inv adapter hash namespace_ start w) (hrow : w.replays c.identity = none)
    (x : Staged Content) : Inv adapter hash namespace_ start (w.apply n c x) := by
  have hnew : ∀ a ∈ w.applied, a.identity ≠ c.identity := by
    intro a ha hid
    have hsome := (h.replays c.identity a.replay).2 ⟨a, ha, hid, rfl⟩
    rw [hrow] at hsome
    exact absurd hsome (by simp)
  refine ⟨?_, fun y row => ?_, ?_, h.exclusive⟩
  · rw [World.apply, List.map_append, List.nodup_append]
    refine ⟨h.once, by simp, fun y hy z hz => ?_⟩
    obtain ⟨a, ha, rfl⟩ := List.mem_map.1 hy
    obtain rfl : z = c.identity := by simpa using hz
    exact hnew a ha
  · by_cases hy : y = c.identity
    · subst hy
      simp only [World.apply, Function.update_self, List.mem_append, List.mem_singleton]
      constructor
      · rintro heq
        exact ⟨_, .inr rfl, rfl, Option.some.inj heq⟩
      · rintro ⟨a, ha | rfl, hid, rfl⟩
        · exact absurd hid (hnew a ha)
        · rfl
    · simp only [World.apply, Function.update_of_ne hy, List.mem_append, List.mem_singleton]
      rw [h.replays y row]
      constructor
      · rintro ⟨a, ha, hrest⟩
        exact ⟨a, .inl ha, hrest⟩
      · rintro ⟨a, ha | rfl, hid, hreplay⟩
        · exact ⟨a, ha, hid, hreplay⟩
        · exact absurd hid.symm hy
  · rw [World.apply, List.foldl_append, ← h.content]
    rfl

theorem spares_apply (h : Inv adapter hash namespace_ start w) (hne : m ≠ n)
    (hsecures : Secures adapter hash namespace_ w n c.identity) (x : Staged Content) :
    Spares adapter hash namespace_ m w (w.apply n c x) := by
  refine ⟨.inl rfl, .inr ⟨_, fun heq => hne heq.symm, rfl⟩, fun y hy => ?_⟩
  refine Function.update_of_ne (fun heq => hne ?_) ..
  subst heq
  exact h.exclusive m n _ hy hsecures

theorem Spares.trans {w'' : World Content} (h : Spares adapter hash namespace_ m w w')
    (k : Spares adapter hash namespace_ m w' w'') (heq : w''.applied = w'.applied)
    (hreplays : w''.replays = w'.replays) : Spares adapter hash namespace_ m w w'' := by
  refine ⟨?_, by rw [heq]; exact h.applied, fun x hx => by rw [hreplays]; exact h.replays x hx⟩
  rcases k.txns with hk | hk
  · rw [hk]
    exact h.txns
  · exact .inr hk

/-- **The condition on a run.** Where PostgreSQL's observation finds no
outcome, the store has no row of the mutation. -/
def Told (adapter : StorageBackend) (w : World Content) : (e : Call Content) → e.Reply → Prop
  | .observe c, (r : Except StoreError (Option Replay)) => adapter = .postgresql →
    observation adapter c r = none → ∀ row, w.replays c.identity = some row → ¬ row.IsOf c
  | _, _ => True

theorem Running.next {s' : Progress} (hs : Running adapter hash namespace_ told n c w s)
    (happlied : w'.applied = w.applied)
    (hclean : told → s'.clean = true → s.clean = true ∨ ∀ a ∈ w.applied, a.session ≠ n)
    (hknown : ∀ r ∈ s'.known, r ∈ s.known ∨ ∃ a ∈ w.applied, a.IsOf c ∧ a.replay.resultJson = r)
    (hsecured : s'.stage = .secured → w'.txns n = .over ∨ Secures adapter hash namespace_ w' n c.identity)
    (hlooked : ∀ row, s'.stage = .looked row →
      w'.txns n = .over ∨ Secures adapter hash namespace_ w' n c.identity ∧ w'.replays c.identity = row) :
    Running adapter hash namespace_ told n c w' s' := by
  refine ⟨by rw [happlied]; exact hs.own, fun ht hc => ?_, fun r hr => ?_, hsecured, hlooked⟩ <;> rw [happlied]
  · exact (hclean ht hc).elim (hs.clean ht) id
  · exact (hknown r hr).elim (hs.known r) id

/-- A transaction that ends, or has broken off. -/
theorem Running.outside {s' : Progress} (hs : Running adapter hash namespace_ told n c w s)
    (hstage : s'.stage = .outside) (hclean : s'.clean = true → s.clean = true) (hknown : s'.known = s.known) :
    Running adapter hash namespace_ told n c (w.move n .over) s' :=
  hs.next rfl (fun _ hc => .inl (hclean hc)) (fun r hr => .inl (hknown ▸ hr)) (fun h => absurd h (by simp [hstage]))
    fun row h => absurd h (by simp [hstage])

/-- The result of a row that is read is that of an application. -/
theorem Inv.resultOf (h : Inv adapter hash namespace_ start w) {r : String}
    (hr : r ∈ resultOf c (w.replays c.identity)) : ∃ a ∈ w.applied, a.IsOf c ∧ a.replay.resultJson = r := by
  unfold Mutating.resultOf at hr
  rw [Option.mem_toList] at hr
  obtain ⟨row, hrow, rfl⟩ := Option.map_eq_some_iff.1 hr
  obtain ⟨hrow, hof⟩ := Option.filter_eq_some_iff.1 hrow
  obtain ⟨a, ha, hid, rfl⟩ := (h.replays c.identity row).1 hrow
  exact ⟨a, ha, ⟨hid, by simpa using hof⟩, rfl⟩

/-- A session without a row of its own has had no effect. -/
theorem Running.absent (hs : Running adapter hash namespace_ told n c w s)
    (h : Inv adapter hash namespace_ start w)
    (hnone : ∀ row, w.replays c.identity = some row → ¬ row.IsOf c) : ∀ a ∈ w.applied, a.session ≠ n := by
  intro a ha hn
  obtain ⟨hid, hof⟩ := hs.own a ha hn
  exact hnone a.replay ((h.replays _ _).2 ⟨a, ha, hid, rfl⟩) hof

/-- A commit that has taken effect. -/
theorem committed_keeps {staged : Option (Staged Content)} {returned : Bool}
    (hw : Inv adapter hash namespace_ start w) (hs : Running adapter hash namespace_ told n c w s)
    (hstage : staged.isSome = true → s.stage = .looked none) (hopen : w.txns n ≠ .over) :
    Inv adapter hash namespace_ start (w.commit n c staged) ∧
      Running adapter hash namespace_ told n c (w.commit n c staged)
        ((follow Content adapter c).next s (.commit c staged) returned) ∧
      ∀ m, m ≠ n → Spares adapter hash namespace_ m w (w.commit n c staged) := by
  cases staged with
  | none =>
    refine ⟨hw.over, hs.outside rfl (fun hc => ?_) ?_, fun m hm => spares_move hm⟩
    · simpa [follow] using hc
    · cases returned <;> simp [follow]
  | some x =>
    obtain ⟨hsecures, hrow⟩ := (hs.looked none (hstage rfl)).resolve_left hopen
    have happly : Inv adapter hash namespace_ start (w.apply n c x) := hw.apply hrow x
    refine ⟨happly.over, ⟨fun a ha hn => ?_, fun ht hc => absurd hc (by simp [follow]), fun r hr => ?_,
      fun h => absurd h (by simp [follow]), fun row h => absurd h (by simp [follow])⟩, fun m hm => ?_⟩
    · rcases List.mem_append.1 ha with ha | ha
      · exact hs.own a ha hn
      · obtain rfl := List.mem_singleton.1 ha
        exact ⟨rfl, rfl, rfl⟩
    · have hcases : r ∈ s.known ∨ r = x.resultJson := by
        cases returned <;> simp [follow] at hr <;> tauto
      rcases hcases with hr | rfl
      · obtain ⟨a, ha, hof⟩ := hs.known r hr
        exact ⟨a, List.mem_append_left _ ha, hof⟩
      · exact ⟨_, List.mem_append_right _ (List.mem_singleton_self _), ⟨rfl, rfl, rfl⟩, rfl⟩
    · exact (spares_apply hw hm hsecures x).trans (spares_move hm) rfl rfl

/-- What an observation finds is borne out. -/
theorem observed_keeps {r : Except StoreError (Option Replay)} (hw : Inv adapter hash namespace_ start w)
    (hs : Running adapter hash namespace_ told n c w s) (hok : told → Told adapter w (.observe c) r)
    (hr : ∀ row, r = .ok row → row = w.replays c.identity) :
    Running adapter hash namespace_ told n c w ((follow Content adapter c).next s (.observe c) r) := by
  refine hs.next rfl (fun ht hc => ?_) (fun text htext => ?_) hs.secured hs.looked
  · have hclean : s.clean = true ∨ (observation adapter c r).isNone = true := by
      simpa [follow] using hc
    refine hclean.imp_right fun hnone => hs.absent hw fun row hrow hof => ?_
    have hnone := Option.isNone_iff_eq_none.1 hnone
    by_cases hadapter : adapter = .postgresql
    · exact hok ht hadapter hnone row hrow hof
    · -- SQLite finds nothing only where there is no row
      rw [observation, if_neg hadapter] at hnone
      match r, hr, hnone with
      | .ok none, hr, _ =>
        rw [← hr none rfl] at hrow
        exact absurd hrow (by simp)
      | .ok (some _), _, hnone =>
        rw [observeCompleted] at hnone
        split_ifs at hnone
  · rcases List.mem_append.1 htext with htext | htext
    · exact .inl htext
    · match r, hr, htext with
      | .ok row, hr, htext =>
        obtain rfl := hr row rfl
        exact .inr (hw.resultOf htext)
      | .error _, _, htext => exact absurd htext List.not_mem_nil

/-- **A statement served** keeps the invariant, bears out what its session
then knows, and spares the others. -/
theorem serve_keeps {e : Call Content} {r : e.Reply} (hw : Inv adapter hash namespace_ start w)
    (hs : Running adapter hash namespace_ told n c w s) (hp : (follow Content adapter c).permits s e)
    (hok : told → Told adapter w e r) (h : Serve adapter hash namespace_ n w e r w') :
    Inv adapter hash namespace_ start w' ∧
      Running adapter hash namespace_ told n c w' ((follow Content adapter c).next s e r) ∧
      ∀ m, m ≠ n → Spares adapter hash namespace_ m w w' := by
  have hself : ∀ m, m ≠ n → Spares adapter hash namespace_ m w w :=
    fun m _ => ⟨.inl rfl, .inl rfl, fun _ _ => rfl⟩
  cases h with
  | begins hidle =>
    refine ⟨hw.move fun i x hi hsecures hmine => ?_, hs.next rfl (fun _ hc => .inl hc) (fun r hr => .inl hr)
      (fun h => absurd h (by simp [follow])) fun row h => absurd h (by simp [follow]), fun m hm => spares_move hm⟩
    -- with SQLite no other is under way, and with PostgreSQL nothing is locked yet
    unfold Secures at hmine hsecures
    by_cases hadapter : adapter = .postgresql
    · rw [if_pos hadapter, move_self] at hmine
      exact absurd hmine (by simp)
    · rw [if_neg hadapter] at hsecures
      refine hsecures (hidle ?_ i)
      cases adapter with
      | sqlite => rfl
      | postgresql => exact absurd rfl hadapter
  | beginRaises error => exact ⟨hw.over, hs.outside hp id rfl, fun m hm => spares_move hm⟩
  | fenceRead => exact ⟨hw, hs, hself⟩
  | fenceRaises => exact ⟨hw, hs, hself⟩
  | @locked c' hopen hfree =>
    obtain rfl : c' = c := hp
    refine ⟨hw.move fun i x hi hsecures hmine => ?_, hs.next rfl (fun _ hc => .inl hc) (fun r hr => .inl hr)
      (fun _ => ?_) fun row h => absurd h (by simp [follow]), fun m hm => spares_move hm⟩
    · unfold Secures at hmine hsecures
      by_cases hadapter : adapter = .postgresql
      · rw [if_pos hadapter] at hmine hsecures
        rw [move_self] at hmine
        exact hfree i hi (hsecures.trans hmine.symm)
      · have hboth := hw.exclusive i n x (by rwa [Secures]) (by rw [Secures, if_neg hadapter]; exact hopen)
        exact hi hboth
    · right
      unfold Secures
      by_cases hadapter : adapter = .postgresql
      · rw [if_pos hadapter, move_self]
      · rw [if_neg hadapter, move_self]
        simp
  | lockRaises => exact ⟨hw, hs, hself⟩
  | @rowRead c' hopen =>
    obtain ⟨rfl, hstage⟩ : c' = c ∧ _ := hp
    refine ⟨hw, hs.next rfl (fun _ hc => .inl hc) (fun r hr => ?_) (fun h => absurd h (by simp [follow]))
      (fun row hrow => ?_), hself⟩
    · exact (List.mem_append.1 hr).imp_right fun hr => hw.resultOf hr
    · obtain rfl : w.replays c'.identity = row := by simpa [follow] using hrow
      refine .inr ⟨?_, rfl⟩
      by_cases hadapter : adapter = .postgresql
      · rw [if_pos hadapter] at hstage
        exact (hs.secured hstage).resolve_left hopen
      · rw [Secures, if_neg hadapter]
        exact hopen
  | rowRaises => exact ⟨hw, hs, hself⟩
  | operated => exact ⟨hw, hs, hself⟩
  | operateRaises => exact ⟨hw, hs, hself⟩
  | @committed c' staged returned hopen =>
    obtain ⟨rfl, hstage⟩ : c' = c ∧ _ := hp
    exact committed_keeps hw hs hstage hopen
  | @commitFails c' staged =>
    refine ⟨hw.over, hs.outside rfl (fun hc => ?_) rfl, fun m hm => spares_move hm⟩
    exact (Bool.and_eq_true _ _ ▸ hc : _ ∧ _).1
  | rolledBack => exact ⟨hw.over, hs.outside rfl id rfl, fun m hm => spares_move hm⟩
  | @observed c' hlocks =>
    obtain rfl : c' = c := hp
    exact ⟨hw, observed_keeps hw hs hok fun row hrow => (Except.ok.inj hrow).symm, hself⟩
  | @observeRaises c' error =>
    obtain rfl : c' = c := hp
    exact ⟨hw, observed_keeps hw hs hok fun row hrow => absurd hrow (by simp), hself⟩

/-! ## Every run -/

theorem Told.meanwhile {e : Call Content} {r : e.Reply} (h : Told adapter w e r) (hu : Meanwhile adapter w u) :
    Told adapter u e r := by
  cases e with
  | observe c =>
    intro hadapter hnone row
    rw [hu.replays]
    exact h hadapter hnone row
  | _ => exact trivial

variable {g : Sessions (World Content) (E := Call Content) Call.Reply Mutation Outcome}

theorem mutations_hold (hg : (mutations adapter hash namespace_ start).ReachableUnder
      (Sessions.Calls fun w e r => told → Told adapter w e r) g) :
    Sessions.Holds (claims adapter hash namespace_ told) (follow Content adapter) (fun _ => Answered)
      (Inv adapter hash namespace_ start) g := by
  refine Sessions.invariant (fun w hw => ?_) (fun n c w hw hidle => ?_)
    (fun n c w s e r w' hw hs hp hok hserves => ?_) (fun n c w s a hs hpost => ?_) (fun n c w s hs => ?_) hg
  · obtain ⟨hcontent, happlied, hreplays, htxns⟩ := hw
    refine ⟨⟨by simp [happlied], fun x row => by simp [happlied, hreplays], by simp [happlied, hcontent],
      fun i j x hi => absurd (htxns i) hi.open_⟩, fun n a ha => ?_⟩
    rw [happlied] at ha
    exact absurd ha List.not_mem_nil
  · exact ⟨{}, ⟨fun a ha hn => absurd hn (hidle a ha), fun _ _ => hidle, fun r hr => absurd hr List.not_mem_nil,
      fun h => absurd h (by simp), fun row h => absurd h (by simp)⟩, mutate_ensures⟩
  · obtain ⟨u, hu, hserve⟩ := hserves
    have hsu : Running adapter hash namespace_ told n c u s := (hu.spares.survive.running c s) hs
    obtain ⟨hinv, hnext, hspares⟩ := serve_keeps (hu.inv hw) hsu hp (fun ht => (hok ht).meanwhile hu) hserve
    exact ⟨hinv, hnext, fun m hm => ⟨fun h => (hspares m hm).survive.idle (hu.spares.survive.idle h),
      fun c s h => (hspares m hm).survive.running c s (hu.spares.survive.running c s h),
      fun c out h => (hspares m hm).survive.ended c out (hu.spares.survive.ended c out h)⟩⟩
  · refine ⟨hs.own, fun r replayed heq => ?_, fun code heq ht hne => ?_⟩ <;> obtain rfl := Option.some.inj heq
    · exact hs.known r hpost
    · exact hs.clean ht (hpost hne)
  · exact ⟨hs.own, fun r replayed heq => absurd heq (by simp), fun code heq => absurd heq (by simp)⟩

/-- What a session has applied is its own command. -/
theorem own_of_holds (h : Sessions.Holds (claims adapter hash namespace_ told) (follow Content adapter)
      (fun _ => Answered) (Inv adapter hash namespace_ start) g) {n : ℕ} {c : Mutation}
    (hn : (g.sessions n).command = some c) : ∀ a ∈ g.world.applied, a.session = n → a.IsOf c := by
  have hclaim := h.claims n
  cases hsession : g.sessions n with
  | idle =>
    rw [hsession] at hn
    exact absurd hn (by simp [Session.command])
  | running c' p =>
    rw [hsession] at hn hclaim
    obtain rfl := Option.some.inj hn
    obtain ⟨s, hs, -⟩ := hclaim
    exact hs.own
  | ended c' out =>
    rw [hsession] at hn hclaim
    obtain rfl := Option.some.inj hn
    exact hclaim.own

/-- **Mutations take effect at most once, and are answered for what they
did.** In every run, with whatever statements raise and whatever commits
that fail have taken effect: each identity is applied at most once, and the
content and the rows are what the applications make them; a success gives
the result of the application; a command whose identity was applied under
another fingerprint changes nothing. And in every run where no observation
misses what its own mutation has done, which with SQLite is every run, a
failure that is not uncertain has had no effect. -/
theorem mutation_at_most_once (hg : (mutations adapter hash namespace_ start).Reachable g) :
    ((g.world.applied.map (·.identity)).Nodup ∧
      g.world.content = g.world.applied.foldl (fun x a => a.change x) start ∧
      ∀ x row, g.world.replays x = some row ↔ ∃ a ∈ g.world.applied, a.identity = x ∧ a.replay = row) ∧
    (∀ n c r replayed, g.sessions n = .ended c (some (.success r replayed)) →
      ∃ a ∈ g.world.applied, a.IsOf c ∧ a.replay.resultJson = r) ∧
    (∀ n c, (g.sessions n).command = some c → ∀ a ∈ g.world.applied, a.identity = c.identity →
      ¬ a.replay.IsOf c → ∀ b ∈ g.world.applied, b.session ≠ n) ∧
    ((adapter = .postgresql → (mutations adapter hash namespace_ start).ReachableUnder
        (Sessions.Calls (Told adapter)) g) →
      ∀ n c code, g.sessions n = .ended c (some (.failure code)) → code ≠ .operationUncertain →
        ∀ a ∈ g.world.applied, a.session ≠ n) := by
  have hall := @mutations_hold Content adapter hash namespace_ start False g
    (hg.mono fun s l _ => (Sessions.calls_true s l).mono fun _ _ _ _ ht => ht.elim)
  refine ⟨⟨hall.world.once, hall.world.content, hall.world.replays⟩, fun n c r replayed hn => ?_,
    fun n c hn a ha hid hother b hb hbn => ?_, fun htold n c code hn => ?_⟩
  · have hclaim := hall.claims n
    rw [hn] at hclaim
    exact hclaim.success r replayed rfl
  · -- an application of the session would be the identity's one application
    obtain ⟨hbid, hbof⟩ := own_of_holds hall hn b hb hbn
    have hab : a = b := List.inj_on_of_nodup_map hall.world.once ha hb (hid.trans hbid.symm)
    exact hother (hab ▸ hbof)
  · have hunder : (mutations adapter hash namespace_ start).ReachableUnder
        (Sessions.Calls fun w e r => True → Told adapter w e r) g := by
      by_cases hadapter : adapter = .postgresql
      · exact (htold hadapter).mono fun s l hl => hl.mono fun w e r h _ => h
      · refine hg.mono fun s l _ => (Sessions.calls_true s l).mono fun w e r _ _ => ?_
        cases e with
        | observe c => exact fun h => absurd h hadapter
        | _ => exact trivial
    have hclaim := (mutations_hold hunder).claims n
    rw [hn] at hclaim
    exact hclaim.failure code rfl trivial

/-! ## A mutation of which PostgreSQL does not say what it did -/

namespace Missed

/-- A create, in a store that counts its records. -/
def create : Mutation := ⟨⟨"alice", "first"⟩, .createRecord, "create note", fun _ => true⟩

def staged : Staged ℕ := ⟨(· + 1), "note"⟩

def empty (fence : FenceState) : World ℕ := ⟨0, fun _ => none, fence, fun _ => .over, []⟩

def key : ℤ := lockKey (fun _ => 0) "notes" create.identity

/-- The store under the first attempt. -/
def attempted : World ℕ := ((empty .open_).move 0 (.open_ none)).move 0 (.open_ (some key))

/-- The store once its commit has taken effect. -/
def applied : World ℕ := attempted.commit 0 create (some staged)

/-- The same, and the fence is closed. -/
def closed : World ℕ := { applied with fence := .closed }

abbrev creates : System (Sessions (World ℕ) (E := Call ℕ) Call.Reply Mutation Outcome)
    (ℕ × Sessions.Event (E := Call ℕ) Call.Reply Mutation) :=
  mutations .postgresql (fun _ => 0) "notes" 0

theorem served {w w' : World ℕ} {e : Call ℕ} {r : e.Reply}
    (h : Serve .postgresql (fun _ => 0) "notes" 0 w e r w') : Serves .postgresql (fun _ => 0) "notes" 0 w e r w' :=
  ⟨w, ⟨rfl, rfl, rfl, fun _ => .inl rfl, fun h => absurd h (by decide)⟩, h⟩

/-- The commit takes effect. Where it returns, so does the session; where
it does not, the observation fails and the second attempt finds the fence
closed. -/
theorem runs : (∃ g, creates.Reachable g ∧ g.world = applied ∧
      g.sessions 0 = .ended create (some (.success "note" false))) ∧
    ∃ g, creates.Reachable g ∧ g.world = closed ∧
      g.sessions 0 = .ended create (some (.failure .writeAdmissionClosed)) := by
  have h₀ : Sessions.At creates 0 create (mutate .postgresql create) (empty .open_) :=
    Sessions.at_start ⟨rfl, rfl, fun _ => rfl, fun _ => rfl⟩
  have h₁ := h₀.call rfl (served (.begins fun h => absurd h (by decide)))
  have h₂ := h₁.call rfl (served (.fenceRead (by rw [move_self]; simp)))
  have h₃ := h₂.call rfl (served (.locked (by rw [move_self]; simp) fun m hm => by
    rw [move_of_ne hm]
    simp [empty]))
  have h₄ := h₃.call rfl (served (.rowRead (by rw [move_self]; simp)))
  have h₅ := h₄.call rfl (served (.operated (.ok staged) (by rw [move_self]; simp)))
  have hopen : attempted.txns 0 ≠ .over := by
    rw [attempted, move_self]
    simp
  refine ⟨(h₅.call rfl (served (.committed true hopen))).finish, ?_⟩
  have h₆ := h₅.call rfl (served (.committed false hopen))
  have h₇ := h₆.call rfl (served (.observeRaises .unavailable))
  have h₈ := h₇.call rfl (served (.begins fun h => absurd h (by decide)))
  have hclosing : Meanwhile .postgresql (applied.move 0 (.open_ none))
      { applied.move 0 (.open_ none) with fence := .closed } :=
    ⟨rfl, rfl, rfl, fun _ => .inl rfl, fun h => absurd h (by decide)⟩
  have h₉ := h₈.call rfl ⟨_, hclosing, .fenceRead (by
    change (applied.move 0 (.open_ none)).txns 0 ≠ .over
    rw [move_self]
    simp)⟩
  have h₁₀ := h₉.call rfl (served .rolledBack)
  obtain ⟨g, hg, hworld, hended⟩ := h₁₀.finish
  refine ⟨g, hg, hworld.trans ?_, hended⟩
  simp [World.move, closed, applied, World.commit]

end Missed

open Missed in
/-- The create that is answered, and its one application. -/
theorem mutation_at_most_once_create : ∃ g, creates.Reachable g ∧
    g.sessions 0 = .ended create (some (.success "note" false)) ∧ g.world.content = 1 ∧
      ∃ a ∈ g.world.applied, a.IsOf create ∧ a.replay.resultJson = "note" := by
  obtain ⟨g, hg, hworld, hended⟩ := runs.1
  refine ⟨g, hg, hended, by rw [hworld]; rfl, ?_⟩
  exact (mutation_at_most_once hg).2.1 0 create "note" false hended

open Missed in
/-- The create is answered as refused, and has taken effect. -/
theorem refused_after_effect : ∃ g, creates.Reachable g ∧
    g.sessions 0 = .ended create (some (.failure .writeAdmissionClosed)) ∧
      ∃ a ∈ g.world.applied, a.session = 0 := by
  obtain ⟨g, hg, hworld, hended⟩ := runs.2
  refine ⟨g, hg, hended, ?_⟩
  rw [hworld]
  exact ⟨_, List.mem_singleton_self _, rfl⟩

end Mutating

end Store

end Aipcs
