import Aipcs.Coordinator.Run
import Aipcs.Registry.Effects

/-!
# Coordinator — fence and status agree

A transition moves the fence first and the status afterwards, in two
stores. What keeps the two together is the claim between: while it is
prepared no other operation of the service is admitted. `Inv` says what
each run may rely on as long as its claim is prepared, and `Prompt` is
the condition it needs: a run moves a fence only while its own claim is
still prepared. The code does not see to that, since a run whose claim a
twin has finished goes on to move the fence; `stalled_twin_disagrees` is
such a run.
-/

namespace Aipcs

namespace Coordinator

open Registry Store Database

variable {id : Uuid} {g : Shared} {d d' : Database} {command : RegistryAuthorityCommand}

/-- The claim of the command is recorded and prepared. -/
def Prepared (d : Database) (command : RegistryAuthorityCommand) : Prop :=
  d.claimRow command.key = some (.authority command .prepared)

/-- **A run moves a fence only while its own claim is prepared.** -/
def Prompt (w : World) (l : ℕ × Event) : Prop :=
  ∀ c s target observed fate found result, w.runs l.1 = .changing c s target observed →
    l.2 = .transitionFence fate → fate.effective = true → w.stores s.serviceId = some found →
    transitionFence found observed target = some result → result.status = .applied →
    Prepared w.registry (.operational c)

/-! ## The invariant -/

/-- A claim that keeps a service from another operation. -/
def Blocking (d : Database) (s : Service) (k : PrincipalId × IdempotencyKey) (r : ClaimRow) : Prop :=
  d.claimRow k = some r ∧ blocks s.principalId s.serviceId r = true

/-- The claim of an admitted command is the command's, or a purge has made
a tombstone of it; the service is its principal's. -/
structure Known (d : Database) (command : RegistryAuthorityCommand) : Prop where
  claim : (∃ phase, d.claimRow command.key = some (.authority command phase)) ∨
    ∃ t, d.claimRow command.key = some (.tombstoned t)
  owner : ∀ s, d.services.find? command.serviceId = some s → s.principalId = command.principalId

/-- The service of a purge is held by its claim, or is gone. -/
def Condemned (d : Database) (c : PurgeCommand) : Prop :=
  (∃ phase, (phase = .prepared ∨ phase = .recoveryRequired) ∧
    d.claimRow (RegistryAuthorityCommand.purge c).key = some (.authority (.purge c) phase)) ∨
  d.services.find? c.serviceId = none

/-- The fence is where the command will leave the service, as long as the
claim is prepared. -/
def FenceMoved (id : Uuid) (g : Shared) (c : OperationalLifecycleCommand) : Prop :=
  c.serviceId = id → Prepared g.registry (.operational c) →
    ∀ s, g.registry.services.find? id = some s → s.designState = .materialised →
      ∃ fence, g.stores id = some fence ∧
        fence.state = targetFence (deterministicTargetStatus c.kind)

/-- What a run relies on where it stands. -/
def RunInv (id : Uuid) (g : Shared) : RunState → Prop
  | .outside => True
  | .observing c s target | .changing c s target _ | .rereading c s target =>
    Known g.registry (.operational c) ∧ s.serviceId = c.serviceId ∧
      target = targetFence (deterministicTargetStatus c.kind)
  | .finalizing c => Known g.registry (.operational c) ∧ FenceMoved id g c
  | .recovering command => Known g.registry command
  | .exportReading _ c _ | .exportSnapshot _ c _ _ | .exportEncoding _ c _
  | .exportVerifying _ c _ _ _ _ | .exportRechecking _ c _ _ _ | .exportCompleting c _ _ _ =>
    Known g.registry (.export_ c)
  | .purging c s | .removing c s | .checkingAbsent c s | .confirming c s =>
    Known g.registry (.purge c) ∧ s.serviceId = c.serviceId ∧ Condemned g.registry c
  | .finalizingPurge c => Known g.registry (.purge c)

/-- What the registry and the store of one service keep, whatever the runs do. -/
structure SharedInv (id : Uuid) (g : Shared) : Prop where
  alone : ∀ s, g.registry.services.find? id = some s → ∀ k k' r r',
    Blocking g.registry s k r → Blocking g.registry s k' r' → k = k'
  agreement : ∀ s, g.registry.services.find? id = some s → s.designState = .materialised →
    (∀ k r, Blocking g.registry s k r → ∃ c, r = .authority (.export_ c) .prepared) →
    Agrees s (g.stores id)

structure Inv (id : Uuid) (w : World) : Prop where
  shared : SharedInv id w.toShared
  runs : ∀ run, RunInv id w.toShared (w.runs run)

/-- A prepared claim blocks the service of its command. -/
theorem Prepared.blocking {s : Service} (hp : Prepared d command) (hk : Known d command)
    (hs : d.services.find? command.serviceId = some s) :
    Blocking d s command.key (.authority command .prepared) :=
  ⟨hp, blocks_iff.mpr ⟨(hk.owner s hs).symm, (Table.key_of_find? hs).symm, rfl⟩⟩

/-- The stored command of an ended claim is the run's own. -/
theorem Known.prepared {phase : ClaimPhase AuthorityResult} (hk : Known d command)
    (h : Ends d d' command phase) : Prepared d command := by
  obtain ⟨stored, hstored⟩ := h.prepared
  rcases hk.claim with ⟨p, hp⟩ | ⟨t, ht⟩
  · rw [hstored] at hp
    obtain ⟨rfl, rfl⟩ := ClaimRow.authority.inj (Option.some.inj hp)
    exact hstored
  · rw [hstored] at ht
    exact absurd (Option.some.inj ht) (by simp)

/-! ## Ending a claim -/

section Ending

variable {phase : ClaimPhase AuthorityResult} (h : Ends d d' command phase)
  (hk : Known d command) (hphase : phase ≠ .prepared)
include h hk

/-- What is known of a command survives the end of any claim. -/
theorem Known.ends {other : RegistryAuthorityCommand} (ho : Known d other) : Known d' other := by
  refine ⟨?_, fun u hu => ?_⟩
  · by_cases hkey : other.key = command.key
    · have hown := hk.prepared h
      rw [Prepared, ← hkey] at hown
      rcases ho.claim with ⟨p, hp⟩ | ⟨t, ht⟩
      · rw [hown] at hp
        obtain ⟨rfl, -⟩ := ClaimRow.authority.inj (Option.some.inj hp)
        exact .inl ⟨phase, h.ended⟩
      · rw [hown] at ht
        exact absurd (Option.some.inj ht) (by simp)
    · rcases h.others _ hkey with heq | ⟨r, t, -, -, -, ht⟩
      · rw [heq]
        exact ho.claim
      · exact .inr ⟨t, ht⟩
  · by_cases hid : other.serviceId = command.serviceId
    · rw [hid] at hu
      obtain ⟨s, hs, hprin, -⟩ := h.service u hu
      rw [hprin]
      exact ho.owner s (by rw [hid]; exact hs)
    · rw [h.elsewhere _ hid] at hu
      exact ho.owner u hu

omit hk in
include hphase in
/-- A claim prepared after the end of another was prepared before. -/
theorem Prepared.before_ends {other : RegistryAuthorityCommand} (hp : Prepared d' other) :
    Prepared d other ∧ other.key ≠ command.key := by
  by_cases hkey : other.key = command.key
  · rw [Prepared, hkey, h.ended] at hp
    exact absurd (ClaimRow.authority.inj (Option.some.inj hp)).2 hphase
  · refine ⟨?_, hkey⟩
    rcases h.others _ hkey with heq | ⟨r, t, -, -, -, ht⟩
    · rw [Prepared, ← heq]
      exact hp
    · rw [Prepared, ht] at hp
      exact absurd (Option.some.inj hp) (by simp)

/-- A claim that blocks a service afterwards has its key's claim block it before. -/
theorem Blocking.before_ends {s u : Service} (hprin : u.principalId = s.principalId)
    (hid : u.serviceId = s.serviceId) {k : PrincipalId × IdempotencyKey} {r : ClaimRow}
    (hb : Blocking d' u k r) : ∃ r₀, Blocking d s k r₀ := by
  obtain ⟨hrow, hblocks⟩ := hb
  rw [hprin, hid] at hblocks
  by_cases hkey : k = command.key
  · subst hkey
    rw [h.ended] at hrow
    obtain rfl := Option.some.inj hrow
    refine ⟨_, hk.prepared h, ?_⟩
    rw [blocks_iff] at hblocks ⊢
    exact ⟨hblocks.1, hblocks.2.1, rfl⟩
  · rcases h.others _ hkey with heq | ⟨r₀, t, -, -, -, ht⟩
    · exact ⟨r, by rw [← heq]; exact hrow, hblocks⟩
    · rw [ht] at hrow
      obtain rfl := Option.some.inj hrow
      exact absurd (blocks_iff.mp hblocks).2.2 (by simp [ClaimRow.pending])

/-- The claims of other services are as they were. -/
theorem Blocking.after_ends {s : Service} (hid : s.serviceId ≠ command.serviceId)
    {k : PrincipalId × IdempotencyKey} {r : ClaimRow} (hb : Blocking d s k r) :
    Blocking d' s k r := by
  obtain ⟨hrow, hblocks⟩ := hb
  have hrid : r.serviceId = s.serviceId := (blocks_iff.mp hblocks).2.1
  refine ⟨?_, hblocks⟩
  by_cases hkey : k = command.key
  · have hown := hk.prepared h
    rw [Prepared, ← hkey, hrow] at hown
    obtain rfl := Option.some.inj hown
    exact absurd hrid.symm hid
  · rcases h.others _ hkey with heq | ⟨r₀, t, hr₀, -, hr₀id, -⟩
    · rw [heq]
      exact hrow
    · rw [hrow] at hr₀
      obtain rfl := Option.some.inj hr₀
      exact absurd (hrid.symm.trans hr₀id) hid

/-- **Ending a claim keeps the shared invariant**, if a claim that is
completed leaves its service in agreement. -/
theorem SharedInv.ends {stores : Uuid → Option WriteAdmissionFence}
    (hI : SharedInv id ⟨d, stores⟩)
    (hdone : phase ≠ .recoveryRequired → command.serviceId = id →
      ∀ u, d'.services.find? id = some u → u.designState = .materialised → Agrees u (stores id)) :
    SharedInv id ⟨d', stores⟩ := by
  refine ⟨fun u hu k k' r r' hb hb' => ?_, fun u hu hmat hexports => ?_⟩
  · by_cases hid : command.serviceId = id
    · subst hid
      obtain ⟨s, hs, hprin, -⟩ := h.service u hu
      have hsame : u.serviceId = s.serviceId :=
        (Table.key_of_find? hu).trans (Table.key_of_find? hs).symm
      obtain ⟨r₀, hb₀⟩ := hb.before_ends h hk hprin hsame
      obtain ⟨r₀', hb₀'⟩ := hb'.before_ends h hk hprin hsame
      exact hI.alone s hs k k' r₀ r₀' hb₀ hb₀'
    · have hs := h.elsewhere id (Ne.symm hid)
      obtain ⟨r₀, hb₀⟩ := hb.before_ends h hk rfl rfl
      obtain ⟨r₀', hb₀'⟩ := hb'.before_ends h hk rfl rfl
      exact hI.alone u (hs ▸ hu) k k' r₀ r₀' hb₀ hb₀'
  · by_cases hid : command.serviceId = id
    · by_cases hrec : phase = .recoveryRequired
      -- the claim itself blocks the service, and it is no prepared export
      · subst hid hrec
        have howner := (hk.ends h hk).owner u hu
        obtain ⟨c, hc⟩ := hexports command.key _ ⟨h.ended, blocks_iff.mpr
          ⟨howner.symm, (Table.key_of_find? hu).symm, rfl⟩⟩
        exact absurd (ClaimRow.authority.inj hc).2 (by simp)
      · exact hdone hrec hid u hu hmat
    · have hs := h.elsewhere id (Ne.symm hid)
      refine hI.agreement u (hs ▸ hu) hmat fun k r hb => hexports k r (hb.after_ends h hk ?_)
      rw [Table.key_of_find? hu]
      exact Ne.symm hid

include hphase in
/-- **Ending a claim keeps what the other runs rely on.** -/
theorem RunInv.ends {stores : Uuid → Option WriteAdmissionFence}
    (hI : SharedInv id ⟨d, stores⟩)
    (hgone : ∀ c, command = .purge c → phase ≠ .recoveryRequired →
      d'.services.find? c.serviceId = none)
    {r : RunState} (hr : RunInv id ⟨d, stores⟩ r) : RunInv id ⟨d', stores⟩ r := by
  have hcond : ∀ {c : PurgeCommand}, Condemned d c → Condemned d' c := fun {c} hc => by
    rcases hc with ⟨p, hp, hrow⟩ | hnone
    · by_cases hkey : (RegistryAuthorityCommand.purge c).key = command.key
      · have hown := hk.prepared h
        rw [Prepared, ← hkey, hrow] at hown
        obtain ⟨rfl, -⟩ := ClaimRow.authority.inj (Option.some.inj hown)
        by_cases hrec : phase = .recoveryRequired
        · exact .inl ⟨phase, .inr hrec, h.ended⟩
        · exact .inr (hgone c rfl hrec)
      · rcases h.others _ hkey with heq | ⟨r₀, t, hr₀, hkind, -, -⟩
        · exact .inl ⟨p, hp, by rw [heq]; exact hrow⟩
        · rw [hrow] at hr₀
          obtain rfl := Option.some.inj hr₀
          exact absurd rfl hkind
    · refine .inr ?_
      by_cases hid : c.serviceId = command.serviceId
      · rw [Option.eq_none_iff_forall_ne_some]
        intro u hu
        rw [hid] at hu hnone
        obtain ⟨s, hs, -⟩ := h.service u hu
        exact absurd (hnone.symm.trans hs) (by simp)
      · rw [h.elsewhere _ hid]
        exact hnone
  cases r with
  | outside => trivial
  | observing c s t => exact ⟨Known.ends h hk hr.1, hr.2⟩
  | changing c s t o => exact ⟨Known.ends h hk hr.1, hr.2⟩
  | rereading c s t => exact ⟨Known.ends h hk hr.1, hr.2⟩
  | finalizing c =>
    refine ⟨Known.ends h hk hr.1, fun hid hp u hu hmat => ?_⟩
    obtain ⟨hbefore, hkey⟩ := hp.before_ends h hphase
    by_cases hcid : command.serviceId = id
    -- both claims would be pending for one service
    · subst hcid
      obtain ⟨s, hs, -, -⟩ := h.service u hu
      have hown := (hk.prepared h).blocking hk hs
      have hother := hbefore.blocking hr.1 (s := s) (by
        change d.services.find? c.serviceId = some s
        rw [hid]
        exact hs)
      exact absurd (hI.alone s hs _ _ _ _ hother hown) hkey
    · have hs := h.elsewhere id (Ne.symm hcid)
      exact hr.2 hid hbefore u (hs ▸ hu) hmat
  | recovering c => exact Known.ends h hk hr
  | exportReading _ c _ => exact Known.ends h hk hr
  | exportSnapshot _ c _ _ => exact Known.ends h hk hr
  | exportEncoding _ c _ => exact Known.ends h hk hr
  | exportVerifying _ c _ _ _ _ => exact Known.ends h hk hr
  | exportRechecking _ c _ _ _ => exact Known.ends h hk hr
  | exportCompleting c _ _ _ => exact Known.ends h hk hr
  | purging c s => exact ⟨Known.ends h hk hr.1, hr.2.1, hcond hr.2.2⟩
  | removing c s => exact ⟨Known.ends h hk hr.1, hr.2.1, hcond hr.2.2⟩
  | checkingAbsent c s => exact ⟨Known.ends h hk hr.1, hr.2.1, hcond hr.2.2⟩
  | confirming c s => exact ⟨Known.ends h hk hr.1, hr.2.1, hcond hr.2.2⟩
  | finalizingPurge c => exact Known.ends h hk hr

end Ending

/-! ## One step -/

variable {w : World} {run : ℕ} {state : RunState}

/-- A step of one run: the shared state keeps its invariant, the other
runs keep what they rely on, and the run has what it needs next. -/
theorem Inv.update {g' : Shared} (hI : Inv id w) (hs : SharedInv id g')
    (hr : ∀ r, RunInv id w.toShared r → RunInv id g' r) (hnew : RunInv id g' state) :
    Inv id { g' with runs := Function.update w.runs run state } := by
  refine ⟨hs, fun other => ?_⟩
  change RunInv id g' (Function.update w.runs run state other)
  by_cases heq : other = run
  · rw [heq, Function.update_self]
    exact hnew
  · rw [Function.update_of_ne heq]
    exact hr _ (hI.runs other)

/-- A step that leaves the registry and the stores. -/
theorem Inv.move (hI : Inv id w) (hnew : RunInv id w.toShared state) :
    Inv id { w.toShared with runs := Function.update w.runs run state } :=
  hI.update hI.shared (fun _ hr => hr) hnew

/-- A terminal transaction commits or leaves the registry. -/
theorem terminal_cases (g : Shared) (operation : Option (AuthorityOutcome × Database)) (fate : Fate) :
    terminal g operation fate = g ∨
      ∃ outcome ended, operation = some (outcome, ended) ∧
        terminal g operation fate = { g with registry := ended } := by
  match operation with
  | none => exact .inl rfl
  | some (outcome, ended) =>
    by_cases hc : (committed outcome && fate.effective) = true
    · exact .inr ⟨outcome, ended, rfl, if_pos hc⟩
    · exact .inl (if_neg hc)

/-- **A run that ends its claim** keeps the invariant: the registry is
left, or one claim is ended as `Ends` says. -/
theorem Inv.terminal (hI : Inv id w) (hk : Known w.registry command)
    {operation : Option (AuthorityOutcome × Database)} {fate : Fate}
    (hop : ∀ outcome d', operation = some (outcome, d') → d' = w.registry ∨
      ∃ phase, phase ≠ .prepared ∧ Ends w.registry d' command phase ∧
        (phase ≠ .recoveryRequired → command.serviceId = id →
          ∀ u, d'.services.find? id = some u → u.designState = .materialised →
            Agrees u (w.stores id)) ∧
        (∀ c, command = .purge c → phase ≠ .recoveryRequired →
          d'.services.find? c.serviceId = none)) :
    Inv id { Coordinator.terminal w.toShared operation fate with
      runs := Function.update w.runs run .outside } := by
  rcases terminal_cases w.toShared operation fate with heq | ⟨outcome, d', hsome, heq⟩
  · rw [heq]
    exact hI.move trivial
  · rw [heq]
    rcases hop outcome d' hsome with rfl | ⟨phase, hphase, hends, hdone, hgone⟩
    · exact hI.move trivial
    · exact hI.update (hI.shared.ends hends hk hdone)
        (fun r hr => RunInv.ends hends hk hphase hI.shared hgone hr) trivial

/-- The fence of the target status says whether the status is active. -/
theorem targetFence_open (status : OperationalStatus) :
    targetFence status = .open_ ↔ status = .active := by
  cases status <;> decide

theorem inv_finalizing {c : OperationalLifecycleCommand} {at_ : Instant} {fate : Fate}
    (hI : Inv id w) (hrun : RunInv id w.toShared (.finalizing c)) :
    Inv id { Coordinator.terminal w.toShared (w.registry.finalizeOperational c at_) fate with
      runs := Function.update w.runs run .outside } := by
  obtain ⟨hk, hmoved⟩ := hrun
  refine hI.terminal hk fun outcome d' h => ?_
  rcases finalizeOperational_cases h with heq | ⟨phase, hphase, hends, hstatus⟩
  · exact .inl heq
  refine .inr ⟨phase, hphase, hends, fun hrec hid u hu hmat => ?_, fun c' hc' => absurd hc' (by simp)⟩
  -- the fence was moved while the claim was prepared, and the status follows it
  have hid' : c.serviceId = id := hid
  obtain ⟨s, hs, hprin, hdesign⟩ := hends.service u (by rw [hid]; exact hu)
  rw [hid] at hs
  obtain ⟨fence, hfence, hstate⟩ := hmoved hid' (hk.prepared hends) s hs (hdesign ▸ hmat)
  refine ⟨fence, hfence, ?_⟩
  rcases hstatus with hrec' | hstatus
  · exact absurd hrec' hrec
  · rw [hstate, targetFence_open, hstatus u (by rw [hid']; exact hu)]

theorem inv_recovering {fate : Fate} (hI : Inv id w)
    (hk : RunInv id w.toShared (.recovering command)) :
    Inv id { Coordinator.terminal w.toShared (w.registry.markRecoveryRequired command) fate with
      runs := Function.update w.runs run .outside } := by
  refine hI.terminal hk fun outcome d' h => ?_
  rcases markRecoveryRequired_cases h with heq | hends
  · exact .inl heq
  · exact .inr ⟨.recoveryRequired, by simp, hends, fun hrec => absurd rfl hrec,
      fun _ _ hrec => absurd rfl hrec⟩

theorem inv_exportCompleting {c : ExportCommand} {s : Service} {root : Root} {at_ : Instant}
    {r : TransferReceipt} {fate : Fate} (hI : Inv id w)
    (hk : RunInv id w.toShared (.exportCompleting c s root at_)) :
    Inv id { Coordinator.terminal w.toShared (w.registry.completeExport c r) fate with
      runs := Function.update w.runs run .outside } := by
  refine hI.terminal hk fun outcome d' h => ?_
  rcases completeExport_cases h with heq | ⟨phase, hphase, hends, hsame⟩
  · exact .inl heq
  refine .inr ⟨phase, hphase, hends, fun _ hid u hu hmat => ?_, fun c' hc' => absurd hc' (by simp)⟩
  -- until now the export was all that kept the service, so it agreed already
  rw [hsame] at hu
  refine hI.shared.agreement u hu hmat fun k row hb => ⟨c, ?_⟩
  have hown := (Known.prepared hk hends).blocking hk (s := u) (by rw [hid]; exact hu)
  have hkey := hI.shared.alone u hu _ _ _ _ hb hown
  rw [hkey] at hb
  exact Option.some.inj (hb.1.symm.trans hown.1)

theorem inv_finalizingPurge {c : PurgeCommand} {at_ : Instant} {fate : Fate} (hI : Inv id w)
    (hk : RunInv id w.toShared (.finalizingPurge c)) :
    Inv id { Coordinator.terminal w.toShared (w.registry.finalizePurge c at_) fate with
      runs := Function.update w.runs run .outside } := by
  refine hI.terminal hk fun outcome d' h => ?_
  rcases finalizePurge_cases h with heq | ⟨phase, hphase, hends, hgone⟩
  · exact .inl heq
  have hnone : phase ≠ .recoveryRequired → d'.services.find? c.serviceId = none := fun hrec =>
    hgone.resolve_left hrec
  refine .inr ⟨phase, hphase, hends, fun hrec hid u hu _ => ?_, fun c' hc' hrec => ?_⟩
  · rw [← hid] at hu
    exact absurd ((hnone hrec).symm.trans hu) (by simp)
  · obtain rfl := RegistryAuthorityCommand.purge.inj hc'
    exact hnone hrec

/-! ## Admission -/

/-- **A claim recorded for a service nothing blocks** keeps the shared
invariant, and every run keeps what it relies on. -/
theorem SharedInv.insert {stores : Uuid → Option WriteAdmissionFence} {s : Service}
    (hI : SharedInv id ⟨d, stores⟩)
    (h : d.insertClaim (.authority command .prepared) = some d')
    (hs : d.service command.principalId command.serviceId = some s)
    (hfree : d.authorityBlocker command.principalId command.serviceId = none) :
    SharedInv id ⟨d', stores⟩ ∧ ∀ r, RunInv id ⟨d, stores⟩ r → RunInv id ⟨d', stores⟩ r := by
  obtain ⟨hnew, hself, hother, hservices⟩ := insertClaim_eq_some h
  obtain ⟨hfind, hprin⟩ := service_eq_some.mp hs
  have hnone : command.serviceId = id → ∀ u, d'.services.find? id = some u →
      ∀ k r, ¬ Blocking d u k r := fun hid u hu k r hb => by
    rw [hservices, ← hid, hfind] at hu
    obtain rfl := Option.some.inj hu
    have hblocks := hb.2
    rw [hprin, Table.key_of_find? hfind, authorityBlocker_eq_none hfree hb.1] at hblocks
    exact absurd hblocks (by simp)
  have hold : ∀ u k r, Blocking d' u k r → k ≠ command.key → Blocking d u k r :=
    fun u k r hb hk => ⟨by rw [← hother k hk]; exact hb.1, hb.2⟩
  have hforeign : command.serviceId ≠ id → ∀ u, d'.services.find? id = some u →
      ∀ k r, Blocking d' u k r → k ≠ command.key := fun hid u hu k r hb hk => by
    have hrow := hb.1
    rw [hk] at hrow
    obtain rfl := Option.some.inj (hself.symm.trans hrow)
    exact hid ((blocks_iff.mp hb.2).2.1.trans (Table.key_of_find? hu))
  refine ⟨⟨fun u hu k k' r r' hb hb' => ?_, fun u hu hmat hexports => ?_⟩, fun r hr => ?_⟩
  · by_cases hid : command.serviceId = id
    -- only the new claim blocks the service
    · have hkey : ∀ k r, Blocking d' u k r → k = command.key := fun k r hb =>
        by_contra fun hk => hnone hid u hu k r (hold u k r hb hk)
      rw [hkey k r hb, hkey k' r' hb']
    · exact hI.alone u (hservices ▸ hu) k k' r r' (hold u k r hb (hforeign hid u hu k r hb))
        (hold u k' r' hb' (hforeign hid u hu k' r' hb'))
  · refine hI.agreement u (hservices ▸ hu) hmat fun k r hb => ?_
    have hk : k ≠ command.key := fun hk => by
      have hrow := hb.1
      rw [hk] at hrow
      exact absurd (hnew.symm.trans hrow) (by simp)
    exact hexports k r ⟨by rw [hother k hk]; exact hb.1, hb.2⟩
  · have hne : ∀ {c : RegistryAuthorityCommand}, Known d c → c.key ≠ command.key :=
      fun {c} hc hk => by
        have hnone : d.claimRow command.key = none := hnew
        rcases hc.claim with ⟨p, hp⟩ | ⟨t, ht⟩
        · rw [hk, hnone] at hp
          exact absurd hp (by simp)
        · rw [hk, hnone] at ht
          exact absurd ht (by simp)
    have hknown : ∀ {c : RegistryAuthorityCommand}, Known d c → Known d' c := fun {c} hc =>
      ⟨by rw [hother c.key (hne hc)]; exact hc.claim, by rw [hservices]; exact hc.owner⟩
    have hcond : ∀ {c : PurgeCommand}, Known d (.purge c) → Condemned d c → Condemned d' c :=
      fun {c} hc hcond => by
        rw [Condemned, hother _ (hne hc), hservices]
        exact hcond
    cases r with
    | outside => trivial
    | observing c s t => exact ⟨hknown hr.1, hr.2⟩
    | changing c s t o => exact ⟨hknown hr.1, hr.2⟩
    | rereading c s t => exact ⟨hknown hr.1, hr.2⟩
    | finalizing c =>
      refine ⟨hknown hr.1, fun hid hp u hu hmat => hr.2 hid ?_ u (hservices ▸ hu) hmat⟩
      exact (hother _ (hne hr.1)).symm.trans hp
    | recovering c => exact hknown hr
    | exportReading _ c _ => exact hknown hr
    | exportSnapshot _ c _ _ => exact hknown hr
    | exportEncoding _ c _ => exact hknown hr
    | exportVerifying _ c _ _ _ _ => exact hknown hr
    | exportRechecking _ c _ _ _ => exact hknown hr
    | exportCompleting c _ _ _ => exact hknown hr
    | purging c s => exact ⟨hknown hr.1, hr.2.1, hcond hr.1 hr.2.2⟩
    | removing c s => exact ⟨hknown hr.1, hr.2.1, hcond hr.1 hr.2.2⟩
    | checkingAbsent c s => exact ⟨hknown hr.1, hr.2.1, hcond hr.1 hr.2.2⟩
    | confirming c s => exact ⟨hknown hr.1, hr.2.1, hcond hr.1 hr.2.2⟩
    | finalizingPurge c => exact hknown hr

/-- An admitted command has a prepared claim, and its service is the one
the registry holds; admission replays the claim or records it. -/
theorem admitted_cases {request c : RegistryAuthorityCommand} {now : Instant} {s : Service}
    (hkind : request.kind ≠ .import_) (h : admitted d request now = some (c, s, d')) :
    Prepared d' c ∧ c.kind = request.kind ∧ d'.service c.principalId c.serviceId = some s ∧
      (d' = d ∨ ∃ u, d.insertClaim (.authority c .prepared) = some d' ∧
        d.service c.principalId c.serviceId = some u ∧
        d.authorityBlocker c.principalId c.serviceId = none) := by
  unfold admitted at h
  split at h
  · rename_i c' prepared hres
    obtain ⟨u, hu, heq⟩ := Option.map_eq_some_iff.mp h
    obtain ⟨rfl, hpair⟩ := Prod.mk.inj heq
    obtain ⟨rfl, rfl⟩ := Prod.mk.inj hpair
    rcases resolveOrPrepare_prepared hkind hres with
      ⟨rfl, hrow, hk⟩ | ⟨rfl, hins, v, hv, -, hfree⟩
    · refine ⟨?_, hk, hu, .inl rfl⟩
      have hkey : (ClaimRow.authority c' .prepared).key = request.key := Table.key_of_find? hrow
      rw [ClaimRow.key_authority] at hkey
      rw [Prepared, hkey]
      exact hrow
    · exact ⟨(insertClaim_eq_some hins).2.1, rfl, hu, .inr ⟨v, hins, hv, hfree⟩⟩
  · exact absurd h (by simp)

/-- The run of an admitted command has what it relies on. -/
theorem runInv_firstStep {backend : StorageBackend} {request c : RegistryAuthorityCommand}
    {s : Service} (hp : Prepared g.registry c) (hkind : c.kind = request.kind)
    (hs : g.registry.service c.principalId c.serviceId = some s) :
    RunInv id g (firstStep backend request c s) := by
  obtain ⟨hfind, hprin⟩ := service_eq_some.mp hs
  have hsid : s.serviceId = c.serviceId := Table.key_of_find? hfind
  have hk : Known g.registry c := ⟨.inl ⟨_, hp⟩, fun u hu => by
    rw [hfind] at hu
    rw [← Option.some.inj hu, hprin]⟩
  unfold firstStep
  split
  · rename_i r o
    have hro : r.kind = o.kind := by
      revert hkind
      change o.kind.operation = r.kind.operation → r.kind = o.kind
      cases r.kind <;> cases o.kind <;> simp [OperationalLifecycleKind.operation]
    split
    · exact hk
    · rename_i target htarget
      have ht := (transitionTargetStatus_eq_some htarget).2
      split
      -- a seeded service has no fence to move
      · rename_i hdesign
        refine ⟨hk, fun hid _ u hu hmat => absurd ?_ hdesign⟩
        rw [← hid] at hu
        rw [Option.some.inj (hfind.symm.trans hu)]
        exact hmat
      · split
        · exact hk
        · exact ⟨hk, hsid, by rw [ht, hro]⟩
  · split
    · exact hk
    · split
      · exact hk
      · exact hk
  · split
    · exact hk
    · split
      · exact hk
      · exact ⟨hk, hsid, .inl ⟨.prepared, .inl rfl, hp⟩⟩
  · trivial

/-! ## The stores -/

/-- A call on another service's store is not seen here. -/
theorem storeCall_elsewhere {g : Shared} {other : Uuid} {left : Option WriteAdmissionFence}
    {fate : Fate} (h : other ≠ id) : (storeCall g other left fate).stores id = g.stores id := by
  unfold storeCall
  split
  · exact Function.update_of_ne (Ne.symm h) _ _
  · rfl

theorem storeCall_registry {g : Shared} {other : Uuid} {left : Option WriteAdmissionFence}
    {fate : Fate} : (storeCall g other left fate).registry = g.registry := by
  unfold storeCall
  split <;> rfl

/-- Two states that a service cannot tell apart keep the same invariants. -/
theorem SharedInv.congr {g g' : Shared} (hI : SharedInv id g) (hd : g'.registry = g.registry)
    (hs : g'.stores id = g.stores id) : SharedInv id g' :=
  ⟨by rw [hd]; exact hI.alone, by rw [hd, hs]; exact hI.agreement⟩

theorem RunInv.congr {g g' : Shared} {r : RunState} (hr : RunInv id g r)
    (hd : g'.registry = g.registry) (hs : g'.stores id = g.stores id) : RunInv id g' r := by
  cases r with
  | finalizing c =>
    refine ⟨by rw [hd]; exact hr.1, ?_⟩
    rw [FenceMoved, hd, hs]
    exact hr.2
  | outside => trivial
  | _ =>
    simp only [RunInv, hd] at hr ⊢
    exact hr

/-- **A store call under a pending claim** that is no export: the shared
invariant holds whatever the call leaves, and so does what the runs of
that very claim rely on. -/
theorem SharedInv.storeCall {left : Option WriteAdmissionFence} {fate : Fate} {r : ClaimRow}
    (hI : SharedInv id g) (hr : ∀ c, r ≠ .authority (.export_ c) .prepared)
    (hb : ∀ s, g.registry.services.find? id = some s → ∃ k, Blocking g.registry s k r) :
    SharedInv id (storeCall g id left fate) := by
  refine ⟨by rw [storeCall_registry]; exact hI.alone, fun s hs _ hexports => ?_⟩
  rw [storeCall_registry] at hs hexports
  obtain ⟨k, hk⟩ := hb s hs
  obtain ⟨c, hc⟩ := hexports k r hk
  exact absurd hc (hr c)

theorem RunInv.storeCall {left : Option WriteAdmissionFence} {fate : Fate} {r : ClaimRow}
    (hI : SharedInv id g)
    (hb : ∀ s, g.registry.services.find? id = some s → ∃ k, Blocking g.registry s k r)
    (hleft : ∀ c, r = .authority (.operational c) .prepared → fate.effective = true →
      ∃ fence, left = some fence ∧ fence.state = targetFence (deterministicTargetStatus c.kind))
    {state : RunState} (hstate : RunInv id g state) : RunInv id (storeCall g id left fate) state := by
  by_cases heff : fate.effective = true
  · cases state with
    | finalizing c =>
      refine ⟨by rw [storeCall_registry]; exact hstate.1, fun hid hp s hs hmat => ?_⟩
      rw [storeCall_registry] at hp hs
      -- the claim of the run is the one under which the call is made
      obtain ⟨k, hk⟩ := hb s hs
      have hown := hp.blocking hstate.1 (s := s) (by
        change g.registry.services.find? c.serviceId = some s
        rw [hid]
        exact hs)
      have hkey := hI.alone s hs _ _ _ _ hk hown
      rw [hkey] at hk
      obtain ⟨fence, hfence, htarget⟩ :=
        hleft c (Option.some.inj (hk.1.symm.trans hown.1)) heff
      refine ⟨fence, ?_, htarget⟩
      rw [Coordinator.storeCall, if_pos heff]
      exact (Function.update_self _ _ _).trans hfence
    | outside => trivial
    | _ =>
      simp only [RunInv, storeCall_registry] at hstate ⊢
      exact hstate
  · rw [Coordinator.storeCall, if_neg heff]
    exact hstate

/-- **A prompt fence transition** keeps the invariant. -/
theorem inv_changing {c : OperationalLifecycleCommand} {s : Service} {target : FenceState}
    {observed found : WriteAdmissionFence} {result : FenceTransitionResult} {fate : Fate}
    (hI : Inv id w) (hrun : RunInv id w.toShared (.changing c s target observed))
    (hfound : w.stores s.serviceId = some found)
    (hres : transitionFence found observed target = some result)
    (hprompt : fate.effective = true → result.status = .applied →
      Prepared w.registry (.operational c)) :
    Inv id { storeCall w.toShared s.serviceId (some result.fence) fate with
      runs := Function.update w.runs run
        (if fate ≠ .done then .rereading c s target
        else if result.fence.state ≠ target then .recovering (.operational c)
        else .finalizing c) } := by
  obtain ⟨hk, hsid, htarget⟩ := hrun
  have hnew : RunInv id (storeCall w.toShared s.serviceId (some result.fence) fate)
      (if fate ≠ .done then .rereading c s target
        else if result.fence.state ≠ target then .recovering (.operational c)
        else .finalizing c) := by
    split
    · simp only [RunInv, storeCall_registry]
      exact ⟨hk, hsid, htarget⟩
    · rename_i hdone
      split
      · simp only [RunInv, storeCall_registry]
        exact hk
      · rename_i hstate
        refine ⟨by rw [storeCall_registry]; exact hk, fun hid _ _ _ _ => ⟨result.fence, ?_, ?_⟩⟩
        · rw [not_not.mp hdone, hsid, hid, storeCall, if_pos (by decide)]
          exact Function.update_self _ _ _
        · rw [not_not.mp hstate, htarget]
  by_cases hid : s.serviceId = id
  · subst hid
    rcases transitionFence_cases hres with ⟨hsame, -⟩ | ⟨happlied, -, -, hstate, -⟩
    -- the fence is left: nobody can tell
    · have hstores : (storeCall w.toShared s.serviceId (some result.fence) fate).stores
          s.serviceId = w.stores s.serviceId := by
        unfold storeCall
        split
        · dsimp only
          rw [Function.update_self, hsame, hfound]
        · rfl
      exact hI.update (hI.shared.congr storeCall_registry hstores)
        (fun r hr => hr.congr storeCall_registry hstores) hnew
    · by_cases heff : fate.effective = true
      · have hp := hprompt heff happlied
        have hb : ∀ u, w.registry.services.find? s.serviceId = some u →
            ∃ k, Blocking w.registry u k (.authority (.operational c) .prepared) := fun u hu =>
          ⟨_, hp.blocking hk (by rw [← hu, hsid]; rfl)⟩
        refine hI.update (hI.shared.storeCall (by simp) hb)
          (fun r hr => hr.storeCall hI.shared hb fun c' hc' _ => ⟨_, rfl, ?_⟩) hnew
        obtain rfl := RegistryAuthorityCommand.operational.inj (ClaimRow.authority.inj hc').1
        rw [hstate, htarget]
      · have hleft : storeCall w.toShared s.serviceId (some result.fence) fate = w.toShared :=
          if_neg heff
        rw [hleft] at hnew ⊢
        exact hI.move hnew
  · exact hI.update (hI.shared.congr storeCall_registry (storeCall_elsewhere hid))
      (fun r hr => hr.congr storeCall_registry (storeCall_elsewhere hid)) hnew

/-- Removing the store of a condemned service keeps the invariant. -/
theorem inv_removing {c : PurgeCommand} {s : Service} {fate : Fate} (hI : Inv id w)
    (hrun : RunInv id w.toShared (.removing c s)) :
    Inv id { storeCall w.toShared s.serviceId none fate with
      runs := Function.update w.runs run
        (if fate = .done then .confirming c s else .checkingAbsent c s) } := by
  obtain ⟨hk, hsid, hcond⟩ := hrun
  have hnew : RunInv id (storeCall w.toShared s.serviceId none fate)
      (if fate = .done then .confirming c s else .checkingAbsent c s) := by
    split <;> simp only [RunInv, storeCall_registry] <;> exact ⟨hk, hsid, hcond⟩
  by_cases hid : s.serviceId = id
  · subst hid
    rcases hcond with ⟨phase, hphase, hrow⟩ | hnone
    · have hb : ∀ u, w.registry.services.find? s.serviceId = some u →
          ∃ k, Blocking w.registry u k (.authority (.purge c) phase) := fun u hu => by
        refine ⟨_, hrow, blocks_iff.mpr ⟨?_, ?_, ?_⟩⟩
        · exact (hk.owner u (by rw [← hu, hsid]; rfl)).symm
        · exact hsid.symm.trans (Table.key_of_find? hu).symm
        · rcases hphase with rfl | rfl <;> rfl
      refine hI.update (hI.shared.storeCall (by simp) hb)
        (fun r hr => hr.storeCall hI.shared hb fun c' hc' _ => ?_) hnew
      exact absurd (ClaimRow.authority.inj hc').1 (by simp)
    · have hgone : ∀ u, w.registry.services.find? s.serviceId ≠ some u := fun u hu => by
        rw [hsid] at hu
        exact absurd (hnone.symm.trans hu) (by simp)
      have hb : ∀ u, w.registry.services.find? s.serviceId = some u →
          ∃ k, Blocking w.registry u k (.authority (.purge c) .prepared) := fun u hu =>
        absurd hu (hgone u)
      refine hI.update (hI.shared.storeCall (by simp) hb)
        (fun r hr => hr.storeCall hI.shared hb fun c' hc' _ => ?_) hnew
      exact absurd (ClaimRow.authority.inj hc').1 (by simp)
  · exact hI.update (hI.shared.congr storeCall_registry (storeCall_elsewhere hid))
      (fun r hr => hr.congr storeCall_registry (storeCall_elsewhere hid)) hnew

/-- A run is admitted, or not. -/
theorem inv_admission {backend : StorageBackend} {request c : RegistryAuthorityCommand}
    {now : Instant} {s : Service} (hI : Inv id w) (hkind : request.kind ≠ .import_)
    (h : admitted w.registry request now = some (c, s, d')) :
    Inv id { ({ registry := d', stores := w.stores } : Shared) with
        runs := Function.update w.runs run (firstStep backend request c s) } ∧
      Inv id { ({ registry := d', stores := w.stores } : Shared) with
        runs := Function.update w.runs run .outside } := by
  obtain ⟨hp, hk, hs, hcases⟩ := admitted_cases hkind h
  have hnew : RunInv id ⟨d', w.stores⟩ (firstStep backend request c s) :=
    runInv_firstStep hp hk hs
  rcases hcases with rfl | ⟨u, hins, hu, hfree⟩
  · exact ⟨hI.move hnew, hI.move trivial⟩
  · obtain ⟨hshared, hruns⟩ := SharedInv.insert hI.shared hins hu hfree
    exact ⟨hI.update hshared hruns hnew, hI.update hshared hruns trivial⟩

/-- **One step keeps the invariant.** -/
theorem inv_step {backend : StorageBackend} {e : Event} {w' : World} (hI : Inv id w)
    (hprompt : Prompt w (run, e)) (h : w.step backend run e = some w') : Inv id w' := by
  obtain ⟨⟨g', state⟩, hadv, rfl⟩ := Option.map_eq_some_iff.mp h
  have hrun := hI.runs run
  generalize hstate : w.runs run = now at hadv hrun
  unfold advance at hadv
  split at hadv
  -- crash
  · obtain ⟨rfl, rfl⟩ := Prod.mk.inj (Option.some.inj hadv)
    exact hI.move trivial
  -- admission
  · rename_i request at_ fate
    split at hadv
    · exact absurd hadv (by simp)
    rename_i hkind
    split at hadv
    · rename_i c s prepared hadm
      obtain ⟨hnext, hout⟩ := @inv_admission id _ w run backend request c _ s hI hkind hadm
      split at hadv
      · obtain ⟨rfl, rfl⟩ := Prod.mk.inj (Option.some.inj hadv)
        exact hnext
      · obtain ⟨rfl, rfl⟩ := Prod.mk.inj (Option.some.inj hadv)
        exact hout
      · obtain ⟨rfl, rfl⟩ := Prod.mk.inj (Option.some.inj hadv)
        exact hI.move trivial
    · obtain ⟨rfl, rfl⟩ := Prod.mk.inj (Option.some.inj hadv)
      exact hI.move trivial
  -- `transition`
  · split at hadv <;> obtain ⟨rfl, rfl⟩ := Prod.mk.inj (Option.some.inj hadv)
    · refine hI.move ?_
      split
      · exact hrun
      · trivial
    · exact hI.move trivial
  · rename_i c s target observed fate
    split at hadv <;> obtain ⟨rfl, rfl⟩ := Prod.mk.inj (Option.some.inj hadv)
    · rename_i result hres
      obtain ⟨found, hfound, hres⟩ := Option.bind_eq_some_iff.mp hres
      exact inv_changing hI hrun hfound hres fun heff happlied =>
        hprompt c s target observed fate found result hstate rfl heff hfound hres happlied
    · exact hI.move hrun
  · rename_i c s target returns
    split at hadv <;> obtain ⟨rfl, rfl⟩ := Prod.mk.inj (Option.some.inj hadv)
    · rename_i fence hfence
      refine hI.move ?_
      split
      -- the fence is where it should be, whoever has moved it
      · rename_i htarget
        simp only [Bool.and_eq_true, decide_eq_true_eq] at htarget
        refine ⟨hrun.1, fun hid _ _ _ _ => ⟨fence, ?_, htarget.2.trans hrun.2.2⟩⟩
        rw [← hid, ← hrun.2.1]
        exact hfence
      · trivial
    · exact hI.move trivial
  · obtain ⟨rfl, rfl⟩ := Prod.mk.inj (Option.some.inj hadv)
    exact inv_finalizing hI hrun
  · obtain ⟨rfl, rfl⟩ := Prod.mk.inj (Option.some.inj hadv)
    exact inv_recovering hI hrun
  -- `export`
  · split at hadv <;> obtain ⟨rfl, rfl⟩ := Prod.mk.inj (Option.some.inj hadv)
    · refine hI.move ?_
      split
      · trivial
      · split <;> exact hrun
    · exact hI.move trivial
  · split at hadv
    · obtain ⟨rfl, rfl⟩ := Prod.mk.inj (Option.some.inj hadv)
      exact hI.move trivial
    · split at hadv <;> obtain ⟨rfl, rfl⟩ := Prod.mk.inj (Option.some.inj hadv)
      · exact hI.move hrun
      · exact hI.move hrun
      · exact hI.move trivial
  · split at hadv <;> obtain ⟨rfl, rfl⟩ := Prod.mk.inj (Option.some.inj hadv)
    · exact hI.move hrun
    · exact hI.move hrun
    · exact hI.move trivial
  · split at hadv <;> obtain ⟨rfl, rfl⟩ := Prod.mk.inj (Option.some.inj hadv)
    · refine hI.move ?_
      split
      · trivial
      · split <;> exact hrun
    · exact hI.move trivial
  · split at hadv <;> obtain ⟨rfl, rfl⟩ := Prod.mk.inj (Option.some.inj hadv)
    · refine hI.move ?_
      split
      · trivial
      · split <;> exact hrun
    · exact hI.move trivial
  · split at hadv <;> obtain ⟨rfl, rfl⟩ := Prod.mk.inj (Option.some.inj hadv)
    · exact inv_exportCompleting hI hrun
    · exact hI.move hrun
  -- `purge`
  · split at hadv <;> obtain ⟨rfl, rfl⟩ := Prod.mk.inj (Option.some.inj hadv) <;>
      refine hI.move ?_ <;> split <;> exact hrun
  · obtain ⟨rfl, rfl⟩ := Prod.mk.inj (Option.some.inj hadv)
    exact inv_removing hI hrun
  · obtain ⟨rfl, rfl⟩ := Prod.mk.inj (Option.some.inj hadv)
    refine hI.move ?_
    split
    · exact hrun
    · trivial
  · obtain ⟨rfl, rfl⟩ := Prod.mk.inj (Option.some.inj hadv)
    refine hI.move ?_
    split
    · exact hrun.1
    · trivial
  · obtain ⟨rfl, rfl⟩ := Prod.mk.inj (Option.some.inj hadv)
    exact inv_finalizingPurge hI hrun
  · exact absurd hadv (by simp)

/-! ## Every run -/

/-- A settled service satisfies the invariant. -/
theorem inv_init (h : World.Initial id w) : Inv id w := by
  have hfree : ∀ s, w.registry.services.find? id = some s → ∀ k r, ¬ Blocking w.registry s k r :=
    fun s hs k r hb => by
      obtain ⟨-, hid, hpending⟩ := blocks_iff.mp hb.2
      rw [h.settled r (Table.mem_of_find? hb.1) (hid.trans (Table.key_of_find? hs))] at hpending
      exact absurd hpending (by simp)
  refine ⟨⟨fun s hs k k' r r' hb => absurd hb (hfree s hs k r), fun s hs hmat _ => ?_⟩, fun run => ?_⟩
  · exact h.agrees s (Table.mem_of_find? hs) (Table.key_of_find? hs) hmat
  · rw [h.outside]
    trivial

theorem inv_inductive (backend : StorageBackend) (id : Uuid) :
    (coordination backend id).Inductive Prompt (Inv id) where
  init _ h := inv_init h
  step _ _ _ hI hok h := inv_step hI hok h

/-- **Fence and status agree** in every state of every run whose steps are
prompt: a materialised service that no claim blocks has an open fence
exactly when it is active. -/
theorem fence_status_agreement (backend : StorageBackend) (id : Uuid) (w : World)
    (h : (coordination backend id).ReachableUnder Prompt w) (s : Service)
    (hs : w.registry.services.find? id = some s) (hmat : s.designState = .materialised)
    (hquiet : Quiet w.registry s) : Agrees s (w.stores id) := by
  refine ((inv_inductive backend id).reachable h).shared.agreement s hs hmat fun k r hb => ?_
  have hblocks := hb.2
  rw [hquiet r (Table.mem_of_find? hb.1)] at hblocks
  exact absurd hblocks (by simp)

/-! ## A stalled twin -/

namespace Twin

/-- A manifest of one entity without fields of its own. -/
def noteManifest : Manifest.ManifestV2 where
  schemaVersion := 1
  entities := [{ name := "note", attributes := Manifest.SERVER_MANAGED_FIELDS }]
  valid := by decide

def noteId : Uuid := ⟨17, by decide, by decide⟩

def carol : PrincipalId := ⟨"carol", by decide⟩

def dawn : Instant := default

theorem not_seeded : DesignState.materialised = .seeded → some StorageBackend.sqlite = none := by simp

/-- A materialised service. -/
def notes (status : OperationalStatus) (revision : ℕ)
    (h : 1 ≤ revision ∧ revision ≤ MAX_SERVICE_REVISION) : Service where
  serviceId := noteId
  principalId := carol
  domainName := "notes"
  domainClass := "notes"
  intentDescription := "notes"
  createdAt := dawn
  updatedAt := dawn
  lastActivityAt := dawn
  manifest := some noteManifest
  designState := .materialised
  operationalStatus := status
  serviceRevision := revision
  materialisedAt := some dawn
  storage := some .sqlite
  updated := Nat.le_refl _
  active := Nat.le_refl _
  revision := h
  paired := rfl
  during := by decide
  seeded := not_seeded
  complete := by simp

theorem revision2 : 1 ≤ 2 ∧ 2 ≤ MAX_SERVICE_REVISION := by decide

theorem revision3 : 1 ≤ 3 ∧ 3 ≤ MAX_SERVICE_REVISION := by decide

def active1 : Service := notes .active 1 first_revision
def suspended2 : Service := notes .suspended 2 revision2
def active3 : Service := notes .active 3 revision3

/-- A command of the principal, at a revision it expects. -/
def carols (kind : OperationalLifecycleKind) (revision : ExpectedRevision) (key : IdempotencyKey) :
    OperationalLifecycleCommand :=
  ⟨kind, carol, ⟨"twin", by decide⟩, noteId, revision, key⟩

theorem expected1 : 1 ≤ 1 ∧ 1 < MAX_SERVICE_REVISION := by decide

theorem expected2 : 1 ≤ 2 ∧ 2 < MAX_SERVICE_REVISION := by decide

def suspendNotes : OperationalLifecycleCommand := carols .suspend ⟨1, expected1⟩ ⟨"pause", by decide⟩

def resumeNotes : OperationalLifecycleCommand := carols .resume ⟨2, expected2⟩ ⟨"continue", by decide⟩

/-- The claims of the two commands, each with its phase. -/
def suspendClaim (phase : ClaimPhase AuthorityResult) : ClaimRow :=
  .authority (.operational suspendNotes) phase

def resumeClaim (phase : ClaimPhase AuthorityResult) : ClaimRow :=
  .authority (.operational resumeNotes) phase

def oneClaim (phase : ClaimPhase AuthorityResult) : Table ClaimRow.key :=
  ⟨[suspendClaim phase], List.nodup_singleton _⟩

theorem keys_differ : (suspendClaim .prepared).key ≠ (resumeClaim .prepared).key := by decide

def twoClaims (first second : ClaimPhase AuthorityResult) : Table ClaimRow.key where
  rows := [resumeClaim second, suspendClaim first]
  keyed := List.nodup_cons.mpr
    ⟨fun h => keys_differ (List.mem_singleton.mp h).symm, List.nodup_singleton _⟩

/-- The registry of one service. -/
def registry (s : Service) (claims : Table ClaimRow.key) : Database where
  services := .single s
  claims := claims
  identities := .single ⟨noteId, carol, .live "notes" (some .sqlite)⟩
  receipts := Table.empty

def fence1 : WriteAdmissionFence := INITIAL_FENCE
def fence2 : WriteAdmissionFence := ⟨2, .closed, by decide⟩
def fence3 : WriteAdmissionFence := ⟨3, .open_, by decide⟩
def fence4 : WriteAdmissionFence := ⟨4, .closed, by decide⟩

/-- The store of the service, and no other. -/
def noteStore (fence : WriteAdmissionFence) : Uuid → Option WriteAdmissionFence :=
  Function.update (fun _ => none) noteId (some fence)

theorem noteStore_self (fence : WriteAdmissionFence) : noteStore fence noteId = some fence :=
  Function.update_self _ _ _

def shared (s : Service) (claims : Table ClaimRow.key) (fence : WriteAdmissionFence) : Shared where
  registry := registry s claims
  stores := noteStore fence

/-- Two runs over the one service. -/
def world (g : Shared) (r₀ r₁ : RunState) : World :=
  { g with runs := fun n => match n with
    | 0 => r₀
    | 1 => r₁
    | _ => .outside }

theorem step_zero {g g' : Shared} {r₀ r₀' r₁ : RunState} {e : Event}
    (h : advance .sqlite g r₀ e = some (g', r₀')) :
    (world g r₀ r₁).step .sqlite 0 e = some (world g' r₀' r₁) := by
  unfold World.step
  rw [show advance .sqlite (world g r₀ r₁).toShared ((world g r₀ r₁).runs 0) e =
    some (g', r₀') from h, Option.map_some]
  congr 1
  simp only [world, World.mk.injEq, true_and]
  funext n
  match n with
  | 0 => rfl
  | 1 => rfl
  | _ + 2 => rfl

theorem step_one {g g' : Shared} {r₀ r₁ r₁' : RunState} {e : Event}
    (h : advance .sqlite g r₁ e = some (g', r₁')) :
    (world g r₀ r₁).step .sqlite 1 e = some (world g' r₀ r₁') := by
  unfold World.step
  rw [show advance .sqlite (world g r₀ r₁).toShared ((world g r₀ r₁).runs 1) e =
    some (g', r₁') from h, Option.map_some]
  congr 1
  simp only [world, World.mk.injEq, true_and]
  funext n
  match n with
  | 0 => rfl
  | 1 => rfl
  | _ + 2 => rfl

/-- A run moves the fence of the service. -/
theorem advance_changing {s : Service} {claims : Table ClaimRow.key}
    {c : OperationalLifecycleCommand} {t : Service} {target : FenceState}
    {fence moved : WriteAdmissionFence} (hid : t.serviceId = noteId)
    (h : transitionFence fence fence target = some ⟨.applied, moved⟩) (hstate : moved.state = target) :
    advance .sqlite (shared s claims fence) (.changing c t target fence) (.transitionFence .done) =
      some (shared s claims moved, .finalizing c) := by
  have hfound : (shared s claims fence).stores t.serviceId = some fence := by
    rw [hid]
    exact noteStore_self fence
  have hcall : storeCall (shared s claims fence) t.serviceId (some moved) .done =
      shared s claims moved := by
    rw [storeCall, if_pos (by decide), hid]
    simp only [shared, noteStore, Function.update_idem]
  rw [advance, hfound, Option.bind_some, h]
  dsimp only
  rw [hcall, if_neg (by simp), if_neg (by simp [hstate])]

theorem initial : (world (shared active1 Table.empty fence1) .outside .outside).Initial noteId where
  outside n := by
    match n with
    | 0 => rfl
    | 1 => rfl
    | _ + 2 => rfl
  settled r hr := absurd hr List.not_mem_nil
  agrees s hs _ _ := by
    obtain rfl := List.mem_singleton.mp hs
    exact ⟨fence1, noteStore_self fence1, by decide⟩

/-! The first run suspends the service. -/

theorem admit_suspend :
    advance .sqlite (shared active1 Table.empty fence1) .outside
      (.admission (.operational suspendNotes) dawn .done) =
    some (shared active1 (oneClaim .prepared) fence1, .observing suspendNotes active1 .closed) :=
  rfl

theorem observe_suspend {s : Service} {claims : Table ClaimRow.key} {fence : WriteAdmissionFence} :
    advance .sqlite (shared s claims fence) (.observing suspendNotes active1 .closed)
      (.readFence true) =
    some (shared s claims fence, .changing suspendNotes active1 .closed fence) :=
  rfl

theorem finalize_suspend :
    advance .sqlite (shared active1 (oneClaim .prepared) fence2) (.finalizing suspendNotes)
      (.finalize dawn .done) =
    some (shared suspended2 (oneClaim (.completed (.service suspended2))) fence2, .outside) := by
  have happly : (registry active1 (oneClaim .prepared)).applyOperational suspendNotes dawn =
      (registry suspended2 (oneClaim .prepared), some suspended2) := rfl
  have hfinal := finalizeOperational_of_prepared (d := registry active1 (oneClaim .prepared))
    rfl happly rfl
  change some (terminal _ ((registry active1 (oneClaim .prepared)).finalizeOperational
    suspendNotes dawn) .done, RunState.outside) = _
  rw [hfinal]
  rfl

/-! Its twin is admitted under the same claim and stalls; meanwhile the
service is resumed. -/

theorem admit_twin :
    advance .sqlite (shared active1 (oneClaim .prepared) fence1) .outside
      (.admission (.operational suspendNotes) dawn .done) =
    some (shared active1 (oneClaim .prepared) fence1, .observing suspendNotes active1 .closed) := by
  have hreplay := @resolveOrPrepare_replay (registry active1 (oneClaim .prepared))
    (.operational suspendNotes) dawn (by decide) rfl
  have hadm : admitted (registry active1 (oneClaim .prepared)) (.operational suspendNotes) dawn =
      some (.operational suspendNotes, active1, registry active1 (oneClaim .prepared)) := by
    rw [admitted, hreplay]
    rfl
  have hkind : ¬ (RegistryAuthorityCommand.operational suspendNotes).kind = .import_ := by decide
  rw [advance, if_neg hkind]
  simp only [shared, hadm]
  rfl

theorem admit_resume :
    advance .sqlite (shared suspended2 (oneClaim (.completed (.service suspended2))) fence2)
      .outside (.admission (.operational resumeNotes) dawn .done) =
    some (shared suspended2 (twoClaims (.completed (.service suspended2)) .prepared) fence2,
      .observing resumeNotes suspended2 .open_) :=
  rfl

theorem observe_resume {s : Service} {claims : Table ClaimRow.key} {fence : WriteAdmissionFence} :
    advance .sqlite (shared s claims fence) (.observing resumeNotes suspended2 .open_)
      (.readFence true) =
    some (shared s claims fence, .changing resumeNotes suspended2 .open_ fence) :=
  rfl

theorem finalize_resume :
    advance .sqlite (shared suspended2 (twoClaims (.completed (.service suspended2)) .prepared)
      fence3) (.finalizing resumeNotes) (.finalize dawn .done) =
    some (shared active3 (twoClaims (.completed (.service suspended2))
      (.completed (.service active3))) fence3, .outside) := by
  have happly : (registry suspended2 (twoClaims (.completed (.service suspended2))
      .prepared)).applyOperational resumeNotes dawn =
      (registry active3 (twoClaims (.completed (.service suspended2)) .prepared), some active3) :=
    rfl
  have hfinal := finalizeOperational_of_prepared
    (d := registry suspended2 (twoClaims (.completed (.service suspended2)) .prepared))
    rfl happly rfl
  change some (terminal _ ((registry suspended2 (twoClaims (.completed (.service suspended2))
    .prepared)).finalizeOperational resumeNotes dawn) .done, RunState.outside) = _
  rw [hfinal]
  rfl

/-- The steps of the first run, up to its end. -/
theorem reach_suspended : (coordination .sqlite noteId).ReachableUnder Prompt
    (world (shared suspended2 (oneClaim (.completed (.service suspended2))) fence2)
      .outside .outside) := by
  have hquiet : ∀ {g : Shared} {r₀ r₁ : RunState} {n : ℕ} {e : Event},
      (∀ fate, e ≠ .transitionFence fate) → Prompt (world g r₀ r₁) (n, e) :=
    fun he _ _ _ _ fate _ _ _ hevent => absurd hevent (he fate)
  refine .step (l := (0, .finalize dawn .done)) (.step (l := (0, .transitionFence .done))
    (.step (l := (0, .readFence true))
    (.step (l := (0, .admission (.operational suspendNotes) dawn .done)) (.init initial)
      (hquiet (by simp)) (step_zero admit_suspend))
      (hquiet (by simp)) (step_zero observe_suspend))
      ?_ (step_zero (advance_changing rfl rfl rfl)))
      (hquiet (by simp)) (step_zero finalize_suspend)
  -- the claim is prepared when the fence is moved
  intro c s target observed fate found result hrun _ _ _ _ _
  obtain ⟨rfl, -, -, -⟩ := RunState.changing.inj hrun
  exact rfl

end Twin

open Twin in
/-- The first run alone is prompt, and leaves a suspended service with a closed fence. -/
theorem fence_status_agreement_suspended : Agrees suspended2 (noteStore fence2 noteId) :=
  fence_status_agreement .sqlite noteId _ reach_suspended suspended2 rfl rfl (by
    intro r hr
    obtain rfl := List.mem_singleton.mp hr
    rfl)

open Twin in
/-- **A stalled twin takes the fence from an active service.** Its claim
was finished by the first run, the service was resumed since, and the
twin closes the fence it finds open. -/
theorem stalled_twin_disagrees :
    ¬ ∀ (backend : StorageBackend) (id : Uuid) (w : World), (coordination backend id).Reachable w →
      ∀ s, w.registry.services.find? id = some s → s.designState = .materialised →
        Quiet w.registry s → Agrees s (w.stores id) := by
  intro hclaim
  have hreach : (coordination .sqlite noteId).Reachable
      (world (shared active3 (twoClaims (.completed (.service suspended2))
        (.completed (.service active3))) fence4) .outside (.finalizing suspendNotes)) :=
    .next (l := (1, .transitionFence .done)) (.next (l := (1, .readFence true))
      (.next (l := (0, .finalize dawn .done)) (.next (l := (0, .transitionFence .done))
      (.next (l := (0, .readFence true))
      (.next (l := (0, .admission (.operational resumeNotes) dawn .done))
      (.next (l := (0, .finalize dawn .done)) (.next (l := (0, .transitionFence .done))
      (.next (l := (0, .readFence true))
      (.next (l := (1, .admission (.operational suspendNotes) dawn .done))
      (.next (l := (0, .admission (.operational suspendNotes) dawn .done))
        (.init initial)
        (step_zero admit_suspend))
        (step_one admit_twin))
        (step_zero observe_suspend))
        (step_zero (advance_changing rfl rfl rfl)))
        (step_zero finalize_suspend))
        (step_zero admit_resume))
        (step_zero observe_resume))
        (step_zero (advance_changing rfl rfl rfl)))
        (step_zero finalize_resume))
        (step_one observe_suspend))
        (step_one (advance_changing rfl rfl rfl))
  obtain ⟨fence, hfence, hiff⟩ := hclaim _ _ _ hreach active3 rfl rfl (by
    intro r hr
    change r ∈ [resumeClaim _, suspendClaim _] at hr
    rcases List.mem_cons.mp hr with rfl | hr
    · rfl
    · obtain rfl := List.mem_singleton.mp hr
      rfl)
  obtain rfl := Option.some.inj ((noteStore_self fence4).symm.trans hfence)
  exact absurd (hiff.mpr rfl) (by decide)

end Coordinator

end Aipcs
