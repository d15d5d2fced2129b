import YieldVault.Strategies

/-! Initialization, storage migration, code upgrades, the admin role, the pause
switch, and every setting that only the admin may change. -/
namespace YieldVault

open FixedWidth Contract

variable {σ : Type}

def storageVersionCurrent : ℕ := 2

def setProxy (update : ProxyStorage → ProxyStorage) (s : Storage) : Storage :=
  { s with proxy := update s.proxy }

/-- `initialize`, the first call: set the admin and zero every total. Nobody authorises it. -/
def initializeVault (admin token : Address) : VaultM σ Unit := do
  let initialized ← load isInitialized
  ensure (initialized = false) .alreadyInitialized
  store (setProxy fun p => { p with admin := some admin })
  store (setProxy fun p => { p with initialized := some true })
  store (setProxy fun p => { p with storageVersion := some storageVersionCurrent })
  store fun s => { s with tokenAsset := some token }
  store (setIdleAssets 0)
  store fun s => { s with totalShares := some 0 }
  store (setState ⟨0,0,false⟩)
  store fun s => { s with daoThreshold := some 1 }
  store fun s => { s with proposalNonce := some 0 }

/-- The state record rebuilt from the two counters of storage version 0. -/
def backfillState (s : Storage) : Storage :=
  setState ⟨storedTotalShares s,idleAssets s,false⟩ s

def runStorageMigration (targetVersion : ℕ) : VaultM σ Unit := do
  let current ← load storageVersion
  ensure (current ≤ targetVersion ∧ targetVersion ≤ storageVersionCurrent) .invalidMigrationTarget
  store fun s => if current < 1 ∧ s.state.isNone then backfillState s else s
  store (setProxy fun p => { p with storageVersion := some targetVersion })
  publish (.migrated current targetVersion)

/-- `expect` on the result of a call: a typed error becomes a trap. -/
def expectOk (x : VaultM σ Unit) (message : String) : VaultM σ Unit := do
  let outcome ← attempt x
  match outcome with
  | .ok _ => pure ()
  | .error _ => trap message

def upgrade (env : Env σ) (newWasmHash : BytesN32) : VaultM σ Unit := do
  let _ ← requireAdmin env
  expectOk (runStorageMigration storageVersionCurrent) "storage migration failed"
  updateCurrentContractWasm env newWasmHash

def migrateStorage (env : Env σ) (targetVersion : ℕ) : VaultM σ Unit := do
  let _ ← requireAdmin env
  runStorageMigration targetVersion

def proposeAdmin (env : Env σ) (newAdmin : Address) : VaultM σ Unit := do
  let admin ← requireAdmin env
  let previous ← load fun s => s.proxy.pendingAdmin
  store (setProxy fun p => { p with pendingAdmin := some newAdmin })
  publish (.adminProposed admin previous newAdmin)

def acceptAdmin (env : Env σ) : VaultM σ Unit := do
  let stored ← load fun s => s.proxy.pendingAdmin
  let pending ← expect stored "No pending admin"
  requireAuth env pending
  let current ← load fun s => s.proxy.admin
  let previous ← expect current "Admin not set"
  store (setProxy fun p => { p with admin := some pending })
  store (setProxy fun p => { p with pendingAdmin := none })
  publish (.adminTransferred previous pending)

def cancelAdminRotation (env : Env σ) : VaultM σ Unit := do
  let admin ← requireAdmin env
  let previous ← load fun s => s.proxy.pendingAdmin
  store (setProxy fun p => { p with pendingAdmin := none })
  publish (.adminCancelled admin previous)

def setPaused (paused : Bool) (reason : Option PauseReason) (s : Storage) : Storage :=
  { setState { getState s with isPaused := paused } s with pauseReason := reason }

def pause (env : Env σ) (reason : PauseReason) : VaultM σ Unit := do
  let _ ← requireAdmin env
  store (setPaused true (some reason))
  publish (.paused reason.code)

def unpause (env : Env σ) : VaultM σ Unit := do
  let _ ← requireAdmin env
  store (setPaused false none)
  publish .unpaused

/-- The shape of an admin-only setter: authorise, check the value, write, announce. -/
def adminSetting (env : Env σ) (allowed : Storage → Bool) (message : String)
    (update : Storage → Storage) (announce : Storage → List Event) : VaultM σ Unit := do
  let _ ← requireAdmin env
  let ok ← load allowed
  demand (ok = true) message
  let events ← load announce
  store update
  write fun l => { l with log := events.map Effect.event ++ l.log }

def setStrategy (env : Env σ) (strategy : Address) : VaultM σ Unit :=
  adminSetting env (isStrategyWhitelisted · strategy) "strategy not whitelisted"
    (fun s => { s with strategy := some strategy }) (fun _ => [])

def whitelistStrategy (env : Env σ) (strategy : Address) (approved : Bool) : VaultM σ Unit :=
  adminSetting env (fun _ => true) ""
    (fun s => { s with
      strategyWhitelist := Function.update s.strategyWhitelist strategy (some approved) })
    (fun _ => [])

def setEmergencyApprovers (env : Env σ) (primary secondary : Address) : VaultM σ Unit :=
  adminSetting env (fun _ => decide (primary ≠ secondary)) "approvers must be distinct"
    (fun s => { s with
      emergencyApproverPrimary := some primary, emergencyApproverSecondary := some secondary })
    (fun _ => [])

def configureKoreanStrategy (env : Env σ) (strategy : Address) : VaultM σ Unit :=
  adminSetting env (fun _ => true) "" (fun s => { s with koreanDebtStrategy := some strategy })
    (fun _ => [])

def setDaoThreshold (env : Env σ) (threshold : ℤ) : VaultM σ Unit :=
  adminSetting env (fun _ => decide (0 < threshold)) "threshold must be > 0"
    (fun s => { s with daoThreshold := some threshold }) (fun _ => [])

def setRelayer (env : Env σ) (relayer : Address) (approved : Bool) : VaultM σ Unit :=
  adminSetting env (fun _ => true) ""
    (fun s => { s with
      relayerWhitelist := Function.update s.relayerWhitelist relayer (some approved) })
    (fun _ => [])

def setMaxBatchSize (env : Env σ) (size : ℕ) : VaultM σ Unit :=
  adminSetting env (fun _ => decide (size ≠ 0)) "max_batch_size must be > 0"
    (fun s => { s with maxBatchSize := some size }) (fun _ => [])

def setFeeBps (env : Env σ) (newBps : ℤ) : VaultM σ Unit :=
  adminSetting env (fun _ => decide (0 ≤ newBps ∧ newBps ≤ 10000)) "fee_bps must be 0-10000"
    (fun s => if h : 0 ≤ newBps ∧ newBps ≤ 10000 then
      { s with feeBps := some ⟨newBps,h.1,h.2⟩ } else s)
    (fun s => [.feeChanged (feeBps s) newBps])

def setTreasury (env : Env σ) (treasury : Address) : VaultM σ Unit :=
  adminSetting env (fun _ => true) "" (fun s => { s with treasury := some treasury }) (fun _ => [])

def setLargeWithdrawalThreshold (env : Env σ) (threshold : ℤ) : VaultM σ Unit :=
  adminSetting env (fun _ => decide (0 < threshold)) "threshold must be > 0"
    (fun s => { s with largeWithdrawalThreshold := some threshold }) (fun _ => [])

def setMinDeposit (env : Env σ) (newMin : ℤ) : VaultM σ Unit :=
  adminSetting env (fun _ => decide (0 ≤ newMin)) "min_deposit must be >= 0"
    (fun s => { s with minDeposit := some newMin })
    (fun s => [.minDepositChanged (minDeposit s) newMin])

def setMinLiquidityBuffer (env : Env σ) (newBuffer : ℤ) : VaultM σ Unit :=
  adminSetting env (fun _ => decide (0 ≤ newBuffer)) "min_liquidity_buffer must be >= 0"
    (fun s => { s with minLiquidityBuffer := some newBuffer })
    (fun s => [.liquidityBufferChanged (minLiquidityBuffer s) newBuffer])

def setWithdrawalCooldown (env : Env σ) (seconds : ℕ) : VaultM σ Unit :=
  adminSetting env (fun _ => true) "" (fun s => { s with withdrawalCooldown := some seconds })
    (fun s => [.withdrawalCooldownChanged (withdrawalCooldown s) seconds])

def setPriceOracle (env : Env σ) (oracle : Address) : VaultM σ Unit :=
  adminSetting env (fun _ => true) "" (fun s => { s with priceOracle := some oracle }) (fun _ => [])

def setOracleEnabled (env : Env σ) (enabled : Bool) : VaultM σ Unit :=
  adminSetting env (fun _ => true) "" (fun s => { s with oracleEnabled := some enabled })
    (fun _ => [])

def setOracleHeartbeat (env : Env σ) (seconds : ℕ) : VaultM σ Unit :=
  adminSetting env (fun _ => true) "" (fun s => { s with oracleHeartbeat := some seconds })
    (fun _ => [])

def setStrategyCap (env : Env σ) (strategy : Address) (cap : ℤ) : VaultM σ Unit :=
  adminSetting env (fun _ => true) ""
    (fun s => { s with strategyCap := Function.update s.strategyCap strategy (some cap) })
    (fun _ => [])

def setStrategyRiskThreshold (env : Env σ) (strategy : Address) (threshold : ℤ) : VaultM σ Unit :=
  adminSetting env (fun _ => decide (0 ≤ threshold ∧ threshold ≤ 10000))
    "threshold must be 0-10000"
    (fun s => { s with
      strategyRiskThreshold := Function.update s.strategyRiskThreshold strategy (some threshold) })
    (fun _ => [])

/-- Unlike its siblings this setter asks for the admin under `DataKey::Admin`,
a slot that no function writes. -/
def setPerUserCap (env : Env σ) (cap : ℤ) : VaultM σ Unit := do
  let stored ← load fun s => s.admin
  let admin ← expect stored unwrapNone
  requireAuth env admin
  store fun s => { s with perUserCap := some cap }

inductive Setting
  | strategy (strategy : Address)
  | whitelist (strategy : Address) (approved : Bool)
  | emergencyApprovers (primary secondary : Address)
  | koreanStrategy (strategy : Address)
  | daoThreshold (threshold : ℤ)
  | relayer (relayer : Address) (approved : Bool)
  | maxBatchSize (size : ℕ)
  | feeBps (bps : ℤ)
  | treasury (treasury : Address)
  | largeWithdrawalThreshold (threshold : ℤ)
  | minDeposit (amount : ℤ)
  | minLiquidityBuffer (buffer : ℤ)
  | withdrawalCooldown (seconds : ℕ)
  | priceOracle (oracle : Address)
  | oracleEnabled (enabled : Bool)
  | oracleHeartbeat (seconds : ℕ)
  | strategyCap (strategy : Address) (cap : ℤ)
  | strategyRiskThreshold (strategy : Address) (threshold : ℤ)
  | perUserCap (cap : ℤ)

def applySetting (env : Env σ) : Setting → VaultM σ Unit
  | .strategy strategy => setStrategy env strategy
  | .whitelist strategy approved => whitelistStrategy env strategy approved
  | .emergencyApprovers primary secondary => setEmergencyApprovers env primary secondary
  | .koreanStrategy strategy => configureKoreanStrategy env strategy
  | .daoThreshold threshold => setDaoThreshold env threshold
  | .relayer relayer approved => setRelayer env relayer approved
  | .maxBatchSize size => setMaxBatchSize env size
  | .feeBps bps => setFeeBps env bps
  | .treasury treasury => setTreasury env treasury
  | .largeWithdrawalThreshold threshold => setLargeWithdrawalThreshold env threshold
  | .minDeposit amount => setMinDeposit env amount
  | .minLiquidityBuffer buffer => setMinLiquidityBuffer env buffer
  | .withdrawalCooldown seconds => setWithdrawalCooldown env seconds
  | .priceOracle oracle => setPriceOracle env oracle
  | .oracleEnabled enabled => setOracleEnabled env enabled
  | .oracleHeartbeat seconds => setOracleHeartbeat env seconds
  | .strategyCap strategy cap => setStrategyCap env strategy cap
  | .strategyRiskThreshold strategy threshold => setStrategyRiskThreshold env strategy threshold
  | .perUserCap cap => setPerUserCap env cap

section Outcomes

variable {env : Env σ} {l t : Ledger σ} {u : Unit}

/-- The slots that say who owns what, and the emergency proposals that may move it. -/
structure Accounts where
  initialized : Option Bool
  tokenAsset : Option Address
  state : Option VaultState
  totalShares : Option ℤ
  totalAssets : Option ℤ
  treasuryBalance : Option ℤ
  shareBalance : Address → Option ℤ
  userDeposit : Address → Option ℤ
  lastDepositTime : Address → Option ℕ
  strategyWatermark : Address → Option ℤ
  pendingWithdrawal : Address → Option PendingWithdrawal
  emergencyProposal : ℕ → Option EmergencyProposal
  emergencyProposalNonce : Option ℕ

def accounts (s : Storage) : Accounts :=
  ⟨s.proxy.initialized,s.tokenAsset,s.state,s.totalShares,s.totalAssets,s.treasuryBalance,
    s.shareBalance,s.userDeposit,s.lastDepositTime,s.strategyWatermark,s.pendingWithdrawal,
    s.emergencyProposal,s.emergencyProposalNonce⟩

/-- An effect that moves no funds and announces no deposit and no payout. -/
def IsNotice : Effect → Prop
  | .event (.deposit _ _) => False
  | .event (.withdraw _ _ _) => False
  | .event _ => True
  | .updateWasm _ => True
  | _ => False

/-- A call that only announces things and leaves the accounts alone; the chain around
the vault stays as it is unless the vault's own code is replaced. -/
structure Quiet (env : Env σ) (l t : Ledger σ) : Prop where
  accounts : accounts t.storage = accounts l.storage
  version : storageVersion l.storage ≤ storageVersion t.storage
  log : ∃ notices : List Effect, t.log = notices ++ l.log ∧ ∀ e ∈ notices, IsNotice e
  chain : t.chain = l.chain ∨ ∃ hash, env.host.updateWasm hash l.chain = some t.chain

theorem Quiet.of_storage {s : Storage}
    (hs : YieldVault.accounts s = YieldVault.accounts l.storage)
    (hv : storageVersion s = storageVersion l.storage) {notices : List Effect}
    (hn : ∀ e ∈ notices, IsNotice e) : Quiet env l ⟨s,l.chain,notices ++ l.log⟩ :=
  ⟨hs,hv.ge,⟨_,rfl,hn⟩,Or.inl rfl⟩

theorem Quiet.of_event {s : Storage} {e : Event}
    (hs : YieldVault.accounts s = YieldVault.accounts l.storage)
    (hv : storageVersion s = storageVersion l.storage) (he : IsNotice (.event e)) :
    Quiet env l ⟨s,l.chain,.event e :: l.log⟩ :=
  ⟨hs,hv.ge,⟨[.event e],rfl,by simpa using he⟩,Or.inl rfl⟩

theorem isNotice_nil : ∀ e ∈ ([] : List Effect), IsNotice e := by simp

theorem adminSetting_ok {allowed : Storage → Bool} {message : String} {update : Storage → Storage}
    {announce : Storage → List Event} :
    (adminSetting env allowed message update announce).run l = .ok u t ↔
      ∃ admin, l.storage.proxy.admin = some admin ∧ env.auth admin = true ∧
        allowed l.storage = true ∧
        ⟨update l.storage,l.chain,(announce l.storage).map Effect.event ++ l.log⟩ = t := by
  simp [adminSetting]

theorem applySetting_quiet {setting : Setting} (h : (applySetting env setting).run l = .ok u t) :
    Quiet env l t := by
  cases setting with
  | perUserCap cap =>
    simp [applySetting,setPerUserCap] at h
    obtain ⟨_,_,_,rfl⟩ := h
    exact Quiet.of_storage (by rfl) (by rfl) isNotice_nil
  | feeBps bps =>
    obtain ⟨_,_,_,_,rfl⟩ := adminSetting_ok.mp h
    refine Quiet.of_storage ?_ ?_ (by simp [IsNotice])
    · split_ifs <;> rfl
    · split_ifs <;> rfl
  | _ =>
    obtain ⟨_,_,_,_,rfl⟩ := adminSetting_ok.mp h
    exact Quiet.of_storage (by rfl) (by rfl) (by simp [IsNotice])

/-- A migration touches nothing but the version once there is a state record. -/
theorem runStorageMigration_ok {target : ℕ} (hs : l.storage.state.isSome = true)
    (h : (runStorageMigration target).run l = .ok u t) :
    storageVersion l.storage ≤ target ∧ t = ⟨setProxy (fun p =>
      { p with storageVersion := some target }) l.storage,l.chain,
        .event (.migrated (storageVersion l.storage) target) :: l.log⟩ := by
  have hn : l.storage.state ≠ none := by
    intro h0
    simp [h0] at hs
  simp [runStorageMigration,hn] at h
  exact ⟨h.1.1,h.2.symm⟩

theorem migrateStorage_quiet {target : ℕ} (hs : l.storage.state.isSome = true)
    (h : (migrateStorage env target).run l = .ok u t) :
    Quiet env l t := by
  obtain ⟨_,_,_,h⟩ := requireAdmin_bind_eq_ok.mp h
  obtain ⟨hle,rfl⟩ := runStorageMigration_ok hs h
  exact ⟨rfl,hle,⟨[_],rfl,by simp [IsNotice]⟩,Or.inl rfl⟩

theorem expectOk_ok {x : VaultM σ Unit} {message : String}
    (h : (expectOk x message).run l = .ok u t) : x.run l = .ok () t := by
  rw [expectOk,attempt_bind_eq_ok] at h
  rcases h with ⟨_,m,hx,h⟩ | ⟨e,m,_,h⟩
  · obtain ⟨-,rfl⟩ := pure_eq_ok.mp h
    exact hx
  · exact absurd h trap_ne_ok

theorem upgrade_quiet {hash : BytesN32} (hs : l.storage.state.isSome = true)
    (h : (upgrade env hash).run l = .ok u t) :
    Quiet env l t := by
  obtain ⟨_,_,_,h⟩ := requireAdmin_bind_eq_ok.mp h
  obtain ⟨_,m,hm,h⟩ := bind_eq_ok.mp h
  obtain ⟨hle,rfl⟩ := runStorageMigration_ok hs (expectOk_ok hm)
  obtain ⟨c,hc,rfl⟩ := call_eq_ok.mp h
  exact ⟨rfl,hle,⟨[_,_],rfl,by simp [IsNotice]⟩,Or.inr ⟨hash,hc⟩⟩

theorem proposeAdmin_quiet {newAdmin : Address}
    (h : (proposeAdmin env newAdmin).run l = .ok u t) : Quiet env l t := by
  simp [proposeAdmin] at h
  obtain ⟨_,_,_,rfl⟩ := h
  exact Quiet.of_event (by rfl) (by rfl) trivial

theorem acceptAdmin_quiet (h : (acceptAdmin env).run l = .ok u t) : Quiet env l t := by
  simp [acceptAdmin] at h
  obtain ⟨_,_,_,_,_,rfl⟩ := h
  exact Quiet.of_event (by rfl) (by rfl) trivial

theorem cancelAdminRotation_quiet (h : (cancelAdminRotation env).run l = .ok u t) :
    Quiet env l t := by
  simp [cancelAdminRotation] at h
  obtain ⟨_,_,_,rfl⟩ := h
  exact Quiet.of_event (by rfl) (by rfl) trivial

theorem pause_ok {reason : PauseReason} :
    (pause env reason).run l = .ok u t ↔ ∃ admin, l.storage.proxy.admin = some admin ∧
      env.auth admin = true ∧
      ⟨setPaused true (some reason) l.storage,l.chain,
        .event (.paused reason.code) :: l.log⟩ = t := by
  simp [pause]

theorem unpause_ok :
    (unpause env).run l = .ok u t ↔ ∃ admin, l.storage.proxy.admin = some admin ∧
      env.auth admin = true ∧
      ⟨setPaused false none l.storage,l.chain,.event .unpaused :: l.log⟩ = t := by
  simp [unpause]

theorem initializeVault_ok {admin token : Address}
    (h : (initializeVault admin token).run l = .ok u t) :
    isInitialized l.storage = false ∧ t = ⟨{ l.storage with
      proxy := { l.storage.proxy with
        admin := some admin, initialized := some true,
        storageVersion := some storageVersionCurrent }
      tokenAsset := some token, totalAssets := some 0, totalShares := some 0,
      state := some ⟨0,0,false⟩, daoThreshold := some 1, proposalNonce := some 0 },
      l.chain,l.log⟩ := by
  simp [initializeVault] at h
  exact ⟨h.1,h.2.symm⟩

end Outcomes

end YieldVault
