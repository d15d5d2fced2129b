import YieldVault.FundMoves

/-! The storage falls into parts that have nothing to do with each other. Every call
writes in a few of them only, so a value in one part can be traced back to a call
that writes there. -/
namespace YieldVault

open FixedWidth Contract

variable {σ : Type} {host : Host σ} {env : Env σ} {l t : Ledger σ}

inductive Part
  | governance | checkpoints | shipments | emergency
  | balances | requests | depositTimes | deposits | cap | risk | pauseReason | threshold | batchSize
  deriving DecidableEq

def part : Part → Storage → Storage
  | .governance, s => {
      daoThreshold := s.daoThreshold, proposalNonce := s.proposalNonce,
      benjiStrategy := s.benjiStrategy, proposal := s.proposal, vote := s.vote }
  | .checkpoints, s => {
      checkpointNonce := s.checkpointNonce, checkpointTotalShares := s.checkpointTotalShares,
      checkpointTotalAssets := s.checkpointTotalAssets, userCheckpoint := s.userCheckpoint,
      userBalanceAt := s.userBalanceAt }
  | .shipments, s => {
      shipmentByStatus := s.shipmentByStatus, shipmentStatusOf := s.shipmentStatusOf }
  | .emergency, s => {
      emergencyProposal := s.emergencyProposal
      emergencyProposalNonce := s.emergencyProposalNonce }
  | .balances, s => { shareBalance := s.shareBalance }
  | .requests, s => { pendingWithdrawal := s.pendingWithdrawal }
  | .depositTimes, s => { lastDepositTime := s.lastDepositTime }
  | .deposits, s => { userDeposit := s.userDeposit }
  | .cap, s => { admin := s.admin, perUserCap := s.perUserCap }
  | .risk, s => { strategyRiskThreshold := s.strategyRiskThreshold }
  | .pauseReason, s => { pauseReason := s.pauseReason }
  | .threshold, s => { largeWithdrawalThreshold := s.largeWithdrawalThreshold }
  | .batchSize, s => { maxBatchSize := s.maxBatchSize }

/-- What is read from one part only is the same where the part is. -/
theorem read_of_part {V : Type*} {k : Part} {f : Storage → V} (hf : ∀ s, f (part k s) = f s)
    {s s' : Storage} (h : part k s' = part k s) : f s' = f s := by
  rw [← hf s',h,hf s]

def Call.writes : Call → List Part
  | .initializeVault _ _ => [.governance]
  | .setting (.daoThreshold _) => [.governance]
  | .setting (.perUserCap _) => [.cap]
  | .setting (.strategyRiskThreshold _ _) => [.risk]
  | .setting (.largeWithdrawalThreshold _) => [.threshold]
  | .setting (.maxBatchSize _) => [.batchSize]
  | .pause _ => [.pauseReason]
  | .unpause => [.pauseReason]
  | .proposeEmergencyAction _ _ _ _ _ => [.emergency]
  | .confirmEmergencyAction _ _ => [.emergency,.pauseReason]
  | .createCheckpoint => [.checkpoints]
  | .snapshotUserBalance _ => [.checkpoints]
  | .createStrategyProposal _ _ => [.governance]
  | .voteOnProposal _ _ _ _ => [.governance]
  | .executeStrategyProposal _ => [.governance]
  | .addShipment _ _ => [.shipments]
  | .updateShipmentStatus _ _ => [.shipments]
  | .deposit _ _ => [.balances,.depositTimes,.deposits]
  | .batchDeposit _ _ => [.balances,.depositTimes,.deposits]
  | .withdraw _ _ => [.requests,.balances,.deposits]
  | .executeWithdrawal _ => [.requests,.balances,.deposits]
  | _ => []

section Setters

/-! Setters of the funds and of the proxy slots touch no part. -/

variable (k : Part) (s : Storage) (v : ℤ)

@[simp] theorem part_offFunds : part k (offFunds s) = part k s := by cases k <;> rfl

@[simp] theorem part_setIdleAssets : part k (setIdleAssets v s) = part k s := by
  cases k <;> rfl

@[simp] theorem part_setState (state : VaultState) : part k (setState state s) = part k s := by
  cases k <;> rfl

@[simp] theorem part_creditedYield : part k (creditedYield v s) = part k s := by
  simp [creditedYield]

@[simp] theorem part_setStoredTotalShares : part k (setStoredTotalShares v s) = part k s := by
  cases k <;> rfl

@[simp] theorem part_setProxy (update : ProxyStorage → ProxyStorage) :
    part k (setProxy update s) = part k s := by
  cases k <;> rfl

variable {k}

theorem part_setPaused (paused : Bool) (reason : Option PauseReason) (hk : k ≠ .pauseReason) :
    part k (setPaused paused reason s) = part k s := by
  cases k with
  | pauseReason => exact absurd rfl hk
  | _ => rfl

theorem part_governance {threshold : Option ℤ} {nonce : Option ℕ} {strategy : Option Address}
    {proposal : ℕ → Option StrategyProposal} {vote : ℕ → Address → Option Bool}
    (hk : k ≠ .governance) :
    part k { s with
      daoThreshold := threshold, proposalNonce := nonce, benjiStrategy := strategy
      proposal := proposal, vote := vote } = part k s := by
  cases k with
  | governance => exact absurd rfl hk
  | _ => rfl

theorem part_checkpoints {nonce : Option ℕ} {shares assets : ℕ → Option ℤ}
    {checkpoint : Address → Option ℕ} {recorded : Address → ℕ → Option ℤ}
    (hk : k ≠ .checkpoints) :
    part k { s with
      checkpointNonce := nonce, checkpointTotalShares := shares, checkpointTotalAssets := assets
      userCheckpoint := checkpoint, userBalanceAt := recorded } = part k s := by
  cases k with
  | checkpoints => exact absurd rfl hk
  | _ => rfl

theorem part_shipments {lists : ShipmentStatus → Option (List ℕ)}
    {statuses : ℕ → Option ShipmentStatus} (hk : k ≠ .shipments) :
    part k { s with shipmentByStatus := lists, shipmentStatusOf := statuses } = part k s := by
  cases k with
  | shipments => exact absurd rfl hk
  | _ => rfl

theorem part_emergency {proposals : ℕ → Option EmergencyProposal} {nonce : Option ℕ}
    (hk : k ≠ .emergency) :
    part k { s with emergencyProposal := proposals, emergencyProposalNonce := nonce } =
      part k s := by
  cases k with
  | emergency => exact absurd rfl hk
  | _ => rfl

theorem part_setShareBalance (user : Address) (hk : k ≠ .balances) :
    part k (setShareBalance user v s) = part k s := by
  cases k with
  | balances => exact absurd rfl hk
  | _ => rfl

theorem part_setUserDeposit (user : Address) (hk : k ≠ .deposits) :
    part k (setUserDeposit user v s) = part k s := by
  cases k with
  | deposits => exact absurd rfl hk
  | _ => rfl

theorem part_setLastDepositTime (user : Address) (time : ℕ) (hk : k ≠ .depositTimes) :
    part k (setLastDepositTime user time s) = part k s := by
  cases k with
  | depositTimes => exact absurd rfl hk
  | _ => rfl

theorem part_setPendingWithdrawal (user : Address) (pending : Option PendingWithdrawal)
    (hk : k ≠ .requests) : part k (setPendingWithdrawal user pending s) = part k s := by
  cases k with
  | requests => exact absurd rfl hk
  | _ => rfl

theorem part_creditedDeposit {user : Address} {time : ℕ} {amount shares stored : ℤ}
    (hk : k ∉ [.balances,.depositTimes,.deposits]) :
    part k (creditedDeposit time user amount shares stored s) = part k s := by
  have h1 : k ≠ .balances := fun h => hk (by simp [h])
  have h2 : k ≠ .depositTimes := fun h => hk (by simp [h])
  have h3 : k ≠ .deposits := fun h => hk (by simp [h])
  rw [creditedDeposit,part_setLastDepositTime _ _ _ h2,part_setShareBalance _ _ _ h1,
    part_setStoredTotalShares,part_setIdleAssets,part_setUserDeposit _ _ _ h3]

theorem part_debitedWithdrawal {state : VaultState} {user : Address} {shares paid : ℤ}
    (hk : k ∉ [.balances,.deposits]) :
    part k (debitedWithdrawal state user shares paid s) = part k s := by
  have h1 : k ≠ .balances := fun h => hk (by simp [h])
  have h2 : k ≠ .deposits := fun h => hk (by simp [h])
  rw [debitedWithdrawal,part_setUserDeposit _ _ _ h2,part_setState,part_setShareBalance _ _ _ h1,
    part_setStoredTotalShares,part_setIdleAssets]

end Setters

section Calls

variable {k : Part}

theorem setting_part {setting : Setting} {u : Unit} (hk : k ∉ (Call.setting setting).writes)
    (h : (applySetting env setting).run l = .ok u t) : part k t.storage = part k l.storage := by
  cases setting with
  | perUserCap cap =>
    simp [applySetting,setPerUserCap] at h
    obtain ⟨_,_,_,rfl⟩ := h
    cases k with
    | cap => exact absurd (List.mem_singleton.mpr rfl) hk
    | _ => rfl
  | daoThreshold threshold =>
    obtain ⟨_,_,_,_,rfl⟩ := adminSetting_ok.mp h
    exact part_governance l.storage (List.ne_of_not_mem_cons hk)
  | strategyRiskThreshold strategy threshold =>
    obtain ⟨_,_,_,_,rfl⟩ := adminSetting_ok.mp h
    cases k with
    | risk => exact absurd (List.mem_singleton.mpr rfl) hk
    | _ => rfl
  | largeWithdrawalThreshold threshold =>
    obtain ⟨_,_,_,_,rfl⟩ := adminSetting_ok.mp h
    cases k with
    | threshold => exact absurd (List.mem_singleton.mpr rfl) hk
    | _ => rfl
  | maxBatchSize size =>
    obtain ⟨_,_,_,_,rfl⟩ := adminSetting_ok.mp h
    cases k with
    | batchSize => exact absurd (List.mem_singleton.mpr rfl) hk
    | _ => rfl
  | feeBps bps =>
    obtain ⟨_,_,_,_,rfl⟩ := adminSetting_ok.mp h
    split_ifs
    · cases k <;> rfl
    · rfl
  | _ =>
    obtain ⟨_,_,_,_,rfl⟩ := adminSetting_ok.mp h
    cases k <;> rfl

theorem MovesFunds.part (h : MovesFunds l t) : part k t.storage = part k l.storage :=
  read_offFunds (part_offFunds k) h.storage

theorem PaysYield.part {net : ℤ} (h : PaysYield net l t) : YieldVault.part k t.storage =
    YieldVault.part k l.storage :=
  (read_offFunds (part_offFunds k) h.storage).trans (part_creditedYield _ _ _)

theorem doWithdraw_part {user : Address} {shares paid r : ℤ} {state : VaultState}
    (hk : k ∉ [.balances,.deposits]) (h : (doWithdraw env state user shares paid).run l = .ok r t) :
    part k t.storage = part k l.storage := by
  obtain ⟨token,m,c,-,hcover,-,-,-,rfl⟩ := doWithdraw_ok.mp h
  exact (part_debitedWithdrawal _ hk).trans (coverShortfall_movesFunds hcover).part

theorem applyEmergency_part {proposal : EmergencyProposal} {u : Unit} (hk : k ≠ .pauseReason)
    (h : (applyEmergency env proposal).run l = .ok u t) :
    part k t.storage = part k l.storage := by
  cases hkind : proposal.kind with
  | pause =>
    simp [applyEmergency,hkind] at h
    rw [← h]
    exact part_setPaused _ _ _ hk
  | unpause =>
    simp [applyEmergency,hkind] at h
    rw [← h]
    exact part_setPaused _ _ _ hk
  | emergencyDivest =>
    simp only [applyEmergency,hkind,expect_bind_eq_ok] at h
    obtain ⟨amount,-,h⟩ := h
    exact (divest_movesFunds h).part
  | forceUpgrade =>
    simp only [applyEmergency,hkind,expect_bind_eq_ok] at h
    obtain ⟨hash,-,h⟩ := h
    obtain ⟨c,-,rfl⟩ := call_eq_ok.mp h
    rfl

theorem runStorageMigration_part {target : ℕ} {u : Unit}
    (h : (runStorageMigration target).run l = .ok u t) :
    part k t.storage = part k l.storage := by
  simp [runStorageMigration] at h
  obtain ⟨-,rfl⟩ := h
  split_ifs <;> simp [backfillState]

theorem batchDeposit_part {relayer : Address} {entries : List DepositEntry}
    {result : BatchDepositResult} (hk : k ∉ [.balances,.depositTimes,.deposits])
    (h : (batchDeposit env relayer entries).run l = .ok result t) :
    part k t.storage = part k l.storage := by
  obtain ⟨token,batch,m,-,-,-,-,-,hloop,-,rfl⟩ := batchDeposit_ok h
  let P : VaultState → Ledger σ → Prop := fun _ m => part k m.storage = part k l.storage
  have hP : P batch.state m := by
    refine processEntries_invariant ?_ hloop rfl
    rintro state state' user amount shares m m' hm hentry
    obtain ⟨c,-,-,-,-,-,-,-,-,-,rfl⟩ := processSingleBatchEntry_ok.mp hentry
    exact (part_creditedDeposit _ hk).trans hm
  exact (part_setState _ _ _).trans hP

theorem quiet_part {call : Call} {v : Value} (hq : call.isQuiet = true) (hk : k ∉ call.writes)
    (h : (dispatch env call).run l = .ok v t) : part k t.storage = part k l.storage := by
  cases call with
  | proposeAdmin newAdmin =>
    simp [dispatch,proposeAdmin] at h
    obtain ⟨_,_,_,rfl,-⟩ := h
    simp
  | acceptAdmin =>
    simp [dispatch,acceptAdmin] at h
    obtain ⟨_,_,_,_,_,rfl,-⟩ := h
    simp
  | cancelAdminRotation =>
    simp [dispatch,cancelAdminRotation] at h
    obtain ⟨_,_,_,rfl,-⟩ := h
    simp
  | setting setting =>
    obtain ⟨_,h,-⟩ := map_eq_ok.mp h
    exact setting_part hk h
  | createCheckpoint =>
    obtain ⟨_,h,-⟩ := map_eq_ok.mp h
    obtain ⟨_,-,-,-,-,rfl⟩ := createCheckpoint_ok.mp h
    exact part_checkpoints l.storage (List.ne_of_not_mem_cons hk)
  | snapshotUserBalance user =>
    obtain ⟨_,h,-⟩ := map_eq_ok.mp h
    obtain ⟨_,-,-,rfl⟩ := snapshotUserBalance_ok.mp h
    exact part_checkpoints l.storage (List.ne_of_not_mem_cons hk)
  | createStrategyProposal proposer strategy =>
    obtain ⟨_,h,-⟩ := map_eq_ok.mp h
    obtain ⟨-,-,-,rfl⟩ := createStrategyProposal_ok.mp h
    exact part_governance l.storage (List.ne_of_not_mem_cons hk)
  | voteOnProposal voter id support weight =>
    obtain ⟨_,h,-⟩ := map_eq_ok.mp h
    obtain ⟨_,_,-,-,-,-,-,-,rfl⟩ := voteOnProposal_ok.mp h
    exact part_governance l.storage (List.ne_of_not_mem_cons hk)
  | executeStrategyProposal id =>
    obtain ⟨_,h,-⟩ := map_eq_ok.mp h
    obtain ⟨_,-,-,-,-,rfl⟩ := executeStrategyProposal_ok.mp h
    exact part_governance l.storage (List.ne_of_not_mem_cons hk)
  | addShipment id status =>
    obtain ⟨_,h,-⟩ := map_eq_ok.mp h
    obtain ⟨_,-,-,-,rfl⟩ := addShipment_ok.mp h
    exact part_shipments l.storage (List.ne_of_not_mem_cons hk)
  | updateShipmentStatus id status =>
    obtain ⟨_,h,-⟩ := map_eq_ok.mp h
    obtain ⟨_,_,-,-,-,h⟩ := updateShipmentStatus_ok.mp h
    split_ifs at h
    · rw [← h]
    · rw [← h]
      exact part_shipments l.storage (List.ne_of_not_mem_cons hk)
  | _ => exact absurd hq Bool.false_ne_true

theorem upgrade_part {hash : BytesN32} {u : Unit} (h : (upgrade env hash).run l = .ok u t) :
    part k t.storage = part k l.storage := by
  obtain ⟨_,-,-,h⟩ := requireAdmin_bind_eq_ok.mp h
  obtain ⟨_,m,hm,h⟩ := bind_eq_ok.mp h
  obtain ⟨c,-,rfl⟩ := call_eq_ok.mp h
  have hpart : part k m.storage = part k l.storage := runStorageMigration_part (expectOk_ok hm)
  exact hpart

theorem withdraw_part {user : Address} {shares r : ℤ}
    (hk : k ∉ [.requests,.balances,.deposits]) (h : (withdraw env user shares).run l = .ok r t) :
    part k t.storage = part k l.storage := by
  obtain ⟨_,_,-,-,-,-,-,⟨-,h⟩ | ⟨-,-,-,rfl⟩⟩ := withdraw_ok.mp h
  · exact doWithdraw_part (List.not_mem_of_not_mem_cons hk) h
  · exact part_setPendingWithdrawal _ _ _ (List.ne_of_not_mem_cons hk)

theorem executeWithdrawal_part {user : Address} {r : ℤ}
    (hk : k ∉ [.requests,.balances,.deposits]) (h : (executeWithdrawal env user).run l = .ok r t) :
    part k t.storage = part k l.storage := by
  obtain ⟨pending,_,-,-,-,-,h⟩ := executeWithdrawal_ok.mp h
  have hpaid := doWithdraw_part (List.not_mem_of_not_mem_cons hk) h
  exact hpaid.trans (part_setPendingWithdrawal _ _ _ (List.ne_of_not_mem_cons hk))

theorem dispatch_part {call : Call} {v : Value} (hk : k ∉ call.writes)
    (h : (dispatch env call).run l = .ok v t) : part k t.storage = part k l.storage := by
  by_cases hq : call.isQuiet = true
  · exact quiet_part hq hk h
  by_cases hf : call.movesFunds = true
  · exact (dispatch_movesFunds hf h).part
  by_cases hy : call.isYield = true
  · obtain ⟨net,hyields⟩ := dispatch_yields hy h
    exact hyields.part
  cases call with
  | initializeVault admin token =>
    obtain ⟨_,h,-⟩ := map_eq_ok.mp h
    obtain ⟨-,rfl⟩ := initializeVault_ok h
    cases k with
    | governance => exact absurd (List.mem_singleton.mpr rfl) hk
    | _ => simp only [part]
  | upgrade hash =>
    obtain ⟨_,h,-⟩ := map_eq_ok.mp h
    exact upgrade_part h
  | migrateStorage version =>
    obtain ⟨_,h,-⟩ := map_eq_ok.mp h
    obtain ⟨_,-,-,h⟩ := requireAdmin_bind_eq_ok.mp h
    exact runStorageMigration_part h
  | pause reason =>
    obtain ⟨_,h,-⟩ := map_eq_ok.mp h
    obtain ⟨_,-,-,rfl⟩ := pause_ok.mp h
    exact part_setPaused _ _ _ (List.ne_of_not_mem_cons hk)
  | unpause =>
    obtain ⟨_,h,-⟩ := map_eq_ok.mp h
    obtain ⟨_,-,-,rfl⟩ := unpause_ok.mp h
    exact part_setPaused _ _ _ (List.ne_of_not_mem_cons hk)
  | proposeEmergencyAction initiator kind code amount hash =>
    obtain ⟨_,h,-⟩ := map_eq_ok.mp h
    obtain ⟨-,-,-,-,rfl⟩ := proposeEmergencyAction_ok.mp h
    exact part_emergency l.storage (List.ne_of_not_mem_cons hk)
  | confirmEmergencyAction confirmer id =>
    obtain ⟨_,h,-⟩ := map_eq_ok.mp h
    obtain ⟨p,m,-,happly,rfl⟩ := confirmEmergencyAction_ok h
    have hne := List.ne_of_not_mem_cons hk
    have hm := applyEmergency_part
      (List.ne_of_not_mem_cons (List.not_mem_of_not_mem_cons hk)) happly
    exact (part_emergency m.storage hne).trans (hm.trans (part_emergency l.storage hne))
  | deposit user amount =>
    obtain ⟨_,h,-⟩ := map_eq_ok.mp h
    obtain ⟨token,c,-,-,-,-,-,-,-,-,-,-,rfl⟩ := deposit_ok.mp h
    exact (part_setState _ _ _).trans (part_creditedDeposit _ hk)
  | batchDeposit relayer entries =>
    obtain ⟨_,h,-⟩ := map_eq_ok.mp h
    exact batchDeposit_part hk h
  | withdraw user shares =>
    obtain ⟨_,h,-⟩ := map_eq_ok.mp h
    exact withdraw_part hk h
  | executeWithdrawal user =>
    obtain ⟨_,h,-⟩ := map_eq_ok.mp h
    exact executeWithdrawal_part hk h
  | _ => first | exact absurd rfl hq | exact absurd rfl hf | exact absurd rfl hy

end Calls

/-- A step changes a part only by a successful call that writes in it. -/
theorem step_part (k : Part) (a : Action host) (l : Ledger σ) :
    part k (step host a l).storage = part k l.storage ∨
      ∃ inv v, a = .invoke inv ∧ k ∈ inv.call.writes ∧
        (dispatch inv.env inv.call).run l = .ok v (step host a l) := by
  cases a with
  | outside c => exact Or.inl rfl
  | invoke inv =>
    rcases invoke_cases inv l with ⟨v,hv⟩ | hsame
    · by_cases hk : k ∈ inv.call.writes
      · exact Or.inr ⟨inv,v,rfl,hk,hv⟩
      · exact Or.inl (dispatch_part hk hv)
    · refine Or.inl ?_
      change part k (invoke inv l).storage = part k l.storage
      rw [hsame]

end YieldVault
