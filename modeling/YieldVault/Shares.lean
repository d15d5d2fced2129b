import YieldVault.Strategies

/-! Minting and burning shares: single deposits, relayed batches, immediate
withdrawals, and large withdrawals that wait a day. -/
namespace YieldVault

open FixedWidth Contract

variable {σ : Type}

def setUserDeposit (user : Address) (value : ℤ) (s : Storage) : Storage :=
  { s with userDeposit := Function.update s.userDeposit user (some value) }

def setShareBalance (user : Address) (value : ℤ) (s : Storage) : Storage :=
  { s with shareBalance := Function.update s.shareBalance user (some value) }

def setStoredTotalShares (value : ℤ) (s : Storage) : Storage := { s with totalShares := some value }

def setLastDepositTime (user : Address) (time : ℕ) (s : Storage) : Storage :=
  { s with lastDepositTime := Function.update s.lastDepositTime user (some time) }

def setPendingWithdrawal (user : Address) (pending : Option PendingWithdrawal) (s : Storage) :
    Storage :=
  { s with pendingWithdrawal := Function.update s.pendingWithdrawal user pending }

section Frames

variable (s : Storage) (user : Address) (v : ℤ)

@[simp] theorem setUserDeposit_frame :
    userDeposit (setUserDeposit user v s) = Function.update (userDeposit s) user v ∧
      getState (setUserDeposit user v s) = getState s ∧
      idleAssets (setUserDeposit user v s) = idleAssets s ∧
      storedTotalShares (setUserDeposit user v s) = storedTotalShares s ∧
      balance (setUserDeposit user v s) = balance s ∧
      treasuryBalance (setUserDeposit user v s) = treasuryBalance s ∧
      strategyWatermark (setUserDeposit user v s) = strategyWatermark s :=
  ⟨getD_update _ _ _ _,rfl,rfl,rfl,rfl,rfl,rfl⟩

@[simp] theorem setShareBalance_frame :
    balance (setShareBalance user v s) = Function.update (balance s) user v ∧
      getState (setShareBalance user v s) = getState s ∧
      idleAssets (setShareBalance user v s) = idleAssets s ∧
      storedTotalShares (setShareBalance user v s) = storedTotalShares s ∧
      userDeposit (setShareBalance user v s) = userDeposit s ∧
      treasuryBalance (setShareBalance user v s) = treasuryBalance s ∧
      strategyWatermark (setShareBalance user v s) = strategyWatermark s :=
  ⟨getD_update _ _ _ _,rfl,rfl,rfl,rfl,rfl,rfl⟩

@[simp] theorem setStoredTotalShares_frame :
    storedTotalShares (setStoredTotalShares v s) = v ∧
      getState (setStoredTotalShares v s) = getState s ∧
      idleAssets (setStoredTotalShares v s) = idleAssets s ∧
      balance (setStoredTotalShares v s) = balance s ∧
      userDeposit (setStoredTotalShares v s) = userDeposit s ∧
      treasuryBalance (setStoredTotalShares v s) = treasuryBalance s ∧
      strategyWatermark (setStoredTotalShares v s) = strategyWatermark s :=
  ⟨rfl,rfl,rfl,rfl,rfl,rfl,rfl⟩

@[simp] theorem setLastDepositTime_frame (time : ℕ) :
    getState (setLastDepositTime user time s) = getState s ∧
      idleAssets (setLastDepositTime user time s) = idleAssets s ∧
      storedTotalShares (setLastDepositTime user time s) = storedTotalShares s ∧
      balance (setLastDepositTime user time s) = balance s ∧
      userDeposit (setLastDepositTime user time s) = userDeposit s ∧
      treasuryBalance (setLastDepositTime user time s) = treasuryBalance s ∧
      strategyWatermark (setLastDepositTime user time s) = strategyWatermark s :=
  ⟨rfl,rfl,rfl,rfl,rfl,rfl,rfl⟩

@[simp] theorem setPendingWithdrawal_frame (pending : Option PendingWithdrawal) :
    getState (setPendingWithdrawal user pending s) = getState s ∧
      idleAssets (setPendingWithdrawal user pending s) = idleAssets s ∧
      storedTotalShares (setPendingWithdrawal user pending s) = storedTotalShares s ∧
      balance (setPendingWithdrawal user pending s) = balance s ∧
      userDeposit (setPendingWithdrawal user pending s) = userDeposit s ∧
      treasuryBalance (setPendingWithdrawal user pending s) = treasuryBalance s ∧
      strategyWatermark (setPendingWithdrawal user pending s) = strategyWatermark s :=
  ⟨rfl,rfl,rfl,rfl,rfl,rfl,rfl⟩

end Frames

def deposit (env : Env σ) (user : Address) (amount : ℤ) : VaultM σ ℤ := do
  let state ← load getState
  ensure (state.isPaused = false) .contractPaused
  requireAuth env user
  ensure (0 < amount) .invalidAmount
  let minimum ← load minDeposit
  ensure (minimum ≤ amount) .minDepositNotMet
  let tokenAddr ← loadToken
  let sharesToMint ← trapping (assetsToShares amount state.totalShares state.totalAssets)
  ensure (sharesToMint ≠ 0) .invalidAmount
  let currentDeposit ← load (userDeposit · user)
  let newDeposit ← expect (checkedAdd 128 currentDeposit amount) "overflow"
  let cap ← load perUserCap
  ensure (newDeposit ≤ cap) .exceedsUserCap
  tokenTransfer env tokenAddr user env.host.vault amount
  store (setUserDeposit user newDeposit)
  creditIdle amount
  -- the stored supply is recomputed from the state record, not from its own old value
  let ts ← load fun s => (getState s).totalShares
  let ts' ← expect (checkedAdd 128 ts sharesToMint) "overflow"
  store (setStoredTotalShares ts')
  let totalAssets' ← expect (checkedAdd 128 state.totalAssets amount) "overflow"
  let totalShares' ← expect (checkedAdd 128 state.totalShares sharesToMint) "overflow"
  store (setState { state with totalAssets := totalAssets', totalShares := totalShares' })
  let userShares ← load (balance · user)
  let userShares' ← expect (checkedAdd 128 userShares sharesToMint) "overflow"
  store (setShareBalance user userShares')
  store (setLastDepositTime user env.timestamp)
  publish (.deposit amount sharesToMint)
  pure sharesToMint

/-- One entry of a batch. The state record lives in memory: the updated record is
returned with the shares, and an error is returned before anything is written. -/
def processSingleBatchEntry (env : Env σ) (state : VaultState) (tokenAddr user : Address)
    (amount minimum perUserCap : ℤ) : VaultM σ (ℤ × VaultState) := do
  ensure (0 < amount) .invalidAmount
  ensure (minimum ≤ amount) .minDepositNotMet
  let sharesToMint ← trapping (assetsToShares amount state.totalShares state.totalAssets)
  ensure (sharesToMint ≠ 0) .invalidAmount
  let currentDeposit ← load (userDeposit · user)
  let newDeposit ← expect (checkedAdd 128 currentDeposit amount) "overflow"
  ensure (newDeposit ≤ perUserCap) .exceedsUserCap
  requireAuth env user
  tokenTransfer env tokenAddr user env.host.vault amount
  store (setUserDeposit user newDeposit)
  creditIdle amount
  let ts ← load storedTotalShares
  let ts' ← expect (checkedAdd 128 ts sharesToMint) "overflow"
  store (setStoredTotalShares ts')
  let totalAssets' ← expect (checkedAdd 128 state.totalAssets amount) "overflow"
  let totalShares' ← expect (checkedAdd 128 state.totalShares sharesToMint) "overflow"
  let userShares ← load (balance · user)
  let userShares' ← expect (checkedAdd 128 userShares sharesToMint) "overflow"
  store (setShareBalance user userShares')
  store (setLastDepositTime user env.timestamp)
  publish (.deposit amount sharesToMint)
  pure (sharesToMint,{ state with totalAssets := totalAssets', totalShares := totalShares' })

structure BatchState where
  state : VaultState
  result : BatchDepositResult

def recordEntry (user : Address) (batch : BatchState) :
    Except VaultError (ℤ × VaultState) → Except String BatchState
  | .ok (sharesMinted,state) => do
    let total ← unwrap (checkedAdd 128 batch.result.totalSharesMinted sharesMinted) "overflow"
    let successes ← unwrap (checkedAddUnsigned 32 batch.result.successCount 1) "overflow"
    .ok ⟨state,{ batch.result with
      results := batch.result.results ++ [⟨user,sharesMinted,true,0⟩]
      totalSharesMinted := total
      successCount := successes }⟩
  | .error e => do
    let failures ← unwrap (checkedAddUnsigned 32 batch.result.failureCount 1) "overflow"
    .ok ⟨batch.state,{ batch.result with
      results := batch.result.results ++ [⟨user,0,false,e.code⟩]
      failureCount := failures }⟩

def processEntries (env : Env σ) (tokenAddr : Address) (minimum cap : ℤ) :
    List DepositEntry → BatchState → VaultM σ BatchState
  | [], batch => pure batch
  | entry::entries, batch => do
    let outcome ← attempt
      (processSingleBatchEntry env batch.state tokenAddr entry.user entry.amount minimum cap)
    let next ← trapping (recordEntry entry.user batch outcome)
    processEntries env tokenAddr minimum cap entries next

def batchDeposit (env : Env σ) (relayer : Address) (entries : List DepositEntry) :
    VaultM σ BatchDepositResult := do
  let state ← load getState
  ensure (state.isPaused = false) .contractPaused
  requireAuth env relayer
  let approved ← load (isRelayer · relayer)
  ensure (approved = true) .relayerNotAuthorized
  let maxSize ← load maxBatchSize
  ensure (entries.length ≤ maxSize) .batchTooLarge
  let tokenAddr ← loadToken
  let minimum ← load minDeposit
  let cap ← load perUserCap
  let batch ← processEntries env tokenAddr minimum cap entries ⟨state,⟨[],0,0,0⟩⟩
  store (setState batch.state)
  publish (.batchDeposit batch.result.totalSharesMinted batch.result.successCount
    batch.result.failureCount)
  pure batch.result

def coverShortfall (env : Env σ) (assetsToReturn : ℤ) : VaultM σ Unit := do
  let idleTa ← load idleAssets
  if idleTa < assetsToReturn then do
    let needed ← expect (checkedSub 128 assetsToReturn idleTa) "underflow"
    divest env needed
  else pure ()

/-- Burn shares and pay the assets; whether the user still holds the shares is
not looked at here. -/
def doWithdraw (env : Env σ) (state : VaultState) (user : Address) (shares assetsToReturn : ℤ) :
    VaultM σ ℤ := do
  let tokenAddr ← loadToken
  coverShortfall env assetsToReturn
  let idleTa ← load idleAssets
  tokenTransfer env tokenAddr env.host.vault user assetsToReturn
  let idleTa' ← expect (checkedSub 128 idleTa assetsToReturn) "underflow"
  store (setIdleAssets idleTa')
  let ts ← load fun s => (getState s).totalShares
  let ts' ← expect (checkedSub 128 ts shares) "underflow"
  store (setStoredTotalShares ts')
  let vaultBalance ← load (balance · user)
  let vaultBalance' ← expect (checkedSub 128 vaultBalance shares) "underflow"
  store (setShareBalance user vaultBalance')
  let totalAssets' ← expect (checkedSub 128 state.totalAssets assetsToReturn) "underflow"
  let totalShares' ← expect (checkedSub 128 state.totalShares shares) "underflow"
  store (setState { state with totalAssets := totalAssets', totalShares := totalShares' })
  let currentDeposit ← load (userDeposit · user)
  let newDeposit ← if assetsToReturn < currentDeposit then
      expect (checkedSub 128 currentDeposit assetsToReturn) "underflow"
    else pure 0
  store (setUserDeposit user newDeposit)
  publish (.withdraw user assetsToReturn shares)
  pure assetsToReturn

def checkCooldown (env : Env σ) (user : Address) : VaultM σ Unit := do
  let cooldown ← load withdrawalCooldown
  if 0 < cooldown then do
    let lastDeposit ← load (lastDepositTime · user)
    let earliest ← expect (checkedAddUnsigned 64 lastDeposit cooldown) "overflow"
    ensure (earliest ≤ env.timestamp) .withdrawalCooldownActive
  else pure ()

def withdraw (env : Env σ) (user : Address) (shares : ℤ) : VaultM σ ℤ := do
  let state ← load getState
  ensure (state.isPaused = false) .contractPaused
  requireAuth env user
  if hs : 0 < shares then do
    checkCooldown env user
    let userShares ← load (balance · user)
    ensure (shares ≤ userShares) .insufficientShares
    let threshold ← load largeWithdrawalThreshold
    let assetsToReturn ← trapping (sharesToAssets shares state.totalShares state.totalAssets)
    if threshold < assetsToReturn then do
      let unlock ← expect (checkedAddUnsigned 64 env.timestamp 86400) "overflow"
      store (setPendingWithdrawal user (some ⟨shares,unlock,hs⟩))
      publish (.pendingWithdrawal user shares unlock)
      pure 0
    else doWithdraw env state user shares assetsToReturn
  else failWith .invalidAmount

/-- Complete a large withdrawal after its timelock; neither the pause flag nor the
user's balance is consulted. -/
def executeWithdrawal (env : Env σ) (user : Address) : VaultM σ ℤ := do
  requireAuth env user
  let stored ← load fun s => s.pendingWithdrawal user
  let pending ← okOr stored .noPendingWithdrawal
  ensure (pending.unlockTimestamp ≤ env.timestamp) .timelockNotExpired
  store (setPendingWithdrawal user none)
  let state ← load getState
  let assetsToReturn ← trapping (sharesToAssets pending.shares state.totalShares state.totalAssets)
  doWithdraw env state user pending.shares assetsToReturn

section Outcomes

/-! What each operation does when it succeeds, as an update of the whole ledger. -/

variable {env : Env σ} {l t : Ledger σ}

/-- Everything a deposit writes apart from the state record. -/
def creditedDeposit (time : ℕ) (user : Address) (amount shares stored : ℤ) (s : Storage) : Storage :=
  setLastDepositTime user time (setShareBalance user (balance s user+shares)
    (setStoredTotalShares stored (setIdleAssets (idleAssets s+amount)
      (setUserDeposit user (userDeposit s user+amount) s))))

def mintedState (state : VaultState) (amount shares : ℤ) : VaultState :=
  { state with totalAssets := state.totalAssets+amount, totalShares := state.totalShares+shares }

def burnedState (state : VaultState) (shares paid : ℤ) : VaultState :=
  { state with totalAssets := state.totalAssets-paid, totalShares := state.totalShares-shares }

/-- The storage after a withdrawal; `state` is the record loaded before a recall. -/
def debitedWithdrawal (state : VaultState) (user : Address) (shares paid : ℤ) (s : Storage) :
    Storage :=
  setUserDeposit user (if paid < userDeposit s user then userDeposit s user-paid else 0)
    (setState (burnedState state shares paid) (setShareBalance user (balance s user-shares)
      (setStoredTotalShares ((getState s).totalShares-shares)
        (setIdleAssets (idleAssets s-paid) s))))

def DepositFits (state : VaultState) (user : Address) (amount shares stored : ℤ) (s : Storage) :
    Prop :=
  I128 (userDeposit s user+amount) ∧ I128 (idleAssets s+amount) ∧ I128 stored ∧
    I128 (state.totalAssets+amount) ∧ I128 (state.totalShares+shares) ∧
    I128 (balance s user+shares)

theorem deposit_ok {user : Address} {amount shares : ℤ} :
    (deposit env user amount).run l = .ok shares t ↔ ∃ token c,
      (getState l.storage).isPaused = false ∧ env.auth user = true ∧ 0 < amount ∧
      minDeposit l.storage ≤ amount ∧ l.storage.tokenAsset = some token ∧
      assetsToShares amount (getState l.storage).totalShares (getState l.storage).totalAssets =
        .ok shares ∧ shares ≠ 0 ∧
      userDeposit l.storage user+amount ≤ perUserCap l.storage ∧
      env.host.transfer token user env.host.vault amount l.chain = some c ∧
      DepositFits (getState l.storage) user amount shares
        ((getState l.storage).totalShares+shares) l.storage ∧
      t = ⟨setState (mintedState (getState l.storage) amount shares)
          (creditedDeposit env.timestamp user amount shares
            ((getState l.storage).totalShares+shares) l.storage),c,
        .event (.deposit amount shares) :: .transfer token user env.host.vault amount :: l.log⟩ := by
  constructor
  · intro h
    simp [deposit,loadToken_ok,tokenTransfer,creditIdle_ok] at h
    obtain ⟨hpaused,hauth,hpos,hmin,token,htoken,hshares,hne,hdep,hcap,h⟩ := h
    obtain ⟨c,htransfer,hidle,hstored,hassets,hsupply,hbal,h⟩ := h
    exact ⟨token,c,hpaused,hauth,hpos,hmin,htoken,hshares,hne,hcap,htransfer,
      ⟨hdep,hidle,hstored,hassets,hsupply,hbal⟩,h.symm⟩
  · rintro ⟨token,c,hpaused,hauth,hpos,hmin,htoken,hshares,hne,hcap,htransfer,hfits,rfl⟩
    obtain ⟨hdep,hidle,hstored,hassets,hsupply,hbal⟩ := hfits
    simp [deposit,loadToken_ok,tokenTransfer,creditIdle_ok,hpaused,hauth,hpos,hmin,htoken,hshares,
      hne,hcap,htransfer,creditedDeposit,mintedState]
    exact ⟨hdep,hidle,hsupply,hassets,hsupply,hbal,rfl⟩

theorem processSingleBatchEntry_ok {state state' : VaultState} {token user : Address}
    {amount minimum cap shares : ℤ} :
    (processSingleBatchEntry env state token user amount minimum cap).run l =
        .ok (shares,state') t ↔ ∃ c,
      0 < amount ∧ minimum ≤ amount ∧
      assetsToShares amount state.totalShares state.totalAssets = .ok shares ∧ shares ≠ 0 ∧
      userDeposit l.storage user+amount ≤ cap ∧ env.auth user = true ∧
      env.host.transfer token user env.host.vault amount l.chain = some c ∧
      DepositFits state user amount shares (storedTotalShares l.storage+shares) l.storage ∧
      state' = mintedState state amount shares ∧
      t = ⟨creditedDeposit env.timestamp user amount shares (storedTotalShares l.storage+shares)
          l.storage,c,
        .event (.deposit amount shares) :: .transfer token user env.host.vault amount :: l.log⟩ := by
  constructor
  · intro h
    simp [processSingleBatchEntry,tokenTransfer,creditIdle_ok] at h
    obtain ⟨hpos,hmin,hshares,hne,hdep,hcap,hauth,c,htransfer,h⟩ := h
    obtain ⟨hidle,hstored,hassets,hsupply,hbal,h,hstate⟩ := h
    exact ⟨c,hpos,hmin,hshares,hne,hcap,hauth,htransfer,
      ⟨hdep,hidle,hstored,hassets,hsupply,hbal⟩,hstate.symm,h.symm⟩
  · rintro ⟨c,hpos,hmin,hshares,hne,hcap,hauth,htransfer,hfits,rfl,rfl⟩
    obtain ⟨hdep,hidle,hstored,hassets,hsupply,hbal⟩ := hfits
    simp [processSingleBatchEntry,tokenTransfer,creditIdle_ok,hpos,hmin,hshares,hne,hcap,hauth,
      htransfer,creditedDeposit,mintedState]
    exact ⟨hdep,hidle,hstored,hassets,hsupply,hbal⟩

theorem coverShortfall_ok {u : Unit} {paid : ℤ} :
    (coverShortfall env paid).run l = .ok u t ↔
      (if idleAssets l.storage < paid then
        I128 (paid-idleAssets l.storage) ∧
          (divest env (paid-idleAssets l.storage)).run l = .ok () t
      else l = t) := by
  by_cases h : idleAssets l.storage < paid
  · simp [coverShortfall,h]
  · simp [coverShortfall,h]

def WithdrawFits (state : VaultState) (user : Address) (shares paid : ℤ) (s : Storage) : Prop :=
  I128 (idleAssets s-paid) ∧ I128 ((getState s).totalShares-shares) ∧
    I128 (balance s user-shares) ∧ I128 (state.totalAssets-paid) ∧
    I128 (state.totalShares-shares) ∧
    (paid < userDeposit s user → I128 (userDeposit s user-paid))

/-- Burning and paying, after a shortfall has been recalled into the ledger `m`. -/
theorem doWithdraw_ok {state : VaultState} {user : Address} {shares paid r : ℤ} :
    (doWithdraw env state user shares paid).run l = .ok r t ↔ ∃ token m c,
      l.storage.tokenAsset = some token ∧ (coverShortfall env paid).run l = .ok () m ∧
      env.host.transfer token env.host.vault user paid m.chain = some c ∧
      WithdrawFits state user shares paid m.storage ∧ r = paid ∧
      t = ⟨debitedWithdrawal state user shares paid m.storage,c,
        .event (.withdraw user paid shares) :: .transfer token env.host.vault user paid ::
          m.log⟩ := by
  constructor
  · intro h
    simp [doWithdraw,loadToken_ok,tokenTransfer] at h
    obtain ⟨token,htoken,_,m,hcover,c,htransfer,hidle,hstored,hbal,hassets,hsupply,h⟩ := h
    rcases h with ⟨hlt,hdep,h,hr⟩ | ⟨hle,h,hr⟩
    · refine ⟨token,m,c,htoken,hcover,htransfer,
        ⟨hidle,hstored,hbal,hassets,hsupply,fun _ => hdep⟩,hr.symm,?_⟩
      rw [← h,debitedWithdrawal,if_pos hlt]
      rfl
    · refine ⟨token,m,c,htoken,hcover,htransfer,
        ⟨hidle,hstored,hbal,hassets,hsupply,fun hlt => absurd hlt (not_lt.mpr hle)⟩,hr.symm,?_⟩
      rw [← h,debitedWithdrawal,if_neg (not_lt.mpr hle)]
      rfl
  · rintro ⟨token,m,c,htoken,hcover,htransfer,hfits,rfl,rfl⟩
    obtain ⟨hidle,hstored,hbal,hassets,hsupply,hdep⟩ := hfits
    simp [doWithdraw,loadToken_ok,tokenTransfer]
    refine ⟨token,htoken,(),m,hcover,c,htransfer,hidle,hstored,hbal,hassets,hsupply,?_⟩
    by_cases hlt : r < userDeposit m.storage user
    · refine Or.inl ⟨hlt,hdep hlt,?_,rfl,rfl,rfl⟩
      rw [debitedWithdrawal,if_pos hlt,burnedState]
    · refine Or.inr ⟨not_lt.mp hlt,?_,rfl,rfl,rfl⟩
      rw [debitedWithdrawal,if_neg hlt,burnedState]

theorem checkCooldown_ok {user : Address} {u : Unit} :
    (checkCooldown env user).run l = .ok u t ↔
      (0 < withdrawalCooldown l.storage →
        lastDepositTime l.storage user+withdrawalCooldown l.storage < 2^64 ∧
        lastDepositTime l.storage user+withdrawalCooldown l.storage ≤ env.timestamp) ∧ l = t := by
  by_cases h : 0 < withdrawalCooldown l.storage
  · simp [checkCooldown,h,and_assoc]
  · simp [checkCooldown,h]

/-- A withdrawal is carried out at once, or recorded for a day if it is a large one. -/
theorem withdraw_ok {user : Address} {shares r : ℤ} :
    (withdraw env user shares).run l = .ok r t ↔ ∃ (hs : 0 < shares) (paid : ℤ),
      (getState l.storage).isPaused = false ∧ env.auth user = true ∧
      (0 < withdrawalCooldown l.storage →
        lastDepositTime l.storage user+withdrawalCooldown l.storage < 2^64 ∧
        lastDepositTime l.storage user+withdrawalCooldown l.storage ≤ env.timestamp) ∧
      shares ≤ balance l.storage user ∧
      sharesToAssets shares (getState l.storage).totalShares (getState l.storage).totalAssets =
        .ok paid ∧
      (paid ≤ largeWithdrawalThreshold l.storage ∧
          (doWithdraw env (getState l.storage) user shares paid).run l = .ok r t ∨
        largeWithdrawalThreshold l.storage < paid ∧ r = 0 ∧ env.timestamp+86400 < 2^64 ∧
          t = ⟨setPendingWithdrawal user (some ⟨shares,env.timestamp+86400,hs⟩) l.storage,l.chain,
            .event (.pendingWithdrawal user shares (env.timestamp+86400)) :: l.log⟩) := by
  by_cases hs : 0 < shares
  · constructor
    · intro h
      simp only [withdraw,hs,dif_pos] at h
      simp [checkCooldown_ok] at h
      obtain ⟨hpaused,hauth,hcool,hbal,paid,hpaid,h⟩ := h
      refine ⟨hs,paid,hpaused,hauth,hcool,hbal,hpaid,?_⟩
      rcases h with ⟨hlarge,hunlock,h,hr⟩ | ⟨hsmall,h⟩
      · exact Or.inr ⟨hlarge,hr.symm,hunlock,h.symm⟩
      · exact Or.inl ⟨hsmall,h⟩
    · rintro ⟨_,paid,hpaused,hauth,hcool,hbal,hpaid,h⟩
      simp only [withdraw,hs,dif_pos]
      simp [checkCooldown_ok]
      refine ⟨hpaused,hauth,hcool,hbal,paid,hpaid,?_⟩
      rcases h with ⟨hsmall,h⟩ | ⟨hlarge,rfl,hunlock,rfl⟩
      · exact Or.inr ⟨hsmall,h⟩
      · exact Or.inl ⟨hlarge,hunlock,rfl,rfl⟩
  · simp [withdraw,hs]

/-- Neither the pause flag nor the user's balance appears among the conditions. -/
theorem executeWithdrawal_ok {user : Address} {r : ℤ} :
    (executeWithdrawal env user).run l = .ok r t ↔ ∃ pending paid,
      env.auth user = true ∧ l.storage.pendingWithdrawal user = some pending ∧
      pending.unlockTimestamp ≤ env.timestamp ∧
      sharesToAssets pending.shares (getState l.storage).totalShares
        (getState l.storage).totalAssets = .ok paid ∧
      (doWithdraw env (getState l.storage) user pending.shares paid).run
        { l with storage := setPendingWithdrawal user none l.storage } = .ok r t := by
  simp [executeWithdrawal]

/-- Why a deposit of the amount is refused; the cap comes after the conversion. -/
def DepositRefused (state : VaultState) (user : Address) (amount minimum cap : ℤ) (s : Storage)
    (e : VaultError) : Prop :=
  amount ≤ 0 ∧ e = .invalidAmount ∨
  0 < amount ∧ (amount < minimum ∧ e = .minDepositNotMet ∨
    minimum ≤ amount ∧ ∃ shares,
      assetsToShares amount state.totalShares state.totalAssets = .ok shares ∧
      (shares = 0 ∧ e = .invalidAmount ∨
        shares ≠ 0 ∧ I128 (userDeposit s user+amount) ∧ cap < userDeposit s user+amount ∧
          e = .exceedsUserCap))

/-- An entry that fails leaves the ledger as it was: every typed error is returned
before the first write. -/
theorem processSingleBatchEntry_err {state : VaultState} {token user : Address}
    {amount minimum cap : ℤ} {e : VaultError} :
    (processSingleBatchEntry env state token user amount minimum cap).run l = .err e t ↔
      DepositRefused state user amount minimum cap l.storage e ∧ t = l := by
  simp [processSingleBatchEntry,tokenTransfer,creditIdle,DepositRefused]
  constructor
  · rintro (⟨hpos,⟨hmin,shares,hshares,h⟩ | ⟨hmin,rfl,rfl⟩⟩ | ⟨hpos,rfl,rfl⟩)
    · rcases h with ⟨h0,rfl,rfl⟩ | ⟨hne,hdep,hcap,rfl,rfl⟩
      · exact ⟨Or.inr ⟨hpos,Or.inr ⟨hmin,shares,hshares,Or.inl ⟨h0,rfl⟩⟩⟩,rfl⟩
      · exact ⟨Or.inr ⟨hpos,Or.inr ⟨hmin,shares,hshares,Or.inr ⟨hne,hdep,hcap,rfl⟩⟩⟩,rfl⟩
    · exact ⟨Or.inr ⟨hpos,Or.inl ⟨hmin,rfl⟩⟩,rfl⟩
    · exact ⟨Or.inl ⟨hpos,rfl⟩,rfl⟩
  · rintro ⟨⟨hpos,rfl⟩ | ⟨hpos,⟨hmin,rfl⟩ | ⟨hmin,shares,hshares,h⟩⟩,rfl⟩
    · exact Or.inr ⟨hpos,rfl,rfl⟩
    · exact Or.inl ⟨hpos,Or.inr ⟨hmin,rfl,rfl⟩⟩
    · rcases h with ⟨h0,rfl⟩ | ⟨hne,hdep,hcap,rfl⟩
      · exact Or.inl ⟨hpos,Or.inl ⟨hmin,shares,hshares,Or.inl ⟨h0,rfl,rfl⟩⟩⟩
      · exact Or.inl ⟨hpos,Or.inl ⟨hmin,shares,hshares,Or.inr ⟨hne,hdep,hcap,rfl,rfl⟩⟩⟩

theorem recordEntry_ok {user : Address} {batch next : BatchState} {shares : ℤ}
    {state : VaultState} :
    recordEntry user batch (.ok (shares,state)) = .ok next ↔
      I128 (batch.result.totalSharesMinted+shares) ∧ batch.result.successCount+1 < 2^32 ∧
      next = ⟨state,batch.result.results ++ [⟨user,shares,true,0⟩],
        batch.result.totalSharesMinted+shares,batch.result.successCount+1,
        batch.result.failureCount⟩ := by
  simp [recordEntry,except_bind_eq_ok,@eq_comm _ next]

theorem recordEntry_error {user : Address} {batch next : BatchState} {e : VaultError} :
    recordEntry user batch (.error e) = .ok next ↔ batch.result.failureCount+1 < 2^32 ∧
      next = ⟨batch.state,batch.result.results ++ [⟨user,0,false,e.code⟩],
        batch.result.totalSharesMinted,batch.result.successCount,batch.result.failureCount+1⟩ := by
  simp [recordEntry,except_bind_eq_ok,@eq_comm _ next]

/-- The rule for the batch loop: what every minting entry preserves holds after the
loop of the state record in memory and the ledger. -/
theorem processEntries_invariant {P : VaultState → Ledger σ → Prop} {token : Address}
    {minimum cap : ℤ}
    (hmint : ∀ state state' user amount shares l t, P state l →
      (processSingleBatchEntry env state token user amount minimum cap).run l =
        .ok (shares,state') t → P state' t)
    {entries : List DepositEntry} {batch batch' : BatchState}
    (h : (processEntries env token minimum cap entries batch).run l = .ok batch' t)
    (h0 : P batch.state l) : P batch'.state t := by
  induction entries generalizing batch l with
  | nil =>
    obtain ⟨rfl,rfl⟩ := pure_eq_ok.mp h
    exact h0
  | cons entry entries ih =>
    rw [processEntries,attempt_bind_eq_ok] at h
    rcases h with ⟨⟨shares,state⟩,m,hentry,h⟩ | ⟨e,m,hentry,h⟩
    · obtain ⟨next,hnext,h⟩ := trapping_bind_eq_ok.mp h
      refine ih h ?_
      rw [(recordEntry_ok.mp hnext).2.2]
      exact hmint _ _ _ _ _ _ _ h0 hentry
    · obtain ⟨next,hnext,h⟩ := trapping_bind_eq_ok.mp h
      refine ih h ?_
      rw [(recordEntry_error.mp hnext).2,(processSingleBatchEntry_err.mp hentry).2]
      exact h0

theorem batchDeposit_ok {relayer : Address} {entries : List DepositEntry}
    {result : BatchDepositResult} (h : (batchDeposit env relayer entries).run l = .ok result t) :
    ∃ token batch m,
      (getState l.storage).isPaused = false ∧ env.auth relayer = true ∧
      isRelayer l.storage relayer = true ∧ entries.length ≤ maxBatchSize l.storage ∧
      l.storage.tokenAsset = some token ∧
      (processEntries env token (minDeposit l.storage) (perUserCap l.storage) entries
        ⟨getState l.storage,⟨[],0,0,0⟩⟩).run l = .ok batch m ∧ batch.result = result ∧
      t = ⟨setState batch.state m.storage,m.chain,
        .event (.batchDeposit result.totalSharesMinted result.successCount
          result.failureCount) :: m.log⟩ := by
  simp [batchDeposit,loadToken_ok] at h
  obtain ⟨hpaused,hauth,hrelayer,hsize,token,htoken,batch,m,hloop,h,rfl⟩ := h
  exact ⟨token,batch,m,hpaused,hauth,hrelayer,hsize,htoken,hloop,rfl,h.symm⟩

end Outcomes

end YieldVault
