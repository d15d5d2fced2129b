import YieldVault.Environment
import YieldVault.ShareMath

/-! Movements of the vault's funds: into and out of strategies, yield that
arrives with its protocol fee, and the payment of accumulated fees. -/
namespace YieldVault

open FixedWidth Contract

variable {σ : Type}

def unwrapNone : String := "called Option::unwrap() on a None value"

def sharePriceScale : ℤ := 1000000000000000000

def scaledPrice (state : VaultState) : Except String ℤ := do
  let product ← unwrap (checkedMul 128 state.totalAssets sharePriceScale) "overflow"
  unwrap (checkedDiv 128 product state.totalShares) "division by zero"

def sharePrice (s : Storage) : Except String ℤ :=
  if (getState s).totalShares = 0 then .ok 0 else scaledPrice (getState s)

def setWatermark (strategy : Address) (value : ℤ) (s : Storage) : Storage :=
  { s with strategyWatermark := Function.update s.strategyWatermark strategy (some value) }

def setIdleAssets (value : ℤ) (s : Storage) : Storage := { s with totalAssets := some value }

def setState (state : VaultState) (s : Storage) : Storage := { s with state := some state }

def setTreasuryBalance (value : ℤ) (s : Storage) : Storage :=
  { s with treasuryBalance := some value }

section Frames

variable (s : Storage) (v : ℤ)

@[simp] theorem setWatermark_frame (a : Address) :
    getState (setWatermark a v s) = getState s ∧ idleAssets (setWatermark a v s) = idleAssets s ∧
      storedTotalShares (setWatermark a v s) = storedTotalShares s ∧
      balance (setWatermark a v s) = balance s ∧
      treasuryBalance (setWatermark a v s) = treasuryBalance s ∧
      userDeposit (setWatermark a v s) = userDeposit s :=
  ⟨rfl,rfl,rfl,rfl,rfl,rfl⟩

@[simp] theorem strategyWatermark_setWatermark (a : Address) :
    strategyWatermark (setWatermark a v s) = Function.update (strategyWatermark s) a v :=
  getD_update _ _ _ _

@[simp] theorem setIdleAssets_frame :
    idleAssets (setIdleAssets v s) = v ∧ getState (setIdleAssets v s) = getState s ∧
      storedTotalShares (setIdleAssets v s) = storedTotalShares s ∧
      balance (setIdleAssets v s) = balance s ∧
      treasuryBalance (setIdleAssets v s) = treasuryBalance s ∧
      userDeposit (setIdleAssets v s) = userDeposit s ∧
      strategyWatermark (setIdleAssets v s) = strategyWatermark s :=
  ⟨rfl,rfl,rfl,rfl,rfl,rfl,rfl⟩

@[simp] theorem setState_frame (state : VaultState) :
    getState (setState state s) = state ∧ idleAssets (setState state s) = idleAssets s ∧
      storedTotalShares (setState state s) = storedTotalShares s ∧
      balance (setState state s) = balance s ∧
      treasuryBalance (setState state s) = treasuryBalance s ∧
      userDeposit (setState state s) = userDeposit s ∧
      strategyWatermark (setState state s) = strategyWatermark s :=
  ⟨rfl,rfl,rfl,rfl,rfl,rfl,rfl⟩

@[simp] theorem setTreasuryBalance_frame :
    treasuryBalance (setTreasuryBalance v s) = v ∧
      getState (setTreasuryBalance v s) = getState s ∧
      idleAssets (setTreasuryBalance v s) = idleAssets s ∧
      storedTotalShares (setTreasuryBalance v s) = storedTotalShares s ∧
      balance (setTreasuryBalance v s) = balance s ∧
      userDeposit (setTreasuryBalance v s) = userDeposit s ∧
      strategyWatermark (setTreasuryBalance v s) = strategyWatermark s :=
  ⟨rfl,rfl,rfl,rfl,rfl,rfl,rfl⟩

end Frames

def loadToken : VaultM σ Address := do
  let stored ← load fun s => s.tokenAsset
  expect stored unwrapNone

def strategyAssets (env : Env σ) : Option Address → VaultM σ ℤ
  | some strategy => query (env.host.totalValue strategy)
  | none => pure 0

/-- Idle funds plus what the active strategy reports. -/
def totalAssets (env : Env σ) : VaultM σ ℤ := do
  let idle ← load idleAssets
  let strategy ← load fun s => s.strategy
  let invested ← strategyAssets env strategy
  expect (checkedAdd 128 idle invested) "overflow"

def raiseStrategyWatermark (strategy : Address) (candidate : ℤ) : VaultM σ Unit := do
  let current ← load (strategyWatermark · strategy)
  if current < candidate then do
    store (setWatermark strategy candidate)
    publish (.watermarkRaised strategy current candidate)
  else pure ()

def lowerStrategyWatermark (strategy : Address) (amount : ℤ) : VaultM σ Unit := do
  let current ← load (strategyWatermark · strategy)
  if amount < current then do
    let next ← expect (checkedSub 128 current amount) "underflow"
    store (setWatermark strategy next)
  else store (setWatermark strategy 0)

def creditIdle (amount : ℤ) : VaultM σ Unit := do
  let idleTa ← load idleAssets
  let next ← expect (checkedAdd 128 idleTa amount) "overflow"
  store (setIdleAssets next)

/-- Recall funds from the active strategy. No caller is authorised here, and the
amount asked for is credited, whatever the strategy sent back. -/
def divest (env : Env σ) (amount : ℤ) : VaultM σ Unit := do
  let stored ← load fun s => s.strategy
  let strategyAddr ← expect stored "no strategy set"
  strategyWithdraw env strategyAddr amount
  lowerStrategyWatermark strategyAddr amount
  creditIdle amount

def checkRisk (invested total threshold : ℤ) : VaultM σ Unit :=
  if 0 < total then do
    let scaled ← expect (checkedMul 128 invested 10000) "overflow"
    ensure (scaled.tdiv total ≤ threshold) .exceedsRiskThreshold
  else pure ()

/-- Move idle funds to the active strategy. -/
def invest (env : Env σ) (amount : ℤ) : VaultM σ Unit := do
  let _ ← requireAdmin env
  ensure (0 < amount) .invalidAmount
  let stored ← load fun s => s.strategy
  let strategyAddr ← expect stored "no strategy set"
  let cap ← load fun s => (s.strategyCap strategyAddr).getD i128Max
  let totalInvested ← query (env.host.totalValue strategyAddr)
  let newTotalInvested ← expect (checkedAdd 128 totalInvested amount) "overflow"
  ensure (newTotalInvested ≤ cap) .exceedsStrategyCap
  let threshold ← load fun s => (s.strategyRiskThreshold strategyAddr).getD 10000
  let total ← totalAssets env
  checkRisk newTotalInvested total threshold
  let idleTa ← load idleAssets
  demand (amount ≤ idleTa) "insufficient idle assets"
  let remainingIdle ← expect (checkedSub 128 idleTa amount) "underflow"
  let buffer ← load minLiquidityBuffer
  ensure (buffer ≤ remainingIdle) .liquidityBufferNotMet
  let tokenAddr ← loadToken
  tokenApprove env tokenAddr strategyAddr amount
  strategyDeposit env strategyAddr amount
  raiseStrategyWatermark strategyAddr newTotalInvested
  store (setIdleAssets remainingIdle)

/-- Move funds between two strategies, measuring what really arrives. -/
def rebalance (env : Env σ) (fromStrategy toStrategy : Address)
    (amount minDivestValue minInvestValue : ℤ) : VaultM σ Unit := do
  let _ ← requireAdmin env
  ensure (0 < amount) .invalidAmount
  let tokenAddr ← loadToken
  let vaultBalBefore ← tokenBalance env tokenAddr env.host.vault
  strategyWithdraw env fromStrategy amount
  let vaultBalAfterDivest ← tokenBalance env tokenAddr env.host.vault
  let withdrawnAssets := (checkedSub 128 vaultBalAfterDivest vaultBalBefore).getD 0
  ensure (minDivestValue ≤ withdrawnAssets) .slippageExceeded
  lowerStrategyWatermark fromStrategy withdrawnAssets
  let toStrategyValBefore ← query (env.host.totalValue toStrategy)
  tokenApprove env tokenAddr toStrategy withdrawnAssets
  strategyDeposit env toStrategy withdrawnAssets
  let toStrategyValAfter ← query (env.host.totalValue toStrategy)
  ensure (minInvestValue ≤ (checkedSub 128 toStrategyValAfter toStrategyValBefore).getD 0)
    .slippageExceeded
  raiseStrategyWatermark toStrategy toStrategyValAfter

def creditTreasury (feeAmount : ℤ) (announce : Bool) : VaultM σ Unit :=
  if 0 < feeAmount then do
    let treasuryBal ← load treasuryBalance
    let next ← expect (checkedAdd 128 treasuryBal feeAmount) "overflow"
    store (setTreasuryBalance next)
    if announce then publish (.feeAccrued feeAmount next) else pure ()
  else pure ()

def priceBefore (state : VaultState) : Except String ℤ :=
  if 0 < state.totalShares then scaledPrice state else .ok 0

/-- The assertion of `accrue_yield` about the price after the yield. -/
def checkPrice (state : VaultState) (before : ℤ) : VaultM σ Unit :=
  if 0 < state.totalShares then do
    let after ← trapping (scaledPrice state)
    demand (before ≤ after) "share price must not decrease during yield accrual"
  else pure ()

/-- Yield paid in by the admin, less the protocol fee. -/
def accrueYield (env : Env σ) (amount : ℤ) : VaultM σ Unit := do
  let admin ← requireAdmin env
  ensure (0 < amount) .invalidAmount
  let bps ← load feeBps
  let product ← okOr (checkedMul 128 amount bps) .mathOverflow
  let feeAmount := product.tdiv bpsDenominator
  let netYield ← okOr (checkedSub 128 amount feeAmount) .mathOverflow
  let tokenAddr ← loadToken
  tokenTransfer env tokenAddr admin env.host.vault amount
  creditTreasury feeAmount true
  creditIdle netYield
  let state ← load getState
  let before ← trapping (priceBefore state)
  let totalAssets' ← expect (checkedAdd 128 state.totalAssets netYield) "overflow"
  checkPrice { state with totalAssets := totalAssets' } before
  store (setState { state with totalAssets := totalAssets' })

/-- Yield paid in by the configured BENJI strategy, less the protocol fee. -/
def reportBenjiYield (env : Env σ) (strategy : Address) (amount : ℤ) : VaultM σ Unit := do
  requireAuth env strategy
  demand (0 < amount) "yield amount must be > 0"
  let stored ← load fun s => s.benjiStrategy
  let configured ← expect stored unwrapNone
  demand (strategy = configured) "unauthorized strategy"
  let tokenAddr ← loadToken
  tokenTransfer env tokenAddr strategy env.host.vault amount
  let bps ← load feeBps
  let fee ← trapping (calculateProtocolFee amount bps)
  creditTreasury fee.1 false
  let watermark ← load (strategyWatermark · strategy)
  let nextWatermark ← expect (checkedAdd 128 watermark amount) "overflow"
  raiseStrategyWatermark strategy nextWatermark
  creditIdle fee.2
  let state ← load getState
  let totalAssets' ← expect (checkedAdd 128 state.totalAssets fee.2) "overflow"
  store (setState { state with totalAssets := totalAssets' })

/-- Count the harvest of the Korean debt strategy; the idle balance stays as it is. -/
def accrueKoreanDebtYield (env : Env σ) : VaultM σ ℤ := do
  let _ ← requireAdmin env
  let stored ← load fun s => s.koreanDebtStrategy
  let strategy ← expect stored unwrapNone
  let harvested ← query (env.host.harvestYield strategy)
  demand (0 < harvested) "yield amount must be > 0"
  let state ← load getState
  let totalAssets' ← expect (checkedAdd 128 state.totalAssets harvested) "overflow"
  store (setState { state with totalAssets := totalAssets' })
  pure harvested

def claimFees (env : Env σ) : VaultM σ Unit := do
  let _ ← requireAdmin env
  let stored ← load fun s => s.treasury
  let treasury ← expect stored "treasury not set"
  let amount ← load treasuryBalance
  demand (amount ≠ 0) "no fees to claim"
  store (setTreasuryBalance 0)
  let tokenAddr ← loadToken
  tokenTransfer env tokenAddr env.host.vault treasury amount
  publish (.feesClaimed treasury amount)

section Outcomes

/-! What each operation does when it succeeds, as an update of the whole ledger. -/

variable {env : Env σ} {l t : Ledger σ} {u : Unit}

def raisedWatermark (strategy : Address) (candidate : ℤ) (s : Storage) : Storage :=
  { s with strategyWatermark :=
      if strategyWatermark s strategy < candidate then
        Function.update s.strategyWatermark strategy (some candidate)
      else s.strategyWatermark }

def watermarkNotice (strategy : Address) (candidate : ℤ) (s : Storage) : List Effect :=
  if strategyWatermark s strategy < candidate then
    [.event (.watermarkRaised strategy (strategyWatermark s strategy) candidate)]
  else []

def loweredWatermark (strategy : Address) (amount : ℤ) (s : Storage) : Storage :=
  setWatermark strategy
    (if amount < strategyWatermark s strategy then strategyWatermark s strategy-amount else 0) s

def creditedTreasury (fee : ℤ) (s : Storage) : Storage :=
  { s with treasuryBalance :=
      if 0 < fee then some (treasuryBalance s+fee) else s.treasuryBalance }

def feeNotice (fee : ℤ) (s : Storage) : List Effect :=
  if 0 < fee then [.event (.feeAccrued fee (treasuryBalance s+fee))] else []

/-- A yield booked net of its fee: the idle balance and the priced assets move together. -/
def creditedYield (net : ℤ) (s : Storage) : Storage :=
  setState { getState s with totalAssets := (getState s).totalAssets+net }
    (setIdleAssets (idleAssets s+net) s)

@[simp] theorem raisedWatermark_frame (strategy : Address) (candidate : ℤ) (s : Storage) :
    getState (raisedWatermark strategy candidate s) = getState s ∧
      idleAssets (raisedWatermark strategy candidate s) = idleAssets s ∧
      storedTotalShares (raisedWatermark strategy candidate s) = storedTotalShares s ∧
      balance (raisedWatermark strategy candidate s) = balance s ∧
      treasuryBalance (raisedWatermark strategy candidate s) = treasuryBalance s :=
  ⟨rfl,rfl,rfl,rfl,rfl⟩

@[simp] theorem loweredWatermark_frame (strategy : Address) (amount : ℤ) (s : Storage) :
    getState (loweredWatermark strategy amount s) = getState s ∧
      idleAssets (loweredWatermark strategy amount s) = idleAssets s ∧
      storedTotalShares (loweredWatermark strategy amount s) = storedTotalShares s ∧
      balance (loweredWatermark strategy amount s) = balance s ∧
      treasuryBalance (loweredWatermark strategy amount s) = treasuryBalance s :=
  ⟨rfl,rfl,rfl,rfl,rfl⟩

@[simp] theorem creditedTreasury_frame (fee : ℤ) (s : Storage) :
    getState (creditedTreasury fee s) = getState s ∧
      idleAssets (creditedTreasury fee s) = idleAssets s ∧
      storedTotalShares (creditedTreasury fee s) = storedTotalShares s ∧
      balance (creditedTreasury fee s) = balance s ∧
      strategyWatermark (creditedTreasury fee s) = strategyWatermark s :=
  ⟨rfl,rfl,rfl,rfl,rfl⟩

@[simp] theorem creditedYield_frame (net : ℤ) (s : Storage) :
    getState (creditedYield net s) =
        { getState s with totalAssets := (getState s).totalAssets+net } ∧
      idleAssets (creditedYield net s) = idleAssets s+net ∧
      storedTotalShares (creditedYield net s) = storedTotalShares s ∧
      balance (creditedYield net s) = balance s ∧
      treasuryBalance (creditedYield net s) = treasuryBalance s :=
  ⟨rfl,rfl,rfl,rfl,rfl⟩

/-- The fee at the stored rate is a part of the amount. -/
theorem fee_bounds {amount fee : ℤ} {s : Storage} (hpos : 0 < amount)
    (hfee : fee = (amount*feeBps s).tdiv bpsDenominator) : 0 ≤ fee ∧ fee ≤ amount := by
  rw [hfee]
  exact fee_split hpos.le (feeBps_nonneg s) (feeBps_le s)

theorem treasuryBalance_creditedTreasury {fee : ℤ} (hf : 0 ≤ fee) (s : Storage) :
    treasuryBalance (creditedTreasury fee s) = treasuryBalance s+fee := by
  by_cases h : 0 < fee
  · simp [treasuryBalance,creditedTreasury,h]
  · have h0 : fee = 0 := by omega
    simp [treasuryBalance,creditedTreasury,h0]

theorem lowerStrategyWatermark_ok {strategy : Address} {amount : ℤ} :
    (lowerStrategyWatermark strategy amount).run l = .ok u t ↔
      (amount < strategyWatermark l.storage strategy →
        I128 (strategyWatermark l.storage strategy-amount)) ∧
      { l with storage := loweredWatermark strategy amount l.storage } = t := by
  by_cases h : amount < strategyWatermark l.storage strategy
  · simp [lowerStrategyWatermark,loweredWatermark,h]
  · simp [lowerStrategyWatermark,loweredWatermark,h]

theorem raiseStrategyWatermark_ok {strategy : Address} {candidate : ℤ} :
    (raiseStrategyWatermark strategy candidate).run l = .ok u t ↔
      ⟨raisedWatermark strategy candidate l.storage,l.chain,
        watermarkNotice strategy candidate l.storage ++ l.log⟩ = t := by
  by_cases h : strategyWatermark l.storage strategy < candidate
  · simp [raiseStrategyWatermark,raisedWatermark,watermarkNotice,setWatermark,h]
  · simp [raiseStrategyWatermark,raisedWatermark,watermarkNotice,h]

theorem creditIdle_ok {amount : ℤ} :
    (creditIdle amount).run l = .ok u t ↔ I128 (idleAssets l.storage+amount) ∧
      { l with storage := setIdleAssets (idleAssets l.storage+amount) l.storage } = t := by
  simp [creditIdle]

theorem loadToken_ok {token : Address} :
    (loadToken : VaultM σ Address).run l = .ok token t ↔
      l.storage.tokenAsset = some token ∧ l = t := by
  simp [loadToken]

/-- What the active strategy, if there is one, reports as its value. -/
def Reports (env : Env σ) (strategy : Option Address) (chain : σ) (value : ℤ) (chain' : σ) : Prop :=
  match strategy with
  | some strategy => env.host.totalValue strategy chain = some (value,chain')
  | none => value = 0 ∧ chain' = chain

theorem totalAssets_ok {total : ℤ} :
    (totalAssets env).run l = .ok total t ↔ ∃ invested c,
      Reports env l.storage.strategy l.chain invested c ∧
      I128 (idleAssets l.storage+invested) ∧ idleAssets l.storage+invested = total ∧
      { l with chain := c } = t := by
  cases h : l.storage.strategy with
  | none =>
    simp only [totalAssets,load_bind,h,strategyAssets,pure_bind,expect_eq_ok,checkedAdd_eq_some,
      Reports]
    aesop
  | some strategy =>
    rw [totalAssets,load_bind,load_bind,h]
    simp only [strategyAssets,query_bind_eq_ok,expect_eq_ok,checkedAdd_eq_some,Reports]
    aesop

theorem divest_ok {amount : ℤ} :
    (divest env amount).run l = .ok u t ↔ ∃ strategy, l.storage.strategy = some strategy ∧
      ∃ c, env.host.withdraw strategy amount l.chain = some c ∧
      (amount < strategyWatermark l.storage strategy →
        I128 (strategyWatermark l.storage strategy-amount)) ∧
      I128 (idleAssets l.storage+amount) ∧
      ⟨setIdleAssets (idleAssets l.storage+amount)
          (loweredWatermark strategy amount l.storage),
        c,.strategyWithdraw strategy amount :: l.log⟩ = t := by
  simp [divest,strategyWithdraw,lowerStrategyWatermark_ok,creditIdle_ok,loweredWatermark]

theorem checkRisk_ok {invested total threshold : ℤ} :
    (checkRisk invested total threshold).run l = .ok u t ↔
      (0 < total → I128 (invested*10000) ∧ (invested*10000).tdiv total ≤ threshold) ∧ l = t := by
  by_cases h : 0 < total
  · simp [checkRisk,h,and_assoc]
  · simp [checkRisk,h]

theorem invest_ok {amount : ℤ} (h : (invest env amount).run l = .ok u t) :
    ∃ admin strategy token held c₁ total c₂ c₃ c,
      l.storage.proxy.admin = some admin ∧ env.auth admin = true ∧ 0 < amount ∧
      l.storage.strategy = some strategy ∧ l.storage.tokenAsset = some token ∧
      env.host.totalValue strategy l.chain = some (held,c₁) ∧
      env.host.totalValue strategy c₁ = some (total,c₂) ∧
      env.host.approve token env.host.vault strategy amount env.sequence c₂ = some c₃ ∧
      env.host.deposit strategy amount c₃ = some c ∧
      amount ≤ idleAssets l.storage ∧ I128 (idleAssets l.storage-amount) ∧
      I128 (held+amount) ∧ held+amount ≤ (l.storage.strategyCap strategy).getD i128Max ∧
      (0 < idleAssets l.storage+total → ((held+amount)*10000).tdiv (idleAssets l.storage+total) ≤
        (l.storage.strategyRiskThreshold strategy).getD 10000) ∧
      minLiquidityBuffer l.storage ≤ idleAssets l.storage-amount ∧
      t = ⟨setIdleAssets (idleAssets l.storage-amount)
          (raisedWatermark strategy (held+amount) l.storage),
        c,watermarkNotice strategy (held+amount) l.storage ++
          .strategyDeposit strategy amount :: l.log⟩ := by
  simp [invest,totalAssets_ok,loadToken_ok,tokenApprove,strategyDeposit,
    raiseStrategyWatermark_ok,checkRisk_ok] at h
  obtain ⟨admin,hadmin,hauth,hpos,strategy,hstrategy,held,c₁,hheld,hfit,hcap,h⟩ := h
  obtain ⟨total,c₂,⟨hrep,htotal⟩,hrisk,hle,hidle,hbuffer,token,htoken,c₃,happ,c,hdep,h⟩ := h
  simp only [hstrategy,Reports] at hrep
  exact ⟨admin,strategy,token,held,c₁,total,c₂,c₃,c,hadmin,hauth,hpos,hstrategy,htoken,hheld,
    hrep,happ,hdep,hle,hidle,hfit,hcap,fun h0 => (hrisk h0).2,hbuffer,h.symm⟩

/-- What `rebalance` takes as the recalled amount: the growth of the vault's balance. -/
def measuredWithdrawal (env : Env σ) (token : Address) (before after : σ) : ℤ :=
  (checkedSub 128 (env.host.balance token env.host.vault after)
    (env.host.balance token env.host.vault before)).getD 0

theorem rebalance_ok {fromStrategy toStrategy : Address} {amount minDivest minInvest : ℤ}
    (h : (rebalance env fromStrategy toStrategy amount minDivest minInvest).run l = .ok u t) :
    ∃ admin token c₁ before c₂ c₃ c₄ after c received,
      l.storage.proxy.admin = some admin ∧ env.auth admin = true ∧ 0 < amount ∧
      l.storage.tokenAsset = some token ∧
      env.host.withdraw fromStrategy amount l.chain = some c₁ ∧
      received = measuredWithdrawal env token l.chain c₁ ∧ minDivest ≤ received ∧
      env.host.totalValue toStrategy c₁ = some (before,c₂) ∧
      env.host.approve token env.host.vault toStrategy received env.sequence c₂ = some c₃ ∧
      env.host.deposit toStrategy received c₃ = some c₄ ∧
      env.host.totalValue toStrategy c₄ = some (after,c) ∧
      (received < strategyWatermark l.storage fromStrategy →
        I128 (strategyWatermark l.storage fromStrategy-received)) ∧
      minInvest ≤ (checkedSub 128 after before).getD 0 ∧
      t = ⟨raisedWatermark toStrategy after (loweredWatermark fromStrategy received l.storage),c,
        watermarkNotice toStrategy after (loweredWatermark fromStrategy received l.storage) ++
          .strategyDeposit toStrategy received :: .strategyWithdraw fromStrategy amount ::
            l.log⟩ := by
  simp [rebalance,loadToken_ok,tokenApprove,strategyDeposit,strategyWithdraw,
    raiseStrategyWatermark_ok,lowerStrategyWatermark_ok] at h
  obtain ⟨admin,hadmin,hauth,hpos,token,htoken,c₁,hwith,hmin,hfit,before,c₂,hbefore,h⟩ := h
  obtain ⟨c₃,happ,c₄,hdep,after,c,hafter,hinv,h⟩ := h
  exact ⟨admin,token,c₁,before,c₂,c₃,c₄,after,c,_,hadmin,hauth,hpos,htoken,hwith,rfl,hmin,hbefore,
    happ,hdep,hafter,hfit,hinv,h.symm⟩

theorem creditTreasury_ok {fee : ℤ} {announce : Bool} :
    (creditTreasury fee announce).run l = .ok u t ↔
      (0 < fee → I128 (treasuryBalance l.storage+fee)) ∧
      ⟨creditedTreasury fee l.storage,l.chain,
        (if announce then feeNotice fee l.storage else []) ++ l.log⟩ = t := by
  by_cases h : 0 < fee
  · cases announce with
    | true => simp [creditTreasury,creditedTreasury,feeNotice,setTreasuryBalance,h]
    | false => simp [creditTreasury,creditedTreasury,setTreasuryBalance,h]
  · simp [creditTreasury,creditedTreasury,feeNotice,h]

/-- The assertion of `accrue_yield` passes: it may fail only while shares are outstanding. -/
theorem checkPrice_ok {state : VaultState} {before : ℤ} :
    (checkPrice state before).run l = .ok u t ↔
      (0 < state.totalShares → ∃ after, scaledPrice state = .ok after ∧ before ≤ after) ∧
      l = t := by
  by_cases h : 0 < state.totalShares
  · simp only [checkPrice,h,if_true,trapping_bind_eq_ok,demand_eq_ok,true_implies]
    aesop
  · simp [checkPrice,h]

theorem accrueYield_ok {amount : ℤ} (h : (accrueYield env amount).run l = .ok u t) :
    ∃ admin token fee c,
      l.storage.proxy.admin = some admin ∧ env.auth admin = true ∧ 0 < amount ∧
      fee = (amount*feeBps l.storage).tdiv bpsDenominator ∧
      l.storage.tokenAsset = some token ∧
      env.host.transfer token admin env.host.vault amount l.chain = some c ∧
      (0 < fee → I128 (treasuryBalance l.storage+fee)) ∧
      I128 (idleAssets l.storage+(amount-fee)) ∧
      I128 ((getState l.storage).totalAssets+(amount-fee)) ∧
      t = ⟨creditedYield (amount-fee) (creditedTreasury fee l.storage),c,
        feeNotice fee l.storage ++ .transfer token admin env.host.vault amount :: l.log⟩ := by
  simp [accrueYield,loadToken_ok,tokenTransfer,creditIdle_ok,creditTreasury_ok,checkPrice_ok] at h
  obtain ⟨admin,hadmin,hauth,hpos,hprod,hnet,token,htoken,c,htransfer,htreasury,h⟩ := h
  obtain ⟨hidle,before,hbefore,hassets,hprice,h⟩ := h
  exact ⟨admin,token,_,c,hadmin,hauth,hpos,rfl,htoken,htransfer,htreasury,hidle,hassets,h.symm⟩

theorem reportBenjiYield_ok {strategy : Address} {amount : ℤ}
    (h : (reportBenjiYield env strategy amount).run l = .ok u t) :
    ∃ token fee c,
      env.auth strategy = true ∧ 0 < amount ∧ l.storage.benjiStrategy = some strategy ∧
      fee = (amount*feeBps l.storage).tdiv bpsDenominator ∧
      l.storage.tokenAsset = some token ∧
      env.host.transfer token strategy env.host.vault amount l.chain = some c ∧
      (0 < fee → I128 (treasuryBalance l.storage+fee)) ∧
      I128 (idleAssets l.storage+(amount-fee)) ∧
      I128 ((getState l.storage).totalAssets+(amount-fee)) ∧
      I128 (strategyWatermark l.storage strategy+amount) ∧
      t = ⟨creditedYield (amount-fee)
          (raisedWatermark strategy (strategyWatermark l.storage strategy+amount)
            (creditedTreasury fee l.storage)),c,
        watermarkNotice strategy (strategyWatermark l.storage strategy+amount) l.storage ++
          .transfer token strategy env.host.vault amount :: l.log⟩ := by
  simp [reportBenjiYield,loadToken_ok,tokenTransfer,creditIdle_ok,creditTreasury_ok,
    raiseStrategyWatermark_ok] at h
  obtain ⟨hauth,hpos,hbenji,token,htoken,c,htransfer,fee,net,hfee,htreasury,h⟩ := h
  obtain ⟨hmark,hidle,hassets,h⟩ := h
  obtain ⟨rfl,rfl,-,-⟩ := calculateProtocolFee_eq_ok hfee
  exact ⟨token,_,c,hauth,hpos,hbenji,rfl,htoken,htransfer,htreasury,hidle,hassets,hmark,h.symm⟩

theorem accrueKoreanDebtYield_ok {harvested : ℤ} :
    (accrueKoreanDebtYield env).run l = .ok harvested t ↔ ∃ admin strategy c,
      l.storage.proxy.admin = some admin ∧ env.auth admin = true ∧
      l.storage.koreanDebtStrategy = some strategy ∧
      env.host.harvestYield strategy l.chain = some (harvested,c) ∧ 0 < harvested ∧
      I128 ((getState l.storage).totalAssets+harvested) ∧
      t = ⟨setState { getState l.storage with
        totalAssets := (getState l.storage).totalAssets+harvested } l.storage,c,l.log⟩ := by
  constructor
  · intro h
    simp [accrueKoreanDebtYield] at h
    obtain ⟨admin,hadmin,hauth,strategy,hstrategy,c,hharvest,hpos,hfit,h⟩ := h
    exact ⟨admin,strategy,c,hadmin,hauth,hstrategy,hharvest,hpos,hfit,h.symm⟩
  · rintro ⟨admin,strategy,c,hadmin,hauth,hstrategy,hharvest,hpos,hfit,rfl⟩
    simp [accrueKoreanDebtYield,hadmin,hauth,hstrategy,hharvest,hpos]
    exact hfit

theorem claimFees_ok (h : (claimFees env).run l = .ok u t) :
    ∃ admin treasury token c,
      l.storage.proxy.admin = some admin ∧ env.auth admin = true ∧
      l.storage.treasury = some treasury ∧ treasuryBalance l.storage ≠ 0 ∧
      l.storage.tokenAsset = some token ∧
      env.host.transfer token env.host.vault treasury (treasuryBalance l.storage) l.chain =
        some c ∧
      t = ⟨setTreasuryBalance 0 l.storage,c,
        .event (.feesClaimed treasury (treasuryBalance l.storage)) ::
          .transfer token env.host.vault treasury (treasuryBalance l.storage) :: l.log⟩ := by
  simp [claimFees,loadToken_ok,tokenTransfer] at h
  obtain ⟨admin,hadmin,hauth,treasury,htreasury,hne,token,htoken,c,htransfer,h⟩ := h
  exact ⟨admin,treasury,token,c,hadmin,hauth,htreasury,hne,htoken,htransfer,h.symm⟩

end Outcomes

end YieldVault
