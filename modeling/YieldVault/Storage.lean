import YieldVault.FixedWidth

/-! The vault contract's data: the types it stores, its error codes, and its
instance storage with one optional entry per storage key. -/
namespace YieldVault

structure Address where
  id : ℕ
  deriving DecidableEq

abbrev BytesN32 := BitVec 256

abbrev I128 (x : ℤ) : Prop := FixedWidth.Fits 128 x

abbrev i128Max : ℤ := FixedWidth.maxSigned 128

inductive ShipmentStatus
  | pending | inTransit | delivered | cancelled
  deriving DecidableEq

inductive PauseReason
  | none | securityIncident | oracleFailure | liquidityCrisis | governance | maintenance | other
  deriving DecidableEq

def PauseReason.code : PauseReason → ℕ
  | .none => 0
  | .securityIncident => 1
  | .oracleFailure => 2
  | .liquidityCrisis => 3
  | .governance => 4
  | .maintenance => 5
  | .other => 6

structure VaultState where
  totalShares : ℤ
  totalAssets : ℤ
  isPaused : Bool
  deriving DecidableEq

structure StrategyProposal where
  strategy : Address
  yesVotes : ℤ
  noVotes : ℤ
  executed : Bool
  deriving DecidableEq

/-- A deferred withdrawal; `withdraw` is its only writer and has checked the amount. -/
structure PendingWithdrawal where
  shares : ℤ
  unlockTimestamp : ℕ
  shares_pos : 0 < shares

/-- A protocol fee in basis points; the one setter rejects everything outside 0–10000. -/
structure FeeRate where
  bps : ℤ
  nonneg : 0 ≤ bps
  le_max : bps ≤ 10000

structure DepositEntry where
  user : Address
  amount : ℤ
  deriving DecidableEq

structure DepositResult where
  user : Address
  sharesMinted : ℤ
  success : Bool
  errorCode : ℕ
  deriving DecidableEq

structure BatchDepositResult where
  results : List DepositResult
  totalSharesMinted : ℤ
  successCount : ℕ
  failureCount : ℕ
  deriving DecidableEq

inductive VaultError
  | alreadyInitialized | insufficientShares | invalidAmount | contractPaused | exceedsUserCap
  | minDepositNotMet | timelockNotExpired | noPendingWithdrawal | liquidityBufferNotMet
  | exceedsStrategyCap | exceedsRiskThreshold | withdrawalCooldownActive | invalidMigrationTarget
  | mathOverflow | slippageExceeded | batchTooLarge | relayerNotAuthorized
  deriving DecidableEq

def VaultError.code : VaultError → ℕ
  | .alreadyInitialized => 1
  | .insufficientShares => 2
  | .invalidAmount => 3
  | .contractPaused => 4
  | .exceedsUserCap => 5
  | .minDepositNotMet => 6
  | .timelockNotExpired => 7
  | .noPendingWithdrawal => 8
  | .liquidityBufferNotMet => 9
  | .exceedsStrategyCap => 10
  | .exceedsRiskThreshold => 11
  | .withdrawalCooldownActive => 12
  | .invalidMigrationTarget => 13
  | .mathOverflow => 14
  | .slippageExceeded => 15
  | .batchTooLarge => 16
  | .relayerNotAuthorized => 17

inductive EmergencyActionKind
  | pause | unpause | emergencyDivest | forceUpgrade
  deriving DecidableEq

def EmergencyActionKind.code : EmergencyActionKind → ℕ
  | .pause => 1
  | .unpause => 2
  | .emergencyDivest => 3
  | .forceUpgrade => 4

structure EmergencyProposal where
  kind : EmergencyActionKind
  pauseReasonCode : ℕ
  divestAmount : Option ℤ
  wasmHash : Option BytesN32
  initiator : Address
  confirmed : Bool
  executed : Bool
  deriving DecidableEq

/-- The slots of `ProxyDataKey`, apart from those of `DataKey`. -/
structure ProxyStorage where
  admin : Option Address := none
  initialized : Option Bool := none
  pendingAdmin : Option Address := none
  storageVersion : Option ℕ := none

/-- Instance storage: one field per `DataKey`, a map for each parameterised key. -/
structure Storage where
  proxy : ProxyStorage := {}
  tokenAsset : Option Address := none
  totalShares : Option ℤ := none
  totalAssets : Option ℤ := none
  admin : Option Address := none
  strategy : Option Address := none
  state : Option VaultState := none
  daoThreshold : Option ℤ := none
  proposalNonce : Option ℕ := none
  benjiStrategy : Option Address := none
  koreanDebtStrategy : Option Address := none
  pauseReason : Option PauseReason := none
  emergencyApproverPrimary : Option Address := none
  emergencyApproverSecondary : Option Address := none
  emergencyProposalNonce : Option ℕ := none
  emergencyProposal : ℕ → Option EmergencyProposal := fun _ => none
  proposal : ℕ → Option StrategyProposal := fun _ => none
  vote : ℕ → Address → Option Bool := fun _ _ => none
  shareBalance : Address → Option ℤ := fun _ => none
  shipmentByStatus : ShipmentStatus → Option (List ℕ) := fun _ => none
  shipmentStatusOf : ℕ → Option ShipmentStatus := fun _ => none
  userDeposit : Address → Option ℤ := fun _ => none
  perUserCap : Option ℤ := none
  strategyWhitelist : Address → Option Bool := fun _ => none
  strategyCap : Address → Option ℤ := fun _ => none
  strategyRiskThreshold : Address → Option ℤ := fun _ => none
  strategyWatermark : Address → Option ℤ := fun _ => none
  feeBps : Option FeeRate := none
  treasury : Option Address := none
  treasuryBalance : Option ℤ := none
  largeWithdrawalThreshold : Option ℤ := none
  pendingWithdrawal : Address → Option PendingWithdrawal := fun _ => none
  minDeposit : Option ℤ := none
  minLiquidityBuffer : Option ℤ := none
  priceOracle : Option Address := none
  oracleEnabled : Option Bool := none
  oracleHeartbeat : Option ℕ := none
  withdrawalCooldown : Option ℕ := none
  lastDepositTime : Address → Option ℕ := fun _ => none
  checkpointNonce : Option ℕ := none
  checkpointTotalShares : ℕ → Option ℤ := fun _ => none
  checkpointTotalAssets : ℕ → Option ℤ := fun _ => none
  userCheckpoint : Address → Option ℕ := fun _ => none
  userBalanceAt : Address → ℕ → Option ℤ := fun _ _ => none
  relayerWhitelist : Address → Option Bool := fun _ => none
  maxBatchSize : Option ℕ := none

section Views

variable (s : Storage)

def getState : VaultState := s.state.getD ⟨0,0,false⟩

/-- The idle balance kept under `DataKey::TotalAssets`. -/
def idleAssets : ℤ := s.totalAssets.getD 0

/-- The share supply kept under `DataKey::TotalShares`, beside the one in the state record. -/
def storedTotalShares : ℤ := s.totalShares.getD 0

def balance (user : Address) : ℤ := (s.shareBalance user).getD 0
def userDeposit (user : Address) : ℤ := (s.userDeposit user).getD 0
def strategyWatermark (strategy : Address) : ℤ := (s.strategyWatermark strategy).getD 0
def isStrategyWhitelisted (strategy : Address) : Bool := (s.strategyWhitelist strategy).getD false
def isRelayer (relayer : Address) : Bool := (s.relayerWhitelist relayer).getD false
def isPaused : Bool := (getState s).isPaused
def pauseReason : Option PauseReason := if isPaused s then s.pauseReason else none
def perUserCap : ℤ := s.perUserCap.getD i128Max
def maxBatchSize : ℕ := s.maxBatchSize.getD 50
def feeBps : ℤ := (s.feeBps.map FeeRate.bps).getD 0
def treasuryBalance : ℤ := s.treasuryBalance.getD 0
def largeWithdrawalThreshold : ℤ := s.largeWithdrawalThreshold.getD i128Max
def minDeposit : ℤ := s.minDeposit.getD 0
def minLiquidityBuffer : ℤ := s.minLiquidityBuffer.getD 0
def withdrawalCooldown : ℕ := s.withdrawalCooldown.getD 0
def lastDepositTime (user : Address) : ℕ := (s.lastDepositTime user).getD 0
def isInitialized : Bool := s.proxy.initialized.getD false
def storageVersion : ℕ := s.proxy.storageVersion.getD 0

end Views

theorem feeBps_nonneg (s : Storage) : 0 ≤ feeBps s := by
  cases h : s.feeBps with
  | none => simp [feeBps,h]
  | some rate => simpa [feeBps,h] using rate.nonneg

theorem feeBps_le (s : Storage) : feeBps s ≤ 10000 := by
  cases h : s.feeBps with
  | none => simp [feeBps,h]
  | some rate => simpa [feeBps,h] using rate.le_max

/-- Reading an optional map through its default commutes with writing one key. -/
theorem getD_update {K V : Type} [DecidableEq K] (m : K → Option V) (k : K) (v d : V) :
    (fun x => (Function.update m k (some v) x).getD d) =
      Function.update (fun x => (m x).getD d) k v := by
  funext x
  by_cases h : x = k <;> simp [Function.update,h]

end YieldVault
