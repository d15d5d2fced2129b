import YieldVault.Shares
import YieldVault.Governance
import YieldVault.Runs

/-! The contract as a machine. An action is an invocation of one entry point or
a change elsewhere on the chain; a failed invocation leaves nothing behind. -/
namespace YieldVault

open Contract

variable {σ : Type}

/-- The state-changing entry points, and the one view that calls another contract. -/
inductive Call
  | initializeVault (admin token : Address)
  | upgrade (newWasmHash : BytesN32)
  | migrateStorage (targetVersion : ℕ)
  | proposeAdmin (newAdmin : Address)
  | acceptAdmin
  | cancelAdminRotation
  | setting (setting : Setting)
  | pause (reason : PauseReason)
  | unpause
  | proposeEmergencyAction (initiator : Address) (kind : EmergencyActionKind)
      (pauseReasonCode : ℕ) (divestAmount : Option ℤ) (wasmHash : Option BytesN32)
  | confirmEmergencyAction (confirmer : Address) (proposalId : ℕ)
  | createCheckpoint
  | snapshotUserBalance (user : Address)
  | accrueKoreanDebtYield
  | createStrategyProposal (proposer strategy : Address)
  | voteOnProposal (voter : Address) (proposalId : ℕ) (support : Bool) (weight : ℤ)
  | executeStrategyProposal (proposalId : ℕ)
  | addShipment (shipmentId : ℕ) (status : ShipmentStatus)
  | updateShipmentStatus (shipmentId : ℕ) (newStatus : ShipmentStatus)
  | deposit (user : Address) (amount : ℤ)
  | batchDeposit (relayer : Address) (entries : List DepositEntry)
  | withdraw (user : Address) (shares : ℤ)
  | executeWithdrawal (user : Address)
  | invest (amount : ℤ)
  | divest (amount : ℤ)
  | rebalance (fromStrategy toStrategy : Address) (amount minDivestValue minInvestValue : ℤ)
  | accrueYield (amount : ℤ)
  | reportBenjiYield (strategy : Address) (amount : ℤ)
  | claimFees
  | totalAssets

inductive Value
  | unit
  | amount (value : ℤ)
  | id (value : ℕ)
  | batch (result : BatchDepositResult)
  deriving DecidableEq

def Value.ofUnit (_ : Unit) : Value := .unit

def dispatch (env : Env σ) : Call → VaultM σ Value
  | .initializeVault admin token => .ofUnit <$> initializeVault admin token
  | .upgrade hash => .ofUnit <$> upgrade env hash
  | .migrateStorage version => .ofUnit <$> migrateStorage env version
  | .proposeAdmin newAdmin => .ofUnit <$> proposeAdmin env newAdmin
  | .acceptAdmin => .ofUnit <$> acceptAdmin env
  | .cancelAdminRotation => .ofUnit <$> cancelAdminRotation env
  | .setting setting => .ofUnit <$> applySetting env setting
  | .pause reason => .ofUnit <$> pause env reason
  | .unpause => .ofUnit <$> unpause env
  | .proposeEmergencyAction initiator kind code amount hash =>
    .id <$> proposeEmergencyAction env initiator kind code amount hash
  | .confirmEmergencyAction confirmer id => .ofUnit <$> confirmEmergencyAction env confirmer id
  | .createCheckpoint => .id <$> createCheckpoint env
  | .snapshotUserBalance user => .ofUnit <$> snapshotUserBalance env user
  | .accrueKoreanDebtYield => .amount <$> accrueKoreanDebtYield env
  | .createStrategyProposal proposer strategy => .id <$> createStrategyProposal env proposer strategy
  | .voteOnProposal voter id support weight => .ofUnit <$> voteOnProposal env voter id support weight
  | .executeStrategyProposal id => .ofUnit <$> executeStrategyProposal id
  | .addShipment id status => .ofUnit <$> addShipment env id status
  | .updateShipmentStatus id status => .ofUnit <$> updateShipmentStatus env id status
  | .deposit user amount => .amount <$> deposit env user amount
  | .batchDeposit relayer entries => .batch <$> batchDeposit env relayer entries
  | .withdraw user shares => .amount <$> withdraw env user shares
  | .executeWithdrawal user => .amount <$> executeWithdrawal env user
  | .invest amount => .ofUnit <$> invest env amount
  | .divest amount => .ofUnit <$> divest env amount
  | .rebalance fromStrategy toStrategy amount minDivest minInvest =>
    .ofUnit <$> rebalance env fromStrategy toStrategy amount minDivest minInvest
  | .accrueYield amount => .ofUnit <$> accrueYield env amount
  | .reportBenjiYield strategy amount => .ofUnit <$> reportBenjiYield env strategy amount
  | .claimFees => .ofUnit <$> claimFees env
  | .totalAssets => .amount <$> totalAssets env

/-- The calls that only change settings, roles, votes, checkpoints and shipments. -/
def Call.isQuiet : Call → Bool
  | .proposeAdmin _ | .acceptAdmin | .cancelAdminRotation | .setting _ | .createCheckpoint
  | .snapshotUserBalance _ | .createStrategyProposal _ _ | .voteOnProposal _ _ _ _
  | .executeStrategyProposal _ | .addShipment _ _ | .updateShipmentStatus _ _ => true
  | _ => false

theorem dispatch_quiet {env : Env σ} {l t : Ledger σ} {call : Call} {v : Value}
    (hq : call.isQuiet = true) (h : (dispatch env call).run l = .ok v t) : Quiet env l t := by
  cases call with
  | proposeAdmin newAdmin =>
    obtain ⟨_,h,-⟩ := map_eq_ok.mp h
    exact proposeAdmin_quiet h
  | acceptAdmin =>
    obtain ⟨_,h,-⟩ := map_eq_ok.mp h
    exact acceptAdmin_quiet h
  | cancelAdminRotation =>
    obtain ⟨_,h,-⟩ := map_eq_ok.mp h
    exact cancelAdminRotation_quiet h
  | setting setting =>
    obtain ⟨_,h,-⟩ := map_eq_ok.mp h
    exact applySetting_quiet h
  | createCheckpoint =>
    obtain ⟨_,h,-⟩ := map_eq_ok.mp h
    exact createCheckpoint_quiet h
  | snapshotUserBalance user =>
    obtain ⟨_,h,-⟩ := map_eq_ok.mp h
    exact snapshotUserBalance_quiet h
  | createStrategyProposal proposer strategy =>
    obtain ⟨_,h,-⟩ := map_eq_ok.mp h
    exact createStrategyProposal_quiet h
  | voteOnProposal voter id support weight =>
    obtain ⟨_,h,-⟩ := map_eq_ok.mp h
    exact voteOnProposal_quiet h
  | executeStrategyProposal id =>
    obtain ⟨_,h,-⟩ := map_eq_ok.mp h
    exact executeStrategyProposal_quiet h
  | addShipment id status =>
    obtain ⟨_,h,-⟩ := map_eq_ok.mp h
    exact addShipment_quiet h
  | updateShipmentStatus id status =>
    obtain ⟨_,h,-⟩ := map_eq_ok.mp h
    exact updateShipmentStatus_quiet h
  | _ => exact absurd hq Bool.false_ne_true

/-- One invocation: its place in time, who signed it, and the call. The vault has
no key and calls nobody that could act in its name, so it never signs. -/
structure Invocation (vault : Address) where
  timestamp : ℕ
  sequence : ℕ
  auth : Address → Bool
  unsigned : auth vault = false
  call : Call

def Invocation.env {host : Host σ} (inv : Invocation host.vault) : Env σ :=
  ⟨host,inv.timestamp,inv.sequence,inv.auth⟩

inductive Action (host : Host σ)
  | invoke (inv : Invocation host.vault)
  | outside (chain : σ)

/-- The ledger that an invocation leaves: rolled back unless it returned a value. -/
def settle {α : Type} (l : Ledger σ) : Outcome (Ledger σ) VaultError α → Ledger σ
  | .ok _ t => t
  | .err _ _ => l
  | .panic _ => l

def invoke {host : Host σ} (inv : Invocation host.vault) (l : Ledger σ) : Ledger σ :=
  settle l ((dispatch inv.env inv.call).run l)

def step (host : Host σ) : Action host → Ledger σ → Ledger σ
  | .invoke inv, l => invoke inv l
  | .outside chain, l => { l with chain := chain }

def genesis (chain : σ) : Ledger σ := ⟨{},chain,[]⟩

def runFrom (host : Host σ) (chain : σ) (acts : List (Action host)) : Ledger σ :=
  Runs.run (step host) acts (genesis chain)

def Reachable (host : Host σ) (l : Ledger σ) : Prop :=
  ∃ chain acts, l = runFrom host chain acts

/-- An invocation returns a value and moves the ledger, or it changes nothing. -/
theorem invoke_cases {host : Host σ} (inv : Invocation host.vault) (l : Ledger σ) :
    (∃ v, (dispatch inv.env inv.call).run l = .ok v (invoke inv l)) ∨ invoke inv l = l := by
  cases h : (dispatch inv.env inv.call).run l with
  | ok v t => exact Or.inl ⟨v,by simp [invoke,settle,h]⟩
  | err e t => exact Or.inr (by simp [invoke,settle,h])
  | panic m => exact Or.inr (by simp [invoke,settle,h])

/-- The same, saying of the second case that the invocation returned no value. -/
theorem invoke_or_refused {host : Host σ} (inv : Invocation host.vault) (l : Ledger σ) :
    (∃ v, (dispatch inv.env inv.call).run l = .ok v (invoke inv l)) ∨
      (∀ v t, (dispatch inv.env inv.call).run l ≠ .ok v t) ∧ invoke inv l = l := by
  cases h : (dispatch inv.env inv.call).run l with
  | ok v t => exact Or.inl ⟨v,by simp [invoke,settle,h]⟩
  | err e t => exact Or.inr ⟨by simp,by simp [invoke,settle,h]⟩
  | panic m => exact Or.inr ⟨by simp,by simp [invoke,settle,h]⟩

theorem step_of_ok {host : Host σ} {inv : Invocation host.vault} {l t : Ledger σ} {v : Value}
    (h : (dispatch inv.env inv.call).run l = .ok v t) : step host (.invoke inv) l = t := by
  change settle l ((dispatch inv.env inv.call).run l) = t
  rw [h]
  rfl

/-- A property of the storage that successful calls keep is kept by every step. -/
theorem step_storage {host : Host σ} {P : Storage → Prop}
    (hcall : ∀ (inv : Invocation host.vault) (l t : Ledger σ) (v : Value),
      (dispatch inv.env inv.call).run l = .ok v t → P l.storage → P t.storage)
    (l : Ledger σ) (a : Action host) (h : P l.storage) : P (step host a l).storage := by
  cases a with
  | outside c => exact h
  | invoke inv =>
    change P (invoke inv l).storage
    rcases invoke_cases inv l with ⟨v,hv⟩ | hsame
    · exact hcall inv l _ v hv h
    · rw [hsame]
      exact h

theorem run_storage {host : Host σ} {P : Storage → Prop}
    (hcall : ∀ (inv : Invocation host.vault) (l t : Ledger σ) (v : Value),
      (dispatch inv.env inv.call).run l = .ok v t → P l.storage → P t.storage)
    (acts : List (Action host)) {l : Ledger σ} (h : P l.storage) :
    P (Runs.run (step host) acts l).storage := by
  have hstep := step_storage hcall
  induction acts generalizing l with
  | nil => exact h
  | cons a acts ih => exact ih (hstep l a h)

end YieldVault
