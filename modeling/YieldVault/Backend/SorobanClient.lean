import YieldVault.Backend.VaultHandler
import YieldVault.EntryPoints

/-! The call of the vault contract that the backend builds for an operation, and the
functions that the contract exports. -/
namespace YieldVault.Backend

inductive ScType
  | address | i128 | u32 | u64 | bool | bytesN32 | string
  | option (type : ScType) | vec (type : ScType) | custom (name : String)
  deriving DecidableEq

/-- The values that the backend passes. -/
inductive ScVal
  | address (address : Address)
  | i128 (value : ℤ)
  | string (text : String)

def ScVal.type : ScVal → ScType
  | .address _ => .address
  | .i128 _ => .i128
  | .string _ => .string

structure ContractCall where
  function : String
  args : List ScVal

/-- The functions of the vault contract, with the types of their arguments. -/
def vaultInterface : List (String × List ScType) :=
  [("initialize",[.address,.address]),("upgrade",[.bytesN32]),("migrate_storage",[.u32]),
    ("storage_version",[]),("contract_version",[]),("propose_admin",[.address]),("accept_admin",[]),
    ("cancel_admin_rotation",[]),("admin",[]),("pending_admin",[]),("set_strategy",[.address]),
    ("whitelist_strategy",[.address,.bool]),("is_strategy_whitelisted",[.address]),("strategy",[]),
    ("pause",[.custom "PauseReason"]),("unpause",[]),("is_paused",[]),("pause_reason",[]),
    ("set_emergency_approvers",[.address,.address]),("emergency_approver_primary",[]),
    ("emergency_approver_secondary",[]),
    ("propose_emergency_action",
      [.address,.custom "EmergencyActionKind",.u32,.option .i128,.option .bytesN32]),
    ("confirm_emergency_action",[.address,.u32]),("emergency_proposal",[.u32]),
    ("set_per_user_cap",[.i128]),("per_user_cap",[]),("user_deposit",[.address]),("token",[]),
    ("total_shares",[]),("total_assets",[]),("share_price",[]),("balance",[.address]),
    ("create_checkpoint",[]),("total_shares_at",[.u32]),("total_assets_at",[.u32]),
    ("snapshot_user_balance",[.address]),("balance_at",[.address,.u32]),("benji_strategy",[]),
    ("korean_strategy",[]),("configure_korean_strategy",[.address]),("accrue_korean_debt_yield",[]),
    ("set_dao_threshold",[.i128]),("create_strategy_proposal",[.address,.address]),
    ("vote_on_proposal",[.address,.u32,.bool,.i128]),("execute_strategy_proposal",[.u32]),
    ("add_shipment",[.u64,.custom "ShipmentStatus"]),
    ("update_shipment_status",[.u64,.custom "ShipmentStatus"]),
    ("shipment_ids_by_status",[.custom "ShipmentStatus",.option .u64,.u32]),
    ("calculate_shares",[.i128]),("calculate_assets",[.i128]),("deposit",[.address,.i128]),
    ("set_relayer",[.address,.bool]),("is_relayer",[.address]),("set_max_batch_size",[.u32]),
    ("max_batch_size",[]),("batch_deposit",[.address,.vec (.custom "DepositEntry")]),
    ("withdraw",[.address,.i128]),("execute_withdrawal",[.address]),("invest",[.i128]),
    ("divest",[.i128]),("rebalance",[.address,.address,.i128,.i128,.i128]),("accrue_yield",[.i128]),
    ("set_fee_bps",[.i128]),("fee_bps",[]),("set_treasury",[.address]),("treasury",[]),
    ("treasury_balance",[]),("claim_fees",[]),("set_large_withdrawal_threshold",[.i128]),
    ("large_withdrawal_threshold",[]),("set_min_deposit",[.i128]),("min_deposit",[]),
    ("set_min_liquidity_buffer",[.i128]),("min_liquidity_buffer",[]),
    ("set_withdrawal_cooldown",[.u64]),("withdrawal_cooldown",[]),("set_price_oracle",[.address]),
    ("price_oracle",[]),("set_oracle_enabled",[.bool]),("is_oracle_enabled",[]),
    ("set_oracle_heartbeat",[.u64]),("oracle_heartbeat",[]),("set_strategy_cap",[.address,.i128]),
    ("set_strategy_risk_threshold",[.address,.i128]),("strategy_watermark",[.address]),
    ("report_benji_yield",[.address,.i128]),("storage_key_registry",[]),("metadata",[])]

/-- The call names a function of the contract and has its arguments. -/
def ContractCall.isExported (call : ContractCall) : Prop :=
  (call.function,call.args.map ScVal.type) ∈ vaultInterface

/-- What the contract is called with; the backend names no other functions of it. -/
def ContractCall.entry : ContractCall → Option YieldVault.Call
  | ⟨"deposit",[.address user,.i128 amount]⟩ => some (.deposit user amount)
  | ⟨"withdraw",[.address user,.i128 shares]⟩ => some (.withdraw user shares)
  | _ => none

def ContractCall.amount (call : ContractCall) : Option ℤ :=
  call.args.findSome? fun
    | .i128 value => some value
    | _ => none

/-- The code that the client uses: the address that a valid key stands for, and the
floating-point number that is next to a decimal number. -/
structure SorobanClient where
  toAddress : String → Option Address
  number : ℚ → ℚ

def mathRound (x : ℚ) : ℤ := ⌊x+1/2⌋

/-- The conversion to a contract value keeps the low 128 bits, read as a signed number. -/
def nativeToI128 (value : ℤ) : ℤ := value.bmod (2^128)

def OperationType.name : OperationType → String
  | .deposit => "deposit"
  | .withdrawal => "withdrawal"

/-- `submitVaultOperation` up to the simulation: the call that is built, signed and sent. -/
def submitVaultOperation (client : SorobanClient) (operationType : OperationType)
    (walletAddress : String) (amount : ℚ) (asset : String) :
    Except OperationError ContractCall :=
  match client.toAddress walletAddress with
  | none => .error (.simulation 422 "INVALID_ADDRESS"
      ("Invalid Stellar wallet address: " ++ walletAddress))
  | some wallet =>
    let amountBigInt := mathRound (client.number amount)
    .ok ⟨operationType.name,[.address wallet,.i128 (nativeToI128 amountBigInt),.string asset]⟩

theorem submitVaultOperation_eq_ok {client : SorobanClient} {operationType : OperationType}
    {walletAddress asset : String} {amount : ℚ} {call : ContractCall}
    (h : submitVaultOperation client operationType walletAddress amount asset = .ok call) :
    ∃ wallet, call = ⟨operationType.name,
      [.address wallet,.i128 (nativeToI128 (mathRound (client.number amount))),
        .string asset]⟩ := by
  unfold submitVaultOperation at h
  split at h
  · cases h
  · exact ⟨_,(Except.ok.inj h).symm⟩

/-- No function takes the three arguments that are passed. -/
theorem not_isExported_of_submit {client : SorobanClient} {operationType : OperationType}
    {walletAddress asset : String} {amount : ℚ} {call : ContractCall}
    (h : submitVaultOperation client operationType walletAddress amount asset = .ok call) :
    ¬ call.isExported := by
  obtain ⟨wallet,rfl⟩ := submitVaultOperation_eq_ok h
  unfold ContractCall.isExported
  cases operationType <;> simp only [OperationType.name,List.map_cons,List.map_nil,ScVal.type] <;>
    decide

theorem amount_of_submit {client : SorobanClient} {operationType : OperationType}
    {walletAddress asset : String} {amount : ℚ} {call : ContractCall}
    (h : submitVaultOperation client operationType walletAddress amount asset = .ok call) :
    call.amount = some (nativeToI128 (mathRound (client.number amount))) := by
  obtain ⟨wallet,rfl⟩ := submitVaultOperation_eq_ok h
  rfl

theorem i128_nativeToI128 (value : ℤ) : I128 (nativeToI128 value) := by
  have hle := Int.le_bmod (x := value) (m := 2^128) (by decide)
  have hlt := Int.bmod_lt (x := value) (m := 2^128) (by decide)
  unfold nativeToI128 I128 FixedWidth.Fits
  omega

theorem nativeToI128_eq_iff {value n : ℤ} (hnear : |value-n| < 2^128) :
    nativeToI128 value = n ↔ I128 n ∧ value = n := by
  constructor
  · intro h
    refine ⟨h ▸ i128_nativeToI128 value,?_⟩
    have hdvd : (2^128 : ℤ) ∣ value-n := by
      rw [← h]
      exact Int.dvd_self_sub_bmod
    exact sub_eq_zero.mp (Int.eq_zero_of_abs_lt_dvd hdvd hnear)
  · rintro ⟨hfits,rfl⟩
    unfold I128 FixedWidth.Fits at hfits
    exact Int.bmod_eq_of_le (by omega) (by omega)

@[simp] theorem mathRound_intCast (n : ℤ) : mathRound n = n := by
  unfold mathRound
  rw [Int.floor_eq_iff]
  constructor <;> linarith

end YieldVault.Backend
