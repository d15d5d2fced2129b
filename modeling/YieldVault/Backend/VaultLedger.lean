import YieldVault.Runs

/-! The backend's own books: a row for each deposit and withdrawal, the vault's totals, and
a snapshot of the share price after each operation. Amounts are the exact values of the
decimal strings that the rows hold. -/
namespace YieldVault.Backend

inductive OperationType
  | deposit | withdrawal
  deriving DecidableEq

/-- The body of a request, with the amount as a number. -/
structure VaultOperationBody where
  amount : ℚ
  asset : String
  walletAddress : String
  email : Option String := none
  referralCode : Option String := none
  nonce : Option String := none
  signature : Option String := none
  deriving DecidableEq

structure TransactionRow where
  user : String
  amount : ℚ
  type : OperationType
  status : String
  referralCode : Option String
  timestamp : ℕ

structure VaultStateRow where
  totalAssets : ℚ
  totalShares : ℚ

structure SharePriceSnapshot where
  sharePrice : ℚ
  totalAssets : ℚ
  totalShares : ℚ
  source : String
  recordedAt : ℕ

/-- The arithmetic of decimal numbers: a result is rounded to the significant digits of
the library, and `toFixed` to decimal places. -/
structure DecimalArithmetic where
  plus : ℚ → ℚ → ℚ
  minus : ℚ → ℚ → ℚ
  div : ℚ → ℚ → ℚ
  toFixed : ℕ → ℚ → ℚ

structure Ledger where
  transactions : List TransactionRow := []
  vaultState : Option VaultStateRow := none
  sharePriceSnapshots : List SharePriceSnapshot := []

namespace Ledger

/-- `transaction.create` of the handler; `user` is the normalized wallet. -/
def createTransaction (type : OperationType) (user : String) (body : VaultOperationBody)
    (now : ℕ) (ledger : Ledger) : Ledger :=
  { ledger with transactions := ledger.transactions ++
      [⟨user,body.amount,type,"completed",body.referralCode,now⟩] }

def DEFAULT_SHARE_PRICE : ℚ := 1

def sharePrice (decimals : DecimalArithmetic) (assets shares : ℚ) : ℚ :=
  if 0 < assets ∧ 0 < shares then decimals.div assets shares else DEFAULT_SHARE_PRICE

def snapshotSource : OperationType → String
  | .deposit => "vault_deposit"
  | .withdrawal => "vault_withdrawal"

/-- The totals after an operation, before they are rounded. -/
def nextTotals (decimals : DecimalArithmetic) (type : OperationType) (amount assets shares : ℚ) :
    ℚ × ℚ :=
  let moved := decimals.div amount (sharePrice decimals assets shares)
  match type with
  | .deposit => (decimals.plus assets amount,decimals.plus shares moved)
  | .withdrawal => (max 0 (decimals.minus assets amount),max 0 (decimals.minus shares moved))

/-- One database transaction: the totals are replaced, and a snapshot is added. -/
def updateVaultStateAndSnapshot (decimals : DecimalArithmetic) (type : OperationType)
    (amount : ℚ) (recordedAt : ℕ) (ledger : Ledger) : Ledger :=
  let current := ledger.vaultState.getD ⟨0,0⟩
  let (assets,shares) := nextTotals decimals type amount current.totalAssets current.totalShares
  let row : VaultStateRow := ⟨decimals.toFixed 6 assets,decimals.toFixed 6 shares⟩
  { ledger with
    vaultState := some row
    sharePriceSnapshots := ledger.sharePriceSnapshots ++
      [⟨decimals.toFixed 6 (sharePrice decimals assets shares),row.totalAssets,row.totalShares,
        snapshotSource type,recordedAt⟩] }

end Ledger

end YieldVault.Backend
