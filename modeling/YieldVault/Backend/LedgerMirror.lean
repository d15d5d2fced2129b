import YieldVault.Backend.SorobanClient

/-! The books of the backend beside the vault contract. They would mirror each other if the
calls that the backend builds were calls of the contract. -/
namespace YieldVault.Backend

/-- What the operation of a request leaves in the books. -/
def Ledger.record (cfg : VaultConfig) (request : VaultRequest) (recordedAt : ℕ) (ledger : Ledger) :
    Ledger :=
  (ledger.createTransaction request.route.type (request.wallet cfg) request.body recordedAt)
    |>.updateVaultStateAndSnapshot cfg.decimals request.route.type request.body.amount recordedAt

/-- The steps of an operation on the server that go well do the same. -/
theorem operate_records (cfg : VaultConfig) (request : VaultRequest) (ledger : Ledger)
    (landed : Bool) (txHash id : String) (recordedAt now : ℕ) :
    ∃ created step,
      VaultServer.operate cfg request (.submitted landed (.ok txHash)) .submitting ledger =
        some (.inserting txHash,ledger) ∧
      VaultServer.operate cfg request (.inserted recordedAt recordedAt (.ok ()))
        (.inserting txHash) ledger = some (.updating txHash recordedAt,created) ∧
      VaultServer.operate cfg request (.updated now id (.ok ())) (.updating txHash recordedAt)
        created = some (step,ledger.record cfg request recordedAt) :=
  ⟨_,_,rfl,rfl,rfl⟩

/-- A request that the schema accepts and whose call of the contract is sent. -/
structure AcceptedRequest (cfg : VaultConfig) (client : SorobanClient) where
  request : VaultRequest
  recordedAt : ℕ
  call : ContractCall
  schema : vaultOperationSchema cfg request.body = true
  submitted : submitVaultOperation client request.route.type request.body.walletAddress
    request.body.amount request.body.asset = .ok call

section Mirror

variable {cfg : VaultConfig} {client : SorobanClient}

def books (accepted : List (AcceptedRequest cfg client)) : Ledger :=
  accepted.foldl (fun ledger a => ledger.record cfg a.request a.recordedAt) {}

def AcceptedRequest.row (a : AcceptedRequest cfg client) : TransactionRow :=
  ⟨a.request.wallet cfg,a.request.body.amount,a.request.route.type,"completed",
    a.request.body.referralCode,a.recordedAt⟩

theorem transactions_foldl (accepted : List (AcceptedRequest cfg client)) (ledger : Ledger) :
    (accepted.foldl (fun ledger a => ledger.record cfg a.request a.recordedAt)
      ledger).transactions = ledger.transactions ++ accepted.map AcceptedRequest.row := by
  induction accepted generalizing ledger with
  | nil => simp
  | cons a accepted ih =>
    rw [List.foldl_cons,ih]
    simp [Ledger.record,Ledger.createTransaction,Ledger.updateVaultStateAndSnapshot,
      AcceptedRequest.row]

theorem transactions_books (accepted : List (AcceptedRequest cfg client)) :
    (books accepted).transactions = accepted.map AcceptedRequest.row :=
  (transactions_foldl accepted {}).trans (List.nil_append _)

def AmountsMatch (accepted : List (AcceptedRequest cfg client)) : Prop :=
  List.Forall₂ (fun (row : TransactionRow) (a : AcceptedRequest cfg client) =>
    ∃ amount : ℤ, a.call.amount = some amount ∧ row.amount = amount) (books accepted).transactions
    accepted

inductive Executes {σ : Type} (host : Host σ) :
    List ContractCall → YieldVault.Ledger σ → YieldVault.Ledger σ → Prop
  | nil (l : YieldVault.Ledger σ) : Executes host [] l l
  | cons (call : ContractCall) (rest : List ContractCall) (inv : Invocation host.vault)
      (l m t : YieldVault.Ledger σ) (v : Value) (entry : call.entry = some inv.call)
      (ran : (dispatch inv.env inv.call).run l = .ok v m) (later : Executes host rest m t) :
      Executes host (call :: rest) l t

/-- The books mirror the contract: the same amounts, calls of its functions, and its totals
up to the rounding of each step. -/
structure Mirrors (accepted : List (AcceptedRequest cfg client)) : Prop where
  amounts : AmountsMatch accepted
  exported : ∀ a ∈ accepted, a.call.isExported
  totals : ∀ (σ : Type) (host : Host σ) (l t : YieldVault.Ledger σ),
    Executes host (accepted.map AcceptedRequest.call) l t →
    (getState l.storage).totalAssets = 0 → (getState l.storage).totalShares = 0 →
    |((books accepted).vaultState.getD ⟨0,0⟩).totalAssets-(getState t.storage).totalAssets| ≤
        accepted.length/10^6 ∧
      |((books accepted).vaultState.getD ⟨0,0⟩).totalShares-(getState t.storage).totalShares| ≤
        accepted.length/10^6

/-- The amounts match where they are integers of 128 bits that are floating-point numbers, given
that the number next to an integer is an integer, and near to those of 128 bits. -/
theorem amountsMatch_iff (hnumber : ∀ n : ℤ, ∃ m : ℤ, client.number n = m ∧
      (I128 n → |m-n| < 2^128)) (accepted : List (AcceptedRequest cfg client)) :
    AmountsMatch accepted ↔
      ∀ a ∈ accepted, ∃ n : ℤ, a.request.body.amount = n ∧ I128 n ∧ client.number n = n := by
  unfold AmountsMatch
  rw [transactions_books,List.forall₂_map_left_iff,List.forall₂_same]
  refine forall₂_congr fun a _ => ⟨?_,?_⟩
  · rintro ⟨amount,hcall,hrow⟩
    have hbody : a.request.body.amount = amount := hrow
    have hsent := Option.some.inj ((amount_of_submit a.submitted).symm.trans hcall)
    have hfits : I128 amount := hsent ▸ i128_nativeToI128 _
    obtain ⟨m,hm,hnear⟩ := hnumber amount
    rw [hbody,hm,mathRound_intCast] at hsent
    obtain ⟨-,rfl⟩ := (nativeToI128_eq_iff (hnear hfits)).mp hsent
    exact ⟨m,hbody,hfits,hm⟩
  · rintro ⟨n,hbody,hfits,hn⟩
    refine ⟨n,?_,hbody⟩
    have hself : nativeToI128 n = n := (nativeToI128_eq_iff (by simp)).mpr ⟨hfits,rfl⟩
    rw [amount_of_submit a.submitted,hbody,hn,mathRound_intCast,hself]

/-- No request at all is what it takes for the books to mirror the contract. -/
theorem mirrors_iff (accepted : List (AcceptedRequest cfg client)) :
    Mirrors accepted ↔ accepted = [] := by
  constructor
  · intro h
    cases accepted with
    | nil => rfl
    | cons a rest =>
      exact absurd (h.exported a List.mem_cons_self) (not_isExported_of_submit a.submitted)
  · rintro rfl
    refine ⟨.nil,fun _ h => absurd h List.not_mem_nil,fun σ host l t hexecutes hassets hshares => ?_⟩
    cases hexecutes
    simp [books,hassets,hshares]

end Mirror

def aliceClient : SorobanClient := ⟨fun _ => some ⟨2⟩,fun x => x⟩

/-- A deposit of 1.5 units, and the call that is sent for it. -/
def aliceDeposit : AcceptedRequest openConfig aliceClient where
  request := ⟨.deposits,none,aliceBody (3/2),.operating .submitting,none,none⟩
  recordedAt := 1
  call := ⟨"deposit",[.address ⟨2⟩,.i128 2,.string "USDC"]⟩
  schema := by with_unfolding_all rfl
  submitted := by with_unfolding_all rfl

/-- Its books do not mirror the contract. -/
theorem aliceDeposit_not_mirrored :
    ¬ ∀ accepted : List (AcceptedRequest openConfig aliceClient), Mirrors accepted :=
  fun h => not_isExported_of_submit aliceDeposit.submitted
    ((h [aliceDeposit]).exported aliceDeposit List.mem_cons_self)

end YieldVault.Backend
