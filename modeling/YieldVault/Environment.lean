import YieldVault.ContractMonad
import YieldVault.Storage

/-! What an invocation sees and changes. The token contract, the strategies and
the rest of the ledger are a parameter: the vault only calls them. A called
contract cannot reach the vault's storage, since the runtime refuses reentry. -/
namespace YieldVault

/-- The contracts around the vault, over an opaque state `σ` of the rest of the chain. -/
structure Host (σ : Type) where
  vault : Address
  balance (token holder : Address) : σ → ℤ
  transfer (token sender receiver : Address) (amount : ℤ) : σ → Option σ
  approve (token owner spender : Address) (amount : ℤ) (expiration : ℕ) : σ → Option σ
  deposit (strategy : Address) (amount : ℤ) : σ → Option σ
  withdraw (strategy : Address) (amount : ℤ) : σ → Option σ
  totalValue (strategy : Address) : σ → Option (ℤ × σ)
  harvestYield (strategy : Address) : σ → Option (ℤ × σ)
  updateWasm (hash : BytesN32) : σ → Option σ
  /-- What a strategy reports is an `i128`. -/
  totalValue_fits : ∀ {strategy c v c'}, totalValue strategy c = some (v,c') → I128 v

/-- The context of one invocation: the ledger's clock and who has authorised it. -/
structure Env (σ : Type) where
  host : Host σ
  timestamp : ℕ
  sequence : ℕ
  auth : Address → Bool

inductive Event
  | adminProposed (admin : Address) (previous : Option Address) (next : Address)
  | adminTransferred (previous next : Address)
  | adminCancelled (admin : Address) (pending : Option Address)
  | paused (reason : ℕ)
  | unpaused
  | emergencyProposed (id kind : ℕ)
  | emergencyExecuted (id kind : ℕ)
  | checkpoint (id : ℕ)
  | deposit (amount shares : ℤ)
  | batchDeposit (shares : ℤ) (successes failures : ℕ)
  | pendingWithdrawal (user : Address) (shares : ℤ) (unlock : ℕ)
  | withdraw (user : Address) (assets shares : ℤ)
  | feeAccrued (fee treasury : ℤ)
  | feeChanged (old new : ℤ)
  | feesClaimed (treasury : Address) (amount : ℤ)
  | minDepositChanged (old new : ℤ)
  | liquidityBufferChanged (old new : ℤ)
  | withdrawalCooldownChanged (old new : ℕ)
  | watermarkRaised (strategy : Address) (old new : ℤ)
  | migrated (old new : ℕ)
  deriving DecidableEq

/-- The calls the vault makes into other contracts, and the events it publishes. -/
inductive Effect
  | transfer (token sender receiver : Address) (amount : ℤ)
  | strategyDeposit (strategy : Address) (amount : ℤ)
  | strategyWithdraw (strategy : Address) (amount : ℤ)
  | updateWasm (hash : BytesN32)
  | event (e : Event)
  deriving DecidableEq

/-- The vault's storage, the rest of the chain, and the effects so far, newest first. -/
structure Ledger (σ : Type) where
  storage : Storage
  chain : σ
  log : List Effect

abbrev VaultM (σ α : Type) := Contract (Ledger σ) VaultError α

section Primitives

open Contract

variable {σ α β : Type}

def load (f : Storage → α) : VaultM σ α := read fun l => f l.storage

def store (f : Storage → Storage) : VaultM σ Unit := write fun l => { l with storage := f l.storage }

def publish (e : Event) : VaultM σ Unit := write fun l => { l with log := .event e :: l.log }

def requireAuth (env : Env σ) (who : Address) : VaultM σ Unit :=
  demand (env.auth who = true) "Error(Auth, InvalidAction)"

/-- A call into another contract; a failure there fails the whole invocation. -/
def call (f : σ → Option σ) (effects : List Effect) : VaultM σ Unit :=
  ⟨fun l => match f l.chain with
    | some c => .ok () { l with chain := c, log := effects ++ l.log }
    | none => .panic "contract call failed"⟩

def query (f : σ → Option (α × σ)) : VaultM σ α :=
  ⟨fun l => match f l.chain with
    | some (a,c) => .ok a { l with chain := c }
    | none => .panic "contract call failed"⟩

/-- `get_admin(&env).expect(..)` followed by `require_auth`. -/
def requireAdmin (env : Env σ) : VaultM σ Address := do
  let stored ← load fun s => s.proxy.admin
  let admin ← expect stored "Admin not set"
  requireAuth env admin
  pure admin

def tokenTransfer (env : Env σ) (token sender receiver : Address) (amount : ℤ) : VaultM σ Unit :=
  call (env.host.transfer token sender receiver amount) [.transfer token sender receiver amount]

def tokenApprove (env : Env σ) (token spender : Address) (amount : ℤ) : VaultM σ Unit :=
  call (env.host.approve token env.host.vault spender amount env.sequence) []

def tokenBalance (env : Env σ) (token holder : Address) : VaultM σ ℤ :=
  read fun l => env.host.balance token holder l.chain

def strategyDeposit (env : Env σ) (strategy : Address) (amount : ℤ) : VaultM σ Unit :=
  call (env.host.deposit strategy amount) [.strategyDeposit strategy amount]

def strategyWithdraw (env : Env σ) (strategy : Address) (amount : ℤ) : VaultM σ Unit :=
  call (env.host.withdraw strategy amount) [.strategyWithdraw strategy amount]

def updateCurrentContractWasm (env : Env σ) (hash : BytesN32) : VaultM σ Unit :=
  call (env.host.updateWasm hash) [.updateWasm hash]

variable {l t : Ledger σ} {b : β} {k : α → VaultM σ β} {k' : Unit → VaultM σ β}

@[simp] theorem load_bind {f : Storage → α} : (load f >>= k).run l = (k (f l.storage)).run l := rfl

@[simp] theorem store_bind {f : Storage → Storage} :
    (store f >>= k').run l = (k' ()).run { l with storage := f l.storage } := rfl

@[simp] theorem store_run {f : Storage → Storage} :
    (store f : VaultM σ Unit).run l = .ok () { l with storage := f l.storage } := rfl

@[simp] theorem publish_bind {e : Event} :
    (publish e >>= k').run l = (k' ()).run { l with log := .event e :: l.log } := rfl

@[simp] theorem publish_run {e : Event} :
    (publish e : VaultM σ Unit).run l = .ok () { l with log := .event e :: l.log } := rfl

@[simp] theorem requireAuth_bind {env : Env σ} {who : Address} :
    (requireAuth env who >>= k').run l =
      if env.auth who = true then (k' ()).run l else .panic "Error(Auth, InvalidAction)" :=
  demand_bind

@[simp] theorem call_bind_eq_ok {f : σ → Option σ} {es : List Effect} :
    (call f es >>= k').run l = .ok b t ↔
      ∃ c, f l.chain = some c ∧
        (k' ()).run { l with chain := c, log := es ++ l.log } = .ok b t := by
  rw [run_bind]
  cases h : f l.chain <;> simp [call,h]

@[simp] theorem call_eq_ok {f : σ → Option σ} {es : List Effect} {u : Unit} :
    (call f es).run l = .ok u t ↔
      ∃ c, f l.chain = some c ∧ { l with chain := c, log := es ++ l.log } = t := by
  cases h : f l.chain <;> simp [call,h]

@[simp] theorem call_bind_eq_err {f : σ → Option σ} {es : List Effect} {e : VaultError} :
    (call f es >>= k').run l = .err e t ↔
      ∃ c, f l.chain = some c ∧
        (k' ()).run { l with chain := c, log := es ++ l.log } = .err e t := by
  rw [run_bind]
  cases h : f l.chain <;> simp [call,h]

@[simp] theorem call_ne_err {f : σ → Option σ} {es : List Effect} {e : VaultError} :
    ¬ (call f es).run l = .err e t := by
  cases h : f l.chain <;> simp [call,h]

@[simp] theorem call_bind_eq_panic {f : σ → Option σ} {es : List Effect} {m : String} :
    (call f es >>= k').run l = .panic m ↔
      (f l.chain = none ∧ "contract call failed" = m) ∨ ∃ c, f l.chain = some c ∧
        (k' ()).run { l with chain := c, log := es ++ l.log } = .panic m := by
  rw [run_bind]
  cases h : f l.chain <;> simp [call,h]

@[simp] theorem query_bind_eq_ok {f : σ → Option (α × σ)} :
    (query f >>= k).run l = .ok b t ↔
      ∃ a c, f l.chain = some (a,c) ∧ (k a).run { l with chain := c } = .ok b t := by
  rw [run_bind]
  cases h : f l.chain with
  | none => simp [query,h]
  | some r => simp [query,h,Prod.ext_iff]

@[simp] theorem query_bind_eq_err {f : σ → Option (α × σ)} {e : VaultError} :
    (query f >>= k).run l = .err e t ↔
      ∃ a c, f l.chain = some (a,c) ∧ (k a).run { l with chain := c } = .err e t := by
  rw [run_bind]
  cases h : f l.chain with
  | none => simp [query,h]
  | some r => simp [query,h,Prod.ext_iff]

@[simp] theorem tokenBalance_bind {env : Env σ} {token holder : Address} {k : ℤ → VaultM σ β} :
    (tokenBalance env token holder >>= k).run l =
      (k (env.host.balance token holder l.chain)).run l := rfl

@[simp] theorem requireAdmin_bind_eq_ok {env : Env σ} {k : Address → VaultM σ β} :
    (requireAdmin env >>= k).run l = .ok b t ↔
      ∃ admin, l.storage.proxy.admin = some admin ∧ env.auth admin = true ∧
        (k admin).run l = .ok b t := by
  simp [requireAdmin]

@[simp] theorem requireAdmin_bind_eq_err {env : Env σ} {k : Address → VaultM σ β} {e : VaultError} :
    (requireAdmin env >>= k).run l = .err e t ↔
      ∃ admin, l.storage.proxy.admin = some admin ∧ env.auth admin = true ∧
        (k admin).run l = .err e t := by
  simp [requireAdmin]

@[simp] theorem requireAdmin_bind_eq_panic {env : Env σ} {k : Address → VaultM σ β} {m : String} :
    (requireAdmin env >>= k).run l = .panic m ↔
      (l.storage.proxy.admin = none ∧ "Admin not set" = m) ∨
        ∃ admin, l.storage.proxy.admin = some admin ∧
          (env.auth admin = true ∧ (k admin).run l = .panic m ∨
            env.auth admin = false ∧ "Error(Auth, InvalidAction)" = m) := by
  simp [requireAdmin]

end Primitives

end YieldVault
