import YieldVault.Founding
import YieldVault.FundMoves
import YieldVault.SimpleHost
import YieldVault.Custody

/-! Token backing. The vault's token balance covers its idle assets and the treasury,
as long as a recall by `divest` brings in at least the amount that it credits. -/
namespace YieldVault

open FixedWidth Contract Custody

variable {σ : Type} {host : Host σ} {env : Env σ} {l t : Ledger σ}

/-- The vault's account at a token; what strategies may still draw is not observable
through the vault's own calls, so it is a parameter. -/
def vaultAccount (host : Host σ) (token : Address) (allowed : σ → ℤ) : Account σ :=
  ⟨host.balance token host.vault,allowed⟩

/-- The documented behaviour of a standard token: transfers move exactly the amount or
fail, only the vault approves in its own name, and nobody draws more than was approved. -/
structure StandardToken (host : Host σ) (token : Address) (allowed : σ → ℤ) : Prop where
  allowed_nonneg : ∀ c, 0 ≤ allowed c
  pays : ∀ receiver amount c c', receiver ≠ host.vault →
    host.transfer token host.vault receiver amount c = some c' →
      (vaultAccount host token allowed).Pays amount c c'
  receives : ∀ sender amount c c', sender ≠ host.vault →
    host.transfer token sender host.vault amount c = some c' →
      (vaultAccount host token allowed).Receives amount c c'
  own : ∀ amount c c', host.transfer token host.vault host.vault amount c = some c' →
    0 ≤ amount ∧ (vaultAccount host token allowed).Draws c c'
  approve : ∀ spender amount expiration c c',
    host.approve token host.vault spender amount expiration c = some c' →
      (vaultAccount host token allowed).Approves amount c c'
  deposit : ∀ strategy amount c c', host.deposit strategy amount c = some c' →
    (vaultAccount host token allowed).Draws c c'
  withdraw : ∀ strategy amount c c', host.withdraw strategy amount c = some c' →
    (vaultAccount host token allowed).Draws c c'
  totalValue : ∀ strategy value c c', host.totalValue strategy c = some (value,c') →
    (vaultAccount host token allowed).Draws c c'
  harvestYield : ∀ strategy value c c', host.harvestYield strategy c = some (value,c') →
    (vaultAccount host token allowed).Draws c c'
  updateWasm : ∀ hash c c', host.updateWasm hash c = some c' →
    (vaultAccount host token allowed).Draws c c'

def owed (s : Storage) : ℤ := idleAssets s+treasuryBalance s

section Calls

variable {token : Address} {allowed : σ → ℤ}

/-- The vault's tokens in the ledger cover what it owes. -/
abbrev Backed (host : Host σ) (token : Address) (allowed : σ → ℤ) (l : Ledger σ) : Prop :=
  (vaultAccount host token allowed).Covers (owed l.storage) l.chain

/-- A recall of the amount, if the strategy answers it, brings in at least the amount. -/
def Delivers (host : Host σ) (token : Address) (l : Ledger σ) (amount : ℤ) : Prop :=
  ∀ strategy ∈ l.storage.strategy, ∀ c, host.withdraw strategy amount l.chain = some c →
    amount ≤ host.balance token host.vault c-host.balance token host.vault l.chain

variable (ht : StandardToken env.host token allowed) (hb : Backed env.host token allowed l)

theorem signer_ne_vault (hv : env.auth env.host.vault = false) {who : Address}
    (h : env.auth who = true) : who ≠ env.host.vault := by
  rintro rfl
  exact absurd (h.symm.trans hv) (by decide)

include ht hb

theorem Quiet.backed (hq : Quiet env l t) : Backed env.host token allowed t := by
  have hidle : idleAssets t.storage = idleAssets l.storage := by
    have h1 : t.storage.totalAssets = l.storage.totalAssets :=
      congrArg Accounts.totalAssets hq.accounts
    rw [idleAssets,h1,idleAssets]
  have htreasury : treasuryBalance t.storage = treasuryBalance l.storage := by
    have h1 : t.storage.treasuryBalance = l.storage.treasuryBalance :=
      congrArg Accounts.treasuryBalance hq.accounts
    rw [treasuryBalance,h1,treasuryBalance]
  have howed : owed t.storage = owed l.storage := by rw [owed,hidle,htreasury,owed]
  rw [Backed,howed]
  rcases hq.chain with hc | ⟨hash,hc⟩
  · rw [hc]
    exact hb
  · exact (ht.updateWasm hash _ _ hc).covers hb

theorem divest_backed {amount : ℤ} {u : Unit} (hd : Delivers env.host token l amount)
    (h : (divest env amount).run l = .ok u t) : Backed env.host token allowed t := by
  obtain ⟨strategy,hstrategy,c,hc,-,-,rfl⟩ := divest_ok.mp h
  have hcov := (ht.withdraw strategy amount _ _ hc).covers_arrival hb (hd strategy hstrategy c hc)
  have howed : owed l.storage+amount =
      owed (setIdleAssets (idleAssets l.storage+amount)
        (loweredWatermark strategy amount l.storage)) := by
    simp only [owed,setIdleAssets_frame,loweredWatermark_frame]
    ring
  rw [howed] at hcov
  exact hcov

theorem coverShortfall_backed {paid : ℤ} {u : Unit}
    (hd : idleAssets l.storage < paid → Delivers env.host token l (paid-idleAssets l.storage))
    (h : (coverShortfall env paid).run l = .ok u t) : Backed env.host token allowed t := by
  rw [coverShortfall_ok] at h
  split_ifs at h with hlt
  · exact divest_backed ht hb (hd hlt) h.2
  · exact h ▸ hb

theorem doWithdraw_backed {user : Address} {shares paid r : ℤ} {state : VaultState}
    (htok : ∀ other ∈ l.storage.tokenAsset, other = token) (huser : user ≠ env.host.vault)
    (hd : idleAssets l.storage < paid → Delivers env.host token l (paid-idleAssets l.storage))
    (h : (doWithdraw env state user shares paid).run l = .ok r t) :
    Backed env.host token allowed t := by
  obtain ⟨token',m,c,htoken',hcover,htransfer,-,-,rfl⟩ := doWithdraw_ok.mp h
  obtain rfl : token' = token := htok token' htoken'
  have hm := coverShortfall_backed ht hb hd hcover
  have hcov := (ht.pays user paid _ _ huser htransfer).covers hm
  have howed : owed m.storage-paid = owed (debitedWithdrawal state user shares paid m.storage) := by
    simp [owed,debitedWithdrawal]
    ring
  rw [howed] at hcov
  exact hcov

theorem deposit_backed {user : Address} {amount shares : ℤ}
    (htok : ∀ other ∈ l.storage.tokenAsset, other = token) (hv : env.auth env.host.vault = false)
    (h : (deposit env user amount).run l = .ok shares t) : Backed env.host token allowed t := by
  obtain ⟨token',c,-,hauth,-,-,htoken',-,-,-,htransfer,-,rfl⟩ := deposit_ok.mp h
  obtain rfl : token' = token := htok token' htoken'
  have hcov := (ht.receives user amount _ _ (signer_ne_vault hv hauth) htransfer).covers hb
  have howed : owed l.storage+amount = idleAssets l.storage+amount+treasuryBalance l.storage := by
    rw [owed]
    ring
  rw [howed] at hcov
  exact hcov

theorem batchDeposit_backed {relayer : Address} {entries : List DepositEntry}
    {result : BatchDepositResult} (htok : ∀ other ∈ l.storage.tokenAsset, other = token)
    (hv : env.auth env.host.vault = false)
    (h : (batchDeposit env relayer entries).run l = .ok result t) :
    Backed env.host token allowed t := by
  obtain ⟨token',batch,m,-,-,-,-,htoken',hloop,-,rfl⟩ := batchDeposit_ok h
  obtain rfl : token' = token := htok token' htoken'
  let P : VaultState → Ledger σ → Prop := fun _ m => Backed env.host token' allowed m
  have hP : P batch.state m := by
    refine processEntries_invariant ?_ hloop hb
    rintro state state' user amount shares m m' hm hentry
    obtain ⟨c,-,-,-,-,-,hauth,htransfer,-,-,rfl⟩ := processSingleBatchEntry_ok.mp hentry
    have hcov := (ht.receives user amount _ _ (signer_ne_vault hv hauth) htransfer).covers hm
    have howed : owed m.storage+amount = idleAssets m.storage+amount+treasuryBalance m.storage := by
      rw [owed]
      ring
    rw [howed] at hcov
    exact hcov
  exact hP

theorem invest_backed {amount : ℤ} {u : Unit}
    (htok : ∀ other ∈ l.storage.tokenAsset, other = token)
    (h : (invest env amount).run l = .ok u t) : Backed env.host token allowed t := by
  obtain ⟨_,strategy,token',held,c₁,total,c₂,c₃,c,-,-,-,-,htoken',h₁,h₂,happ,hdep,-,-,-,-,-,-,rfl⟩ :=
    invest_ok h
  obtain rfl : token' = token := htok token' htoken'
  have hcov₁ := (ht.totalValue strategy held _ _ h₁).covers hb
  have hcov₂ := (ht.totalValue strategy total _ _ h₂).covers hcov₁
  have hcov₃ := (ht.approve strategy amount _ _ _ happ).covers hcov₂
  have hcov := (ht.deposit strategy amount _ _ hdep).covers hcov₃
  have howed : owed l.storage-amount = idleAssets l.storage-amount+treasuryBalance l.storage := by
    rw [owed]
    ring
  rw [howed] at hcov
  exact hcov

/-- The measured recall is covered, also where the difference is no `i128`. -/
theorem measured_covers {c : σ} {strategy : Address} {amount : ℤ}
    (hc : env.host.withdraw strategy amount l.chain = some c) :
    (vaultAccount env.host token allowed).Covers
      (owed l.storage+measuredWithdrawal env token l.chain c) c := by
  have hdraws := ht.withdraw strategy amount _ _ hc
  by_cases hfits : I128 (env.host.balance token env.host.vault c-
      env.host.balance token env.host.vault l.chain)
  · have hmeasured : measuredWithdrawal env token l.chain c =
        env.host.balance token env.host.vault c-env.host.balance token env.host.vault l.chain := by
      simp [measuredWithdrawal,checkedSub,narrow,hfits]
    rw [hmeasured]
    exact hdraws.covers_arrival hb le_rfl
  · have hmeasured : measuredWithdrawal env token l.chain c = 0 := by
      simp [measuredWithdrawal,checkedSub,narrow,hfits]
    rw [hmeasured,add_zero]
    exact hdraws.covers hb

theorem rebalance_backed {fromStrategy toStrategy : Address} {amount minDivest minInvest : ℤ}
    {u : Unit} (htok : ∀ other ∈ l.storage.tokenAsset, other = token)
    (h : (rebalance env fromStrategy toStrategy amount minDivest minInvest).run l = .ok u t) :
    Backed env.host token allowed t := by
  obtain ⟨_,token',c₁,before,c₂,c₃,c₄,after,c,received,-,-,-,htoken',hwith,rfl,-,h₂,happ,hdep,h₃,
    -,-,rfl⟩ := rebalance_ok h
  obtain rfl : token' = token := htok token' htoken'
  have hcov₁ := measured_covers ht hb hwith
  have hcov₂ := (ht.totalValue toStrategy before _ _ h₂).covers hcov₁
  have hcov₃ := (ht.approve toStrategy _ _ _ _ happ).covers hcov₂
  have hcov₄ := (ht.deposit toStrategy _ _ _ hdep).covers hcov₃
  have hcov := (ht.totalValue toStrategy after _ _ h₃).covers hcov₄
  rw [add_sub_cancel_right] at hcov
  exact hcov

/-- A yield that was paid in: the net amount and the fee are credited together. -/
theorem yield_backed {payer : Address} {amount fee : ℤ} {c : σ} {s : Storage}
    (hpayer : payer ≠ env.host.vault)
    (hc : env.host.transfer token payer env.host.vault amount l.chain = some c)
    (hidle : idleAssets s = idleAssets l.storage+(amount-fee))
    (htreasury : treasuryBalance s = treasuryBalance l.storage+fee) :
    (vaultAccount env.host token allowed).Covers (owed s) c := by
  have hcov := (ht.receives payer amount _ _ hpayer hc).covers hb
  have howed : owed l.storage+amount = owed s := by
    rw [owed,owed,hidle,htreasury]
    ring
  rw [howed] at hcov
  exact hcov

theorem accrueYield_backed {amount : ℤ} {u : Unit}
    (htok : ∀ other ∈ l.storage.tokenAsset, other = token) (hv : env.auth env.host.vault = false)
    (h : (accrueYield env amount).run l = .ok u t) : Backed env.host token allowed t := by
  obtain ⟨admin,token',fee,c,-,hauth,hpos,hfee,htoken',htransfer,-,-,-,rfl⟩ := accrueYield_ok h
  obtain rfl : token' = token := htok token' htoken'
  have hsplit := fee_bounds hpos hfee
  refine yield_backed ht hb (signer_ne_vault hv hauth) htransfer rfl ?_
  exact treasuryBalance_creditedTreasury hsplit.1 l.storage

theorem reportBenjiYield_backed {strategy : Address} {amount : ℤ} {u : Unit}
    (htok : ∀ other ∈ l.storage.tokenAsset, other = token) (hv : env.auth env.host.vault = false)
    (h : (reportBenjiYield env strategy amount).run l = .ok u t) :
    Backed env.host token allowed t := by
  obtain ⟨token',fee,c,hauth,hpos,-,hfee,htoken',htransfer,-,-,-,-,rfl⟩ :=
    reportBenjiYield_ok h
  obtain rfl : token' = token := htok token' htoken'
  have hsplit := fee_bounds hpos hfee
  refine yield_backed ht hb (signer_ne_vault hv hauth) htransfer rfl ?_
  exact treasuryBalance_creditedTreasury hsplit.1 l.storage

theorem claimFees_backed {u : Unit} (htok : ∀ other ∈ l.storage.tokenAsset, other = token)
    (h : (claimFees env).run l = .ok u t) : Backed env.host token allowed t := by
  obtain ⟨_,treasury,token',c,-,-,-,-,htoken',htransfer,rfl⟩ := claimFees_ok h
  obtain rfl : token' = token := htok token' htoken'
  have howed : owed (setTreasuryBalance 0 l.storage) = idleAssets l.storage := by
    simp [owed]
  rw [Backed,howed]
  by_cases he : treasury = env.host.vault
  · subst he
    obtain ⟨hpos,hdraws⟩ := ht.own _ _ _ htransfer
    refine (hdraws.covers hb).mono ?_
    rw [owed]
    omega
  · have hcov := (ht.pays treasury _ _ _ he htransfer).covers hb
    rw [owed,add_sub_cancel_right] at hcov
    exact hcov

theorem accrueKoreanDebtYield_backed {harvested : ℤ}
    (h : (accrueKoreanDebtYield env).run l = .ok harvested t) :
    Backed env.host token allowed t := by
  obtain ⟨_,strategy,c,-,-,-,hc,-,-,rfl⟩ := accrueKoreanDebtYield_ok.mp h
  exact (ht.harvestYield strategy harvested _ _ hc).covers hb

theorem totalAssets_backed {total : ℤ} (h : (totalAssets env).run l = .ok total t) :
    Backed env.host token allowed t := by
  obtain ⟨invested,c,hrep,-,-,rfl⟩ := totalAssets_ok.mp h
  cases hs : l.storage.strategy with
  | none =>
    rw [hs] at hrep
    rw [Backed,hrep.2]
    exact hb
  | some strategy =>
    rw [hs] at hrep
    exact (ht.totalValue strategy invested _ _ hrep).covers hb

theorem applyEmergency_backed {proposal : EmergencyProposal} {u : Unit}
    (hd : proposal.kind = .emergencyDivest → ∀ amount ∈ proposal.divestAmount,
      Delivers env.host token l amount)
    (h : (applyEmergency env proposal).run l = .ok u t) : Backed env.host token allowed t := by
  cases hk : proposal.kind with
  | pause =>
    simp [applyEmergency,hk] at h
    exact h ▸ hb
  | unpause =>
    simp [applyEmergency,hk] at h
    exact h ▸ hb
  | emergencyDivest =>
    simp only [applyEmergency,hk,expect_bind_eq_ok] at h
    obtain ⟨amount,hamount,h⟩ := h
    exact divest_backed ht hb (hd hk amount hamount) h
  | forceUpgrade =>
    simp only [applyEmergency,hk,expect_bind_eq_ok] at h
    obtain ⟨hash,-,h⟩ := h
    obtain ⟨c,hc,rfl⟩ := call_eq_ok.mp h
    exact (ht.updateWasm hash _ _ hc).covers hb

end Calls

section Run

variable {token : Address} {allowed : σ → ℤ} {chain : σ}

/-- Whatever this call recalls through `divest` arrives in full. -/
def RecalledInFull (host : Host σ) (token : Address) (l : Ledger σ) : Call → Prop
  | .divest amount => Delivers host token l amount
  | .withdraw _ shares => ∀ paid,
    sharesToAssets shares (getState l.storage).totalShares (getState l.storage).totalAssets =
      .ok paid → paid ≤ largeWithdrawalThreshold l.storage → idleAssets l.storage < paid →
        Delivers host token l (paid-idleAssets l.storage)
  | .executeWithdrawal user => ∀ pending ∈ l.storage.pendingWithdrawal user, ∀ paid,
    sharesToAssets pending.shares (getState l.storage).totalShares
      (getState l.storage).totalAssets = .ok paid → idleAssets l.storage < paid →
        Delivers host token l (paid-idleAssets l.storage)
  | .confirmEmergencyAction _ id => ∀ p ∈ l.storage.emergencyProposal id,
    p.kind = .emergencyDivest → ∀ amount ∈ p.divestAmount, Delivers host token l amount
  | _ => True

/-- What a successful call recalls arrives in full; a refused one recalls nothing. -/
def FullRecall (token : Address) (l : Ledger σ) : Action host → Prop
  | .invoke inv => ∀ v t, (dispatch inv.env inv.call).run l = .ok v t →
    RecalledInFull host token l inv.call
  | .outside _ => True

/-- Between invocations the vault's tokens are only drawn as far as it approved. -/
def OutsideDraws (token : Address) (allowed : σ → ℤ) (l : Ledger σ) : Action host → Prop
  | .invoke _ => True
  | .outside c => (vaultAccount host token allowed).Draws l.chain c

section Dispatch

variable (ht : StandardToken host token allowed) (hb : Backed host token allowed l)

include hb

theorem initializeVault_backed {admin other : Address} {u : Unit} (hf : Founded l)
    (h : (initializeVault admin other).run l = .ok u t) : Backed host token allowed t := by
  obtain ⟨hinit,rfl⟩ := initializeVault_ok h
  rcases hf with hu | hl
  · have howed : owed l.storage = 0+treasuryBalance l.storage := by
      have h1 : l.storage.totalAssets = none := congrArg Accounts.totalAssets hu.blank.accounts
      rw [owed,idleAssets,h1]
      rfl
    rw [Backed,howed] at hb
    exact hb
  · exact absurd (hl.initialized.symm.trans hinit) (by decide)

include ht

theorem house_backed {inv : Invocation host.vault} {v : Value} (hf : Founded l)
    (hc : inv.call.runsHouse = true) (h : (dispatch inv.env inv.call).run l = .ok v t) :
    Backed host token allowed t := by
  obtain ⟨timestamp,sequence,auth,unsigned,call⟩ := inv
  by_cases hq : call.isQuiet = true
  · exact (dispatch_quiet hq h).backed ht hb
  cases call with
  | initializeVault admin other =>
    obtain ⟨_,h,-⟩ := map_eq_ok.mp h
    exact initializeVault_backed hb hf h
  | upgrade hash =>
    rcases hf with hu | hl
    · exact absurd h (adminCall_blocked rfl hu.blank.admin)
    · obtain ⟨_,h,-⟩ := map_eq_ok.mp h
      exact (upgrade_quiet hl.state h).backed ht hb
  | migrateStorage version =>
    rcases hf with hu | hl
    · exact absurd h (adminCall_blocked rfl hu.blank.admin)
    · obtain ⟨_,h,-⟩ := map_eq_ok.mp h
      exact (migrateStorage_quiet hl.state h).backed ht hb
  | pause reason =>
    obtain ⟨_,h,-⟩ := map_eq_ok.mp h
    obtain ⟨_,-,-,rfl⟩ := pause_ok.mp h
    exact hb
  | unpause =>
    obtain ⟨_,h,-⟩ := map_eq_ok.mp h
    obtain ⟨_,-,-,rfl⟩ := unpause_ok.mp h
    exact hb
  | proposeEmergencyAction initiator kind code amount hash =>
    obtain ⟨_,h,-⟩ := map_eq_ok.mp h
    obtain ⟨-,-,-,-,rfl⟩ := proposeEmergencyAction_ok.mp h
    exact hb
  | _ => exact absurd hc hq

theorem confirmEmergencyAction_backed {env : Env σ} {confirmer : Address} {id : ℕ} {u : Unit}
    (henv : env.host = host) (hg : RecalledInFull host token l (.confirmEmergencyAction confirmer id))
    (h : (confirmEmergencyAction env confirmer id).run l = .ok u t) :
    Backed host token allowed t := by
  subst henv
  obtain ⟨p,m,hconf,happly,rfl⟩ := confirmEmergencyAction_ok h
  let l' : Ledger σ := ⟨setEmergencyProposal id { p with confirmed := true } l.storage,l.chain,
    l.log⟩
  have hb' : Backed env.host token allowed l' := hb
  have hm : Backed env.host token allowed m :=
    applyEmergency_backed ht hb' (hg p hconf.stored) happly
  exact hm

theorem withdraw_backed {env : Env σ} {user : Address} {shares r : ℤ} (henv : env.host = host)
    (hv : env.auth env.host.vault = false) (htok : ∀ other ∈ l.storage.tokenAsset, other = token)
    (hg : RecalledInFull host token l (.withdraw user shares))
    (h : (withdraw env user shares).run l = .ok r t) : Backed host token allowed t := by
  subst henv
  obtain ⟨_,paid,-,hauth,-,-,hpaid,⟨hsmall,h⟩ | ⟨-,-,-,rfl⟩⟩ := withdraw_ok.mp h
  · exact doWithdraw_backed ht hb htok (signer_ne_vault hv hauth) (hg paid hpaid hsmall) h
  · exact hb

theorem executeWithdrawal_backed {env : Env σ} {user : Address} {r : ℤ} (henv : env.host = host)
    (hv : env.auth env.host.vault = false) (htok : ∀ other ∈ l.storage.tokenAsset, other = token)
    (hg : RecalledInFull host token l (.executeWithdrawal user))
    (h : (executeWithdrawal env user).run l = .ok r t) : Backed host token allowed t := by
  subst henv
  obtain ⟨pending,paid,hauth,hpending,-,hpaid,h⟩ := executeWithdrawal_ok.mp h
  let l' : Ledger σ := ⟨setPendingWithdrawal user none l.storage,l.chain,l.log⟩
  have hb' : Backed env.host token allowed l' := hb
  exact doWithdraw_backed (l := l') ht hb' htok (signer_ne_vault hv hauth)
    (hg pending hpending paid hpaid) h

theorem dispatch_backed {inv : Invocation host.vault} {v : Value} (hf : Founded l)
    (htok : ∀ other ∈ l.storage.tokenAsset, other = token)
    (hg : RecalledInFull host token l inv.call)
    (h : (dispatch inv.env inv.call).run l = .ok v t) : Backed host token allowed t := by
  by_cases hc : inv.call.runsHouse = true
  · exact house_backed ht hb hf hc h
  obtain ⟨timestamp,sequence,auth,unsigned,call⟩ := inv
  cases call with
  | confirmEmergencyAction confirmer id =>
    obtain ⟨_,h,-⟩ := map_eq_ok.mp h
    exact confirmEmergencyAction_backed ht hb rfl hg h
  | accrueKoreanDebtYield =>
    obtain ⟨_,h,-⟩ := map_eq_ok.mp h
    exact accrueKoreanDebtYield_backed ht hb h
  | deposit user amount =>
    obtain ⟨_,h,-⟩ := map_eq_ok.mp h
    exact deposit_backed ht hb htok unsigned h
  | batchDeposit relayer entries =>
    obtain ⟨_,h,-⟩ := map_eq_ok.mp h
    exact batchDeposit_backed ht hb htok unsigned h
  | withdraw user shares =>
    obtain ⟨_,h,-⟩ := map_eq_ok.mp h
    exact withdraw_backed ht hb rfl unsigned htok hg h
  | executeWithdrawal user =>
    obtain ⟨_,h,-⟩ := map_eq_ok.mp h
    exact executeWithdrawal_backed ht hb rfl unsigned htok hg h
  | invest amount =>
    obtain ⟨_,h,-⟩ := map_eq_ok.mp h
    exact invest_backed ht hb htok h
  | divest amount =>
    obtain ⟨_,h,-⟩ := map_eq_ok.mp h
    have hd : Delivers host token l amount := hg
    exact divest_backed ht hb hd h
  | rebalance fromStrategy toStrategy amount minDivest minInvest =>
    obtain ⟨_,h,-⟩ := map_eq_ok.mp h
    exact rebalance_backed ht hb htok h
  | accrueYield amount =>
    obtain ⟨_,h,-⟩ := map_eq_ok.mp h
    exact accrueYield_backed ht hb htok unsigned h
  | reportBenjiYield strategy amount =>
    obtain ⟨_,h,-⟩ := map_eq_ok.mp h
    exact reportBenjiYield_backed ht hb htok unsigned h
  | claimFees =>
    obtain ⟨_,h,-⟩ := map_eq_ok.mp h
    exact claimFees_backed ht hb htok h
  | totalAssets =>
    obtain ⟨_,h,-⟩ := map_eq_ok.mp h
    exact totalAssets_backed ht hb h
  | _ => exact absurd rfl hc

end Dispatch

/-- In a founded ledger whose token is another one the statement says nothing. -/
def BackedFor (host : Host σ) (token : Address) (allowed : σ → ℤ) (l : Ledger σ) : Prop :=
  (∀ other ∈ l.storage.tokenAsset, other = token) → Backed host token allowed l

theorem step_backed {a : Action host} (ht : StandardToken host token allowed) (hf : Founded l)
    (hb : BackedFor host token allowed l) (hg : FullRecall token l a)
    (ho : OutsideDraws token allowed l a) :
    BackedFor host token allowed (step host a l) := by
  intro htok
  cases a with
  | outside c => exact ho.covers (hb htok)
  | invoke inv =>
    rcases invoke_cases inv l with ⟨v,hv⟩ | hsame
    · have htok' : ∀ other ∈ l.storage.tokenAsset, other = token := by
        rcases hf with hu | hl
        · intro other h
          rw [hu.blank.token] at h
          exact absurd h (Option.not_mem_none _)
        · obtain ⟨es,-,hbook⟩ := journal hl.state (fun _ _ _ => hl.initialized) hv
          rw [← hbook.kept.token]
          exact htok
      exact dispatch_backed ht (hb htok') hf htok' (hg v _ hv) hv
    · change Backed host token allowed (invoke inv l)
      change ∀ other ∈ (invoke inv l).storage.tokenAsset, other = token at htok
      rw [hsame] at htok ⊢
      exact hb htok

theorem run_backed {acts : List (Action host)} (ht : StandardToken host token allowed)
    (hfresh : allowed chain = 0) (hbalance : 0 ≤ host.balance token host.vault chain)
    (houtside : Runs.Along (step host) (OutsideDraws token allowed) (genesis chain) acts)
    (ha : Runs.Along (step host) (FullRecall token) (genesis chain) acts)
    (htoken : (runFrom host chain acts).storage.tokenAsset = some token) :
    Backed host token allowed (runFrom host chain acts) := by
  have h0 : Founded (genesis chain) ∧ BackedFor host token allowed (genesis chain) := by
    refine ⟨Or.inl (unfounded_genesis chain),fun _ => ?_⟩
    change 0+0+allowed chain ≤ host.balance token host.vault chain
    omega
  have hstep : ∀ l a, Founded l ∧ BackedFor host token allowed l →
      OutsideDraws token allowed l a ∧ FullRecall token l a →
        Founded (step host a l) ∧ BackedFor host token allowed (step host a l) :=
    fun l a hi hg => ⟨step_founded hi.1 a,step_backed ht hi.1 hi.2 hg.2 hg.1⟩
  have hend := ((houtside.and ha).invariant hstep h0).2
  have htok : ∀ other ∈ (runFrom host chain acts).storage.tokenAsset, other = token := by
    intro other h
    exact Option.some.inj (h.symm.trans htoken)
  exact hend htok

/-- Along every run whose recalls by `divest` arrive in full, the vault's token balance
covers the idle assets and the treasury. -/
theorem tokenBalance_covers {acts : List (Action host)} (ht : StandardToken host token allowed)
    (hfresh : allowed chain = 0) (hbalance : 0 ≤ host.balance token host.vault chain)
    (houtside : Runs.Along (step host) (OutsideDraws token allowed) (genesis chain) acts)
    (ha : Runs.Along (step host) (FullRecall token) (genesis chain) acts)
    (htoken : (runFrom host chain acts).storage.tokenAsset = some token) :
    idleAssets (runFrom host chain acts).storage+treasuryBalance (runFrom host chain acts).storage ≤
      host.balance token host.vault (runFrom host chain acts).chain :=
  (run_backed ht hfresh hbalance houtside ha htoken).le_balance (ht.allowed_nonneg _)

end Run

section Runs

open SimpleHost

variable {deliver : ℤ → ℤ} {harvest : ℤ}

def Bank.allowed (bank : Bank) : ℤ := bank.allowance strategyA+bank.allowance strategyB

abbrev bankAccount : Account Bank := ⟨fun bank => bank.held ⟨0⟩,Bank.allowed⟩

theorem Bank.move_draws {sender receiver : Address} {amount : ℤ} {c c' : Bank}
    (h : c.move sender receiver amount = some c') (hs : sender ≠ ⟨0⟩ ∨ receiver = ⟨0⟩) :
    bankAccount.Draws c c' := by
  obtain ⟨⟨hpos,-⟩,hallowance,hheld⟩ := Bank.move_held h
  have hallowed : c'.allowed = c.allowed := by rw [Bank.allowed,hallowance,Bank.allowed]
  refine ⟨hallowed.le,?_⟩
  have h0 := hheld ⟨0⟩
  change c.held ⟨0⟩-c'.held ⟨0⟩ ≤ c.allowed-c'.allowed
  rw [h0,hallowed]
  rcases hs with hs | hs
  · rw [if_neg (Ne.symm hs)]
    split_ifs <;> omega
  · rw [if_pos hs.symm]
    split_ifs <;> omega

theorem Bank.move_pays {receiver : Address} {amount : ℤ} {c c' : Bank}
    (h : c.move ⟨0⟩ receiver amount = some c') (hne : receiver ≠ ⟨0⟩) :
    bankAccount.Pays amount c c' := by
  obtain ⟨⟨hpos,-⟩,hallowance,hheld⟩ := Bank.move_held h
  have h0 := hheld ⟨0⟩
  rw [if_pos rfl,if_neg (Ne.symm hne),add_zero] at h0
  exact ⟨hpos,by change c'.allowed = c.allowed; rw [Bank.allowed,hallowance,Bank.allowed],h0⟩

theorem Bank.move_receives {sender : Address} {amount : ℤ} {c c' : Bank}
    (h : c.move sender ⟨0⟩ amount = some c') (hne : sender ≠ ⟨0⟩) :
    bankAccount.Receives amount c c' := by
  obtain ⟨⟨hpos,-⟩,hallowance,hheld⟩ := Bank.move_held h
  have h0 := hheld ⟨0⟩
  rw [if_neg (Ne.symm hne),if_pos rfl,sub_zero] at h0
  exact ⟨hpos,by change c'.allowed = c.allowed; rw [Bank.allowed,hallowance,Bank.allowed],h0⟩

theorem Bank.approve_approves {spender : Address} {amount : ℤ} {c c' : Bank}
    (h : c.approve spender amount = some c') : bankAccount.Approves amount c c' := by
  unfold Bank.approve at h
  split_ifs at h with h0
  obtain rfl := Option.some.inj h
  refine ⟨?_,rfl⟩
  obtain ⟨hpos,rfl | rfl⟩ := h0 <;>
  · simp only [Bank.allowed,Function.update_apply]
    simp [strategyA,strategyB]
    omega

theorem Bank.draw_draws {spender : Address} {amount : ℤ} {c c' : Bank}
    (h : c.draw spender amount = some c') : bankAccount.Draws c c' := by
  unfold Bank.draw at h
  split_ifs at h with h0
  obtain ⟨hpos,hle,hspender⟩ := h0
  obtain ⟨-,hallowance,hheld⟩ := Bank.move_held h
  have hvault := hheld ⟨0⟩
  have hallowed : c'.allowed = c.allowed-amount := by
    rw [Bank.allowed,hallowance,Bank.allowed]
    rcases hspender with rfl | rfl <;>
    · simp only [Function.update_apply]
      simp [strategyA,strategyB] at hle ⊢
      omega
  rw [if_pos rfl,if_neg hspender.ne_vault] at hvault
  change c'.held ⟨0⟩ = c.held ⟨0⟩-amount+0 at hvault
  refine ⟨by change c'.allowed ≤ c.allowed; omega,?_⟩
  change c.held ⟨0⟩-c'.held ⟨0⟩ ≤ c.allowed-c'.allowed
  omega

theorem standardToken_simpleHost :
    StandardToken (simpleHost deliver harvest) token Bank.allowed where
  allowed_nonneg c := by
    unfold Bank.allowed
    omega
  pays receiver amount c c' hne h := Bank.move_pays h hne
  receives sender amount c c' hne h := Bank.move_receives h hne
  own amount c c' h := ⟨(Bank.move_held h).1.1,Bank.move_draws h (Or.inr rfl)⟩
  approve spender amount expiration c c' h := Bank.approve_approves h
  deposit strategy amount c c' h := Bank.draw_draws h
  withdraw strategy amount c c' h := Bank.move_draws (simpleHost_withdraw h).1 (Or.inr rfl)
  totalValue strategy value c c' h := by
    simp only [simpleHost] at h
    split_ifs at h
    obtain rfl := (Prod.mk.inj (Option.some.inj h)).2
    exact Account.Draws.refl _
  harvestYield strategy value c c' h := by
    obtain rfl := (Prod.mk.inj (Option.some.inj h)).2
    exact Account.Draws.refl _
  updateWasm hash c c' h := by
    obtain rfl := Option.some.inj h
    exact Account.Draws.refl _

def recalledFunds : List (Action (simpleHost id 0)) :=
  [signed admin 0 (.initializeVault admin token),
    signed admin 1 (.setting (.whitelist strategyA true)),
    signed admin 2 (.setting (.strategy strategyA)),
    signed alice 3 (.deposit alice 1000),
    signed admin 4 (.invest 800),
    signed admin 5 (.divest 100),
    signed alice 6 (.withdraw alice 1000)]

theorem simpleHost_delivers {l : Ledger Bank} {amount : ℤ} :
    Delivers (simpleHost id harvest) token l amount := by
  intro strategy hstrategy c hc
  have h0 := (simpleHost_withdraw hc).2
  change amount ≤ c.held ⟨0⟩-l.chain.held ⟨0⟩
  rw [h0]
  exact (add_sub_cancel_left _ _).ge

theorem recalledFunds_full :
    Runs.Along (step (simpleHost id 0)) (FullRecall token) (genesis bank) recalledFunds := by
  have hdivest : RecalledInFull (simpleHost id 0) token (runFrom (simpleHost id 0) bank
      (recalledFunds.take 5)) (.divest 100) := simpleHost_delivers
  have hwithdraw : RecalledInFull (simpleHost id 0) token (runFrom (simpleHost id 0) bank
      (recalledFunds.take 6)) (.withdraw alice 1000) := fun paid _ _ _ => simpleHost_delivers
  exact ⟨fun _ _ _ => trivial,fun _ _ _ => trivial,fun _ _ _ => trivial,fun _ _ _ => trivial,
    fun _ _ _ => trivial,fun _ _ _ => hdivest,fun _ _ _ => hwithdraw,trivial⟩

theorem recalledFunds_covers :
    idleAssets (runFrom (simpleHost id 0) bank recalledFunds).storage +
        treasuryBalance (runFrom (simpleHost id 0) bank recalledFunds).storage ≤
      (simpleHost id 0).balance token (simpleHost id 0).vault
        (runFrom (simpleHost id 0) bank recalledFunds).chain := by
  refine tokenBalance_covers standardToken_simpleHost (by decide) (by decide) ?_
    recalledFunds_full (by decide)
  exact ⟨trivial,trivial,trivial,trivial,trivial,trivial,trivial,trivial⟩

/-- A strategy that sends nothing back is credited with what it was asked for. -/
theorem divest_uncovered :
    ¬ ∀ acts : List (Action (simpleHost (fun _ => 0) 0)),
      (runFrom (simpleHost (fun _ => 0) 0) bank acts).storage.tokenAsset = some token →
        idleAssets (runFrom (simpleHost (fun _ => 0) 0) bank acts).storage +
            treasuryBalance (runFrom (simpleHost (fun _ => 0) 0) bank acts).storage ≤
          (runFrom (simpleHost (fun _ => 0) 0) bank acts).chain.held ⟨0⟩ := by
  intro h
  have h1 := h [signed admin 0 (.initializeVault admin token),
    signed admin 1 (.setting (.whitelist strategyA true)),
    signed admin 2 (.setting (.strategy strategyA)),
    signed alice 3 (.deposit alice 1000),
    signed admin 4 (.invest 800),
    signed admin 5 (.divest 800)] (by decide)
  exact absurd h1 (by decide)

end Runs

end YieldVault
