import YieldVault.EmergencyProposals
import YieldVault.Ranges
import YieldVault.Founding
import YieldVault.SimpleHost

/-! Who may move funds between the vault and its strategies. Every call that does
so, or changes a watermark, carries an authority, except that `divest` asks for none. -/
namespace YieldVault

open FixedWidth Contract

variable {σ : Type} {host : Host σ} {env : Env σ} {l t : Ledger σ}

section Flows

/-- The vault's calls into strategies that move funds; a call with amount zero moves none. -/
def strategyFlows : List Effect → List Effect
  | [] => []
  | .strategyDeposit strategy amount :: rest =>
    if amount = 0 then strategyFlows rest else .strategyDeposit strategy amount :: strategyFlows rest
  | .strategyWithdraw strategy amount :: rest =>
    if amount = 0 then strategyFlows rest
    else .strategyWithdraw strategy amount :: strategyFlows rest
  | _ :: rest => strategyFlows rest

structure SameFunds (l t : Ledger σ) : Prop where
  flows : strategyFlows t.log = strategyFlows l.log
  watermark : strategyWatermark t.storage = strategyWatermark l.storage

theorem SameFunds.refl (l : Ledger σ) : SameFunds l l := ⟨rfl,rfl⟩

theorem SameFunds.trans {l m t : Ledger σ} (h : SameFunds l m) (h' : SameFunds m t) :
    SameFunds l t := ⟨h'.flows.trans h.flows,h'.watermark.trans h.watermark⟩

theorem strategyFlows_notices {notices log : List Effect} (h : ∀ e ∈ notices, IsNotice e) :
    strategyFlows (notices ++ log) = strategyFlows log := by
  induction notices with
  | nil => rfl
  | cons e rest ih =>
    have hrest := ih fun e he => h e (List.mem_cons_of_mem _ he)
    have he := h e List.mem_cons_self
    cases e with
    | event event => exact hrest
    | updateWasm hash => exact hrest
    | transfer token sender receiver amount => exact hrest
    | strategyDeposit strategy amount => exact absurd he id
    | strategyWithdraw strategy amount => exact absurd he id

theorem LeavesFunds.sameFunds (h : LeavesFunds l t) : SameFunds l t := by
  obtain ⟨notices,hlog,hn⟩ := h.log
  refine ⟨by rw [hlog,strategyFlows_notices hn],?_⟩
  unfold strategyWatermark
  rw [h.watermarks]

theorem deposit_sameFunds {user : Address} {amount shares : ℤ}
    (h : (deposit env user amount).run l = .ok shares t) : SameFunds l t := by
  obtain ⟨token,c,-,-,-,-,-,-,-,-,-,-,rfl⟩ := deposit_ok.mp h
  exact ⟨rfl,by simp [creditedDeposit]⟩

theorem batchDeposit_sameFunds {relayer : Address} {entries : List DepositEntry}
    {result : BatchDepositResult} (h : (batchDeposit env relayer entries).run l = .ok result t) :
    SameFunds l t := by
  obtain ⟨token,batch,m,-,-,-,-,-,hloop,-,rfl⟩ := batchDeposit_ok h
  have hm : SameFunds l m := by
    let P : VaultState → Ledger σ → Prop := fun _ m => SameFunds l m
    have hP : P batch.state m := by
      refine processEntries_invariant ?_ hloop (SameFunds.refl l)
      rintro state state' user amount shares m m' hm hentry
      obtain ⟨c,-,-,-,-,-,-,-,-,-,rfl⟩ := processSingleBatchEntry_ok.mp hentry
      exact hm.trans ⟨rfl,by simp [creditedDeposit]⟩
    exact hP
  exact hm.trans ⟨rfl,by simp⟩

theorem accrueYield_sameFunds {amount : ℤ} {u : Unit}
    (h : (accrueYield env amount).run l = .ok u t) : SameFunds l t := by
  obtain ⟨_,_,fee,c,-,-,-,-,-,-,-,-,-,rfl⟩ := accrueYield_ok h
  have hn := isNotice_feeNotice fee l.storage
  exact ⟨by rw [strategyFlows_notices hn]; rfl,rfl⟩

end Flows

section Authority

def AdminSigned (env : Env σ) (s : Storage) : Prop :=
  ∃ admin, s.proxy.admin = some admin ∧ env.auth admin = true

/-- The recall of exactly what the vault is short of for a payout to the user. -/
def RecallsShortfall (l t : Ledger σ) (user : Address) : Prop :=
  ∃ strategy paid shares, l.storage.strategy = some strategy ∧ idleAssets l.storage < paid ∧
    strategyFlows t.log =
      .strategyWithdraw strategy (paid-idleAssets l.storage) :: strategyFlows l.log ∧
    payouts t.log = (user,paid,shares) :: payouts l.log

/-- The three operations that the permission matrix reserves for the admin. -/
def Call.managesFunds : Call → Bool
  | .invest _ | .divest _ | .rebalance _ _ _ _ _ => true
  | _ => false

/-- What entitles a call to move funds of strategies or to change a watermark. -/
inductive Entitled (env : Env σ) (call : Call) (l t : Ledger σ) : Prop
  | admin (manages : call.managesFunds = true) (signed : AdminSigned env l.storage)
  | emergency (confirmer : Address) (id : ℕ) (proposal : EmergencyProposal)
      (confirms : call = .confirmEmergencyAction confirmer id)
      (confirmable : Confirmable env l.storage confirmer id proposal)
      (kind : proposal.kind = .emergencyDivest)
  | benji (strategy : Address) (amount : ℤ) (reports : call = .reportBenjiYield strategy amount)
      (signed : env.auth strategy = true) (configured : l.storage.benjiStrategy = some strategy)
  | withdrawal (user : Address) (shares : ℤ) (withdraws : call = .withdraw user shares)
      (signed : env.auth user = true) (shortfall : RecallsShortfall l t user)
  | execution (user : Address) (executes : call = .executeWithdrawal user)
      (signed : env.auth user = true) (shortfall : RecallsShortfall l t user)

theorem doWithdraw_funds {user : Address} {shares paid r : ℤ} {state : VaultState}
    (h : (doWithdraw env state user shares paid).run l = .ok r t) :
    SameFunds l t ∨ RecallsShortfall l t user := by
  obtain ⟨token,m,c,-,hcover,-,-,-,rfl⟩ := doWithdraw_ok.mp h
  rw [coverShortfall_ok] at hcover
  split_ifs at hcover with hlt
  · obtain ⟨strategy,hstrategy,c',-,-,-,rfl⟩ := divest_ok.mp hcover.2
    have hne : paid-idleAssets l.storage ≠ 0 := by omega
    refine Or.inr ⟨strategy,paid,shares,hstrategy,hlt,?_,rfl⟩
    simp only [strategyFlows,if_neg hne]
  · subst hcover
    exact Or.inl ⟨rfl,by simp [debitedWithdrawal]⟩

theorem dispatch_entitled {call : Call} {v : Value}
    (h : (dispatch env call).run l = .ok v t) :
    SameFunds l t ∨ Entitled env call l t ∨
      ∃ amount, call = .divest amount ∧ l.storage.strategy.isSome = true := by
  by_cases hc : call.runsHouse = true
  · exact Or.inl (dispatch_leavesFunds hc h).sameFunds
  cases call with
  | confirmEmergencyAction confirmer id =>
    obtain ⟨_,h,-⟩ := map_eq_ok.mp h
    obtain ⟨proposal,m,hconf,happly,rfl⟩ := confirmEmergencyAction_ok h
    by_cases hkind : proposal.kind = .emergencyDivest
    · exact Or.inr (Or.inl (.emergency confirmer id proposal rfl hconf hkind))
    · have hsame := (applyEmergency_leavesFunds hkind happly).sameFunds
      exact Or.inl ⟨hsame.flows,hsame.watermark⟩
  | accrueKoreanDebtYield =>
    obtain ⟨_,h,-⟩ := map_eq_ok.mp h
    obtain ⟨_,_,c,-,-,-,-,-,-,rfl⟩ := accrueKoreanDebtYield_ok.mp h
    exact Or.inl ⟨rfl,rfl⟩
  | deposit user amount =>
    obtain ⟨_,h,-⟩ := map_eq_ok.mp h
    exact Or.inl (deposit_sameFunds h)
  | batchDeposit relayer entries =>
    obtain ⟨_,h,-⟩ := map_eq_ok.mp h
    exact Or.inl (batchDeposit_sameFunds h)
  | withdraw user shares =>
    obtain ⟨_,h,-⟩ := map_eq_ok.mp h
    obtain ⟨hpos,paid,-,hauth,-,-,-,h⟩ := withdraw_ok.mp h
    rcases h with ⟨-,h⟩ | ⟨-,-,-,rfl⟩
    · rcases doWithdraw_funds h with hsame | hrecall
      · exact Or.inl hsame
      · exact Or.inr (Or.inl (.withdrawal user shares rfl hauth hrecall))
    · exact Or.inl ⟨rfl,rfl⟩
  | executeWithdrawal user =>
    obtain ⟨_,h,-⟩ := map_eq_ok.mp h
    obtain ⟨pending,paid,hauth,-,-,-,h⟩ := executeWithdrawal_ok.mp h
    rcases doWithdraw_funds h with hsame | hrecall
    · exact Or.inl ⟨hsame.flows,hsame.watermark⟩
    · exact Or.inr (Or.inl (.execution user rfl hauth hrecall))
  | invest amount =>
    obtain ⟨_,h,-⟩ := map_eq_ok.mp h
    obtain ⟨admin,_,_,_,_,_,_,_,_,hadmin,hauth,-⟩ := invest_ok h
    exact Or.inr (Or.inl (.admin rfl ⟨admin,hadmin,hauth⟩))
  | divest amount =>
    obtain ⟨_,h,-⟩ := map_eq_ok.mp h
    obtain ⟨strategy,hstrategy,-⟩ := divest_ok.mp h
    exact Or.inr (Or.inr ⟨amount,rfl,by rw [hstrategy]; rfl⟩)
  | rebalance fromStrategy toStrategy amount minDivest minInvest =>
    obtain ⟨_,h,-⟩ := map_eq_ok.mp h
    obtain ⟨admin,_,_,_,_,_,_,_,_,_,hadmin,hauth,-⟩ := rebalance_ok h
    exact Or.inr (Or.inl (.admin rfl ⟨admin,hadmin,hauth⟩))
  | accrueYield amount =>
    obtain ⟨_,h,-⟩ := map_eq_ok.mp h
    exact Or.inl (accrueYield_sameFunds h)
  | reportBenjiYield strategy amount =>
    obtain ⟨_,h,-⟩ := map_eq_ok.mp h
    obtain ⟨_,_,_,hauth,-,hbenji,-⟩ := reportBenjiYield_ok h
    exact Or.inr (Or.inl (.benji strategy amount rfl hauth hbenji))
  | claimFees =>
    obtain ⟨_,h,-⟩ := map_eq_ok.mp h
    obtain ⟨_,_,_,c,-,-,-,-,-,-,rfl⟩ := claimFees_ok h
    exact Or.inl ⟨rfl,rfl⟩
  | totalAssets =>
    obtain ⟨_,h,-⟩ := map_eq_ok.mp h
    obtain ⟨_,c,-,-,-,rfl⟩ := totalAssets_ok.mp h
    exact Or.inl ⟨rfl,rfl⟩
  | _ => exact absurd rfl hc

end Authority

section Run

variable {chain : σ}

/-- A recall by `divest` is signed by the admin, unless there is nothing to recall. -/
def DivestsByAdmin (l : Ledger σ) : Action host → Prop
  | .invoke inv => match inv.call with
    | .divest amount => amount ≠ 0 → l.storage.strategy.isSome = true →
      AdminSigned inv.env l.storage
    | _ => True
  | .outside _ => True

/-- The invocation moves funds or changes a watermark only with an authority. -/
def FundsGuarded (l : Ledger σ) : Action host → Prop
  | .invoke inv => SameFunds l (invoke inv l) ∨ Entitled inv.env inv.call l (invoke inv l)
  | .outside _ => True

/-- The signers have none of the authorities: not the admin's, not the confirming
approver's, not the BENJI strategy's, and no share owner's for the owner's withdrawals. -/
def Outsider (l : Ledger σ) : Action host → Prop
  | .invoke inv => ¬ AdminSigned inv.env l.storage ∧
    (∀ approver ∈ l.storage.emergencyApproverSecondary, inv.auth approver = false) ∧
    (∀ strategy ∈ l.storage.benjiStrategy, inv.auth strategy = false) ∧
    match inv.call with
    | .withdraw user _ => inv.auth user = false
    | .executeWithdrawal user => inv.auth user = false
    | _ => True
  | .outside _ => True

theorem divest_zero {u : Unit} (hr : StoredInRange l.storage)
    (h : (divest env 0).run l = .ok u t) : SameFunds l t := by
  obtain ⟨strategy,-,c,-,-,-,rfl⟩ := divest_ok.mp h
  refine ⟨rfl,?_⟩
  have h0 := (hr.watermarks strategy).1
  have h1 : (if 0 < strategyWatermark l.storage strategy then
      strategyWatermark l.storage strategy-0 else 0) = strategyWatermark l.storage strategy := by
    split_ifs <;> omega
  change strategyWatermark (loweredWatermark strategy 0 l.storage) = _
  rw [loweredWatermark,h1,strategyWatermark_setWatermark]
  exact Function.update_eq_self _ _

theorem invoke_guarded {a : Action host} (hr : StoredInRange l.storage) (hg : DivestsByAdmin l a) :
    FundsGuarded l a := by
  cases a with
  | outside c => trivial
  | invoke inv =>
    rcases invoke_cases inv l with ⟨v,hv⟩ | hsame
    · rcases dispatch_entitled hv with hfunds | hent | ⟨amount,hcall,hset⟩
      · exact Or.inl hfunds
      · exact Or.inr hent
      · by_cases h0 : amount = 0
        · subst h0
          rw [hcall] at hv
          obtain ⟨_,hv,-⟩ := map_eq_ok.mp hv
          exact Or.inl (divest_zero hr hv)
        · have hadmin : AdminSigned inv.env l.storage := by
            simp only [DivestsByAdmin,hcall] at hg
            exact hg h0 hset
          exact Or.inr (.admin (by rw [hcall]; rfl) hadmin)
    · exact Or.inl (by rw [hsame]; exact SameFunds.refl l)

theorem Outsider.sameFunds {a : Action host} (ho : Outsider l a) (hf : FundsGuarded l a) :
    SameFunds l (step host a l) := by
  cases a with
  | outside c => exact ⟨rfl,rfl⟩
  | invoke inv =>
    obtain ⟨hadmin,happrover,hbenji,huser⟩ := ho
    rcases hf with hsame | hent
    · exact hsame
    · cases hent with
      | admin manages signed => exact absurd signed hadmin
      | emergency confirmer id proposal confirms confirmable kind =>
        have h1 : inv.auth confirmer = false := happrover confirmer confirmable.secondary
        exact absurd (confirmable.auth.symm.trans h1) (by decide)
      | benji strategy amount reports signed configured =>
        have h1 : inv.auth strategy = false := hbenji strategy configured
        exact absurd (signed.symm.trans h1) (by decide)
      | withdrawal user shares withdraws signed shortfall =>
        rw [withdraws] at huser
        have h1 : inv.auth user = false := huser
        exact absurd (signed.symm.trans h1) (by decide)
      | execution user executes signed shortfall =>
        rw [executes] at huser
        have h1 : inv.auth user = false := huser
        exact absurd (signed.symm.trans h1) (by decide)

/-- In a run whose recalls by `divest` are the admin's, every invocation that moves funds
of a strategy or changes a watermark carries an authority; the emergency proposals that
may be confirmed were made by the primary approver of their time; and callers without an
authority move nothing by any sequence of calls. -/
theorem strategyFunds_guarded {acts : List (Action host)}
    (ha : Runs.Along (step host) DivestsByAdmin (genesis chain) acts) :
    Runs.Along (step host) FundsGuarded (genesis chain) acts ∧
      (∀ before after, acts = before ++ after → ∀ id p,
        (runFrom host chain before).storage.emergencyProposal id = some p →
          Proposed host chain before p) ∧
      ∀ before rest, acts = before ++ rest →
        Runs.Along (step host) Outsider (runFrom host chain before) rest →
          SameFunds (runFrom host chain before) (runFrom host chain acts) := by
  have hall : Runs.Along (step host) FundsGuarded (genesis chain) acts :=
    ha.of_invariant (fun l a hr _ => step_inRange l a hr) (fun l a hr hg => invoke_guarded hr hg)
      storedInRange_empty
  refine ⟨hall,fun before _ _ => stored_proposed before,?_⟩
  rintro before rest rfl ho
  have hrest : Runs.Along (step host) FundsGuarded (runFrom host chain before) rest :=
    (Runs.along_append.mp hall).2
  have hstep : ∀ l a, True → (Outsider l a ∧ FundsGuarded l a) →
      True ∧ SameFunds l (step host a l) := fun l a _ hg => ⟨trivial,hg.1.sameFunds hg.2⟩
  have hsame := (ho.and hrest).relate (fun l _ => SameFunds.refl l)
    (fun _ _ _ h h' => h.trans h') hstep trivial
  have hrun : Runs.run (step host) rest (runFrom host chain before) =
      runFrom host chain (before ++ rest) := (Runs.run_append _ _ _ _).symm
  rwa [hrun] at hsame

open SimpleHost

def placedFunds : List (Action (simpleHost id 0)) :=
  [signed admin 0 (.initializeVault admin token),
    signed admin 1 (.setting (.whitelist strategyA true)),
    signed admin 2 (.setting (.strategy strategyA)),
    signed alice 3 (.deposit alice 1000),
    signed admin 4 (.invest 400),
    signed admin 5 (.divest 100)]

def bystanders : List (Action (simpleHost id 0)) :=
  [signed bob 6 (.deposit bob 500),signed bob 7 (.divest 0),signed bob 8 (.invest 10)]

theorem placedFunds_byAdmin :
    Runs.Along (step (simpleHost id 0)) DivestsByAdmin (genesis bank)
      (placedFunds ++ bystanders) := by
  refine ⟨trivial,trivial,trivial,trivial,trivial,?_,trivial,?_,trivial,trivial⟩
  · intro _ _
    exact ⟨admin,rfl,rfl⟩
  · intro h _
    exact absurd rfl h

theorem signed_outsider {l : Ledger Bank} {who : Address} {time : ℕ} {call : Call}
    (hadmin : l.storage.proxy.admin = some admin) (hwho : who ≠ admin)
    (hsecondary : l.storage.emergencyApproverSecondary = none)
    (hbenji : l.storage.benjiStrategy = none)
    (hcall : match call with
      | .withdraw _ _ | .executeWithdrawal _ => False
      | _ => True) : Outsider l (signed who time call : Action (simpleHost id 0)) := by
  refine ⟨?_,?_,?_,?_⟩
  · rintro ⟨a,ha,hsigned⟩
    obtain rfl := Option.some.inj (hadmin.symm.trans ha)
    have h1 : admin = who ∧ admin ≠ ⟨0⟩ := of_decide_eq_true hsigned
    exact hwho h1.1.symm
  · intro approver happrover
    rw [hsecondary] at happrover
    exact absurd happrover (Option.not_mem_none _)
  · intro strategy hstrategy
    rw [hbenji] at hstrategy
    exact absurd hstrategy (Option.not_mem_none _)
  · cases call with
    | withdraw user shares => exact absurd hcall id
    | executeWithdrawal user => exact absurd hcall id
    | _ => trivial

theorem bystanders_outside :
    Runs.Along (step (simpleHost id 0)) Outsider (runFrom (simpleHost id 0) bank placedFunds)
      bystanders :=
  ⟨signed_outsider rfl (by decide) rfl rfl trivial,signed_outsider rfl (by decide) rfl rfl trivial,
    signed_outsider rfl (by decide) rfl rfl trivial,trivial⟩

theorem placedFunds_guarded :
    Runs.Along (step (simpleHost id 0)) FundsGuarded (genesis bank)
        (placedFunds ++ bystanders) ∧
      SameFunds (runFrom (simpleHost id 0) bank placedFunds)
        (runFrom (simpleHost id 0) bank (placedFunds ++ bystanders)) :=
  ⟨(strategyFunds_guarded placedFunds_byAdmin).1,
    (strategyFunds_guarded placedFunds_byAdmin).2.2 placedFunds bystanders rfl bystanders_outside⟩

/-- Nobody else's signature is asked for: bob recalls the funds that the admin placed. -/
theorem divest_unguarded :
    ¬ ∀ (acts : List (Action (simpleHost id 0))) (a : Action (simpleHost id 0)),
      FundsGuarded (runFrom (simpleHost id 0) bank acts) a := by
  intro h
  have hrecall := h placedFunds (signed bob 6 (.divest 300))
  rcases hrecall with hsame | hent
  · exact absurd hsame.flows (by decide)
  · cases hent with
    | admin manages signed =>
      obtain ⟨a,ha,hsigned⟩ := signed
      obtain rfl := Option.some.inj ha
      exact absurd hsigned (by decide)
    | emergency confirmer id proposal confirms confirmable kind => exact absurd confirms nofun
    | benji strategy amount reports signed configured => exact absurd reports nofun
    | withdrawal user shares withdraws signed shortfall => exact absurd withdraws nofun
    | execution user executes signed shortfall => exact absurd executes nofun

end Run

end YieldVault
