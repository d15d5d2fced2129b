import YieldVault.EntryPoints

/-! The calls that move funds between the vault, its strategies and its treasury. They
write the idle balance, the watermarks and the fees, and a yield the priced assets; all
else in the storage stays as it was, and the log tells only of funds. The calls that run
the house write neither watermarks nor deposits and only announce things. -/
namespace YieldVault

open FixedWidth Contract

variable {σ : Type} {env : Env σ} {l t : Ledger σ} {call : Call} {v : Value}

/-- The calls that add assets to the price without minting shares. -/
def Call.isYield : Call → Bool
  | .accrueYield _ | .reportBenjiYield _ _ | .accrueKoreanDebtYield => true
  | _ => false

/-- The calls that move funds at an unchanged price. -/
def Call.movesFunds : Call → Bool
  | .invest _ | .divest _ | .rebalance _ _ _ _ _ | .claimFees | .totalAssets => true
  | _ => false

def Call.runsHouse : Call → Bool
  | .initializeVault _ _ | .upgrade _ | .migrateStorage _ | .pause _ | .unpause
  | .proposeEmergencyAction _ _ _ _ _ => true
  | call => call.isQuiet

/-- The storage with the idle balance, the watermarks and the fees blanked. -/
def offFunds (s : Storage) : Storage :=
  { s with totalAssets := none, strategyWatermark := fun _ => none, treasuryBalance := none }

def Effect.tellsFunds : Effect → Bool
  | .transfer _ _ _ _ | .strategyDeposit _ _ | .strategyWithdraw _ _ => true
  | .event (.feeAccrued _ _) | .event (.feesClaimed _ _) | .event (.watermarkRaised _ _ _) => true
  | _ => false

def FundsLogged (l t : Ledger σ) : Prop :=
  ∃ es, t.log = es ++ l.log ∧ ∀ e ∈ es, e.tellsFunds = true

structure MovesFunds (l t : Ledger σ) : Prop where
  storage : offFunds t.storage = offFunds l.storage
  log : FundsLogged l t

/-- The priced assets have grown by `net`. -/
structure PaysYield (net : ℤ) (l t : Ledger σ) : Prop where
  nonneg : 0 ≤ net
  storage : offFunds t.storage = offFunds (creditedYield net l.storage)
  log : FundsLogged l t

structure LeavesFunds (l t : Ledger σ) : Prop where
  watermarks : t.storage.strategyWatermark = l.storage.strategyWatermark
  deposits : t.storage.userDeposit = l.storage.userDeposit
  log : ∃ notices, t.log = notices ++ l.log ∧ ∀ e ∈ notices, IsNotice e

/-- What is read off the funds is the same where the storage is. -/
theorem read_offFunds {V : Type*} {f : Storage → V} (hf : ∀ s, f (offFunds s) = f s)
    {s s' : Storage} (h : offFunds s' = offFunds s) : f s' = f s := by
  rw [← hf s',h,hf s]

section Setters

variable (s : Storage) (x : ℤ)

@[simp] theorem offFunds_setIdleAssets : offFunds (setIdleAssets x s) = offFunds s := rfl

@[simp] theorem offFunds_setTreasuryBalance :
    offFunds (setTreasuryBalance x s) = offFunds s := rfl

@[simp] theorem offFunds_raisedWatermark (strategy : Address) :
    offFunds (raisedWatermark strategy x s) = offFunds s := rfl

@[simp] theorem offFunds_loweredWatermark (strategy : Address) :
    offFunds (loweredWatermark strategy x s) = offFunds s := rfl

@[simp] theorem offFunds_creditedTreasury :
    offFunds (creditedTreasury x s) = offFunds s := rfl

@[simp] theorem offFunds_setState (state : VaultState) :
    offFunds (setState state s) = setState state (offFunds s) := rfl

theorem tellsFunds_watermarkNotice (strategy : Address) :
    ∀ e ∈ watermarkNotice strategy x s, e.tellsFunds = true := by
  unfold watermarkNotice
  split_ifs <;> simp [Effect.tellsFunds]

theorem tellsFunds_feeNotice : ∀ e ∈ feeNotice x s, e.tellsFunds = true := by
  unfold feeNotice
  split_ifs <;> simp [Effect.tellsFunds]

end Setters

section Logs

variable {s : Storage} {c : σ} {e : Effect} {log : List Effect}

theorem FundsLogged.refl (h : t.log = l.log) : FundsLogged l t := ⟨[],h,by simp⟩

theorem FundsLogged.cons (h : FundsLogged l ⟨s,c,log⟩) (he : e.tellsFunds = true) :
    FundsLogged l ⟨s,c,e :: log⟩ := by
  obtain ⟨es,hlog,hes⟩ := h
  exact ⟨e :: es,congrArg (List.cons e) hlog,List.forall_mem_cons.mpr ⟨he,hes⟩⟩

theorem FundsLogged.append {notices : List Effect} (h : FundsLogged l ⟨s,c,log⟩)
    (hn : ∀ e ∈ notices, e.tellsFunds = true) : FundsLogged l ⟨s,c,notices ++ log⟩ := by
  obtain ⟨es,hlog,hes⟩ := h
  refine ⟨notices ++ es,?_,List.forall_mem_append.mpr ⟨hn,hes⟩⟩
  rw [List.append_assoc,← hlog]

end Logs

section Calls

theorem MovesFunds.refl (l : Ledger σ) : MovesFunds l l := ⟨rfl,FundsLogged.refl rfl⟩

theorem divest_movesFunds {amount : ℤ} {u : Unit} (h : (divest env amount).run l = .ok u t) :
    MovesFunds l t := by
  obtain ⟨_,-,c,-,-,-,rfl⟩ := divest_ok.mp h
  exact ⟨by simp,(FundsLogged.refl (t := l) rfl).cons rfl⟩

theorem coverShortfall_movesFunds {paid : ℤ} {u : Unit}
    (h : (coverShortfall env paid).run l = .ok u t) : MovesFunds l t := by
  rw [coverShortfall_ok] at h
  split_ifs at h
  · exact divest_movesFunds h.2
  · rw [h]
    apply MovesFunds.refl

theorem dispatch_movesFunds (hc : call.movesFunds = true)
    (h : (dispatch env call).run l = .ok v t) : MovesFunds l t := by
  have hl : FundsLogged l l := FundsLogged.refl rfl
  cases call with
  | invest amount =>
    obtain ⟨_,h,-⟩ := map_eq_ok.mp h
    obtain ⟨_,_,_,_,_,_,_,_,c,-,-,-,-,-,-,-,-,-,-,-,-,-,-,-,rfl⟩ := invest_ok h
    exact ⟨by simp,(hl.cons rfl).append (tellsFunds_watermarkNotice _ _ _)⟩
  | divest amount =>
    obtain ⟨_,h,-⟩ := map_eq_ok.mp h
    exact divest_movesFunds h
  | rebalance fromStrategy toStrategy amount minDivest minInvest =>
    obtain ⟨_,h,-⟩ := map_eq_ok.mp h
    obtain ⟨_,_,_,_,_,_,_,_,_,_,-,-,-,-,-,-,-,-,-,-,-,-,-,rfl⟩ := rebalance_ok h
    exact ⟨by simp,((hl.cons rfl).cons rfl).append (tellsFunds_watermarkNotice _ _ _)⟩
  | claimFees =>
    obtain ⟨_,h,-⟩ := map_eq_ok.mp h
    obtain ⟨_,_,_,c,-,-,-,-,-,-,rfl⟩ := claimFees_ok h
    exact ⟨by simp,(hl.cons rfl).cons rfl⟩
  | totalAssets =>
    obtain ⟨_,h,-⟩ := map_eq_ok.mp h
    obtain ⟨_,c,-,-,-,rfl⟩ := totalAssets_ok.mp h
    exact ⟨rfl,FundsLogged.refl rfl⟩
  | _ => exact absurd hc Bool.false_ne_true

theorem dispatch_yields (hy : call.isYield = true) (h : (dispatch env call).run l = .ok v t) :
    ∃ net, PaysYield net l t := by
  have hl : FundsLogged l l := FundsLogged.refl rfl
  cases call with
  | accrueYield amount =>
    obtain ⟨_,h,-⟩ := map_eq_ok.mp h
    obtain ⟨_,_,fee,c,-,-,hpos,hfee,-,-,-,-,-,rfl⟩ := accrueYield_ok h
    exact ⟨amount-fee,sub_nonneg.mpr (fee_bounds hpos hfee).2,by simp [creditedYield],
      (hl.cons rfl).append (tellsFunds_feeNotice _ _)⟩
  | reportBenjiYield strategy amount =>
    obtain ⟨_,h,-⟩ := map_eq_ok.mp h
    obtain ⟨_,fee,c,-,hpos,-,hfee,-,-,-,-,-,-,rfl⟩ := reportBenjiYield_ok h
    exact ⟨amount-fee,sub_nonneg.mpr (fee_bounds hpos hfee).2,by simp [creditedYield],
      (hl.cons rfl).append (tellsFunds_watermarkNotice _ _ _)⟩
  | accrueKoreanDebtYield =>
    obtain ⟨harvested,h,-⟩ := map_eq_ok.mp h
    obtain ⟨_,_,c,-,-,-,-,hpos,-,rfl⟩ := accrueKoreanDebtYield_ok.mp h
    exact ⟨harvested,hpos.le,by simp [creditedYield],FundsLogged.refl rfl⟩
  | _ => exact absurd hy Bool.false_ne_true

theorem Quiet.leavesFunds (hq : Quiet env l t) : LeavesFunds l t :=
  ⟨congrArg Accounts.strategyWatermark hq.accounts,congrArg Accounts.userDeposit hq.accounts,hq.log⟩

theorem runStorageMigration_leavesFunds {target : ℕ} {u : Unit}
    (h : (runStorageMigration target).run l = .ok u t) : LeavesFunds l t := by
  simp [runStorageMigration] at h
  obtain ⟨-,rfl⟩ := h
  refine ⟨?_,?_,[_],rfl,by simp [IsNotice]⟩
  · split_ifs <;> rfl
  · split_ifs <;> rfl

theorem upgrade_leavesFunds {hash : BytesN32} {u : Unit}
    (h : (upgrade env hash).run l = .ok u t) : LeavesFunds l t := by
  obtain ⟨_,-,-,h⟩ := requireAdmin_bind_eq_ok.mp h
  obtain ⟨_,m,hm,h⟩ := bind_eq_ok.mp h
  obtain ⟨c,-,rfl⟩ := call_eq_ok.mp h
  obtain ⟨hmark,hdeposit,notices,hlog,hn⟩ := runStorageMigration_leavesFunds (expectOk_ok hm)
  refine ⟨hmark,hdeposit,.updateWasm hash :: notices,congrArg (List.cons _) hlog,?_⟩
  exact List.forall_mem_cons.mpr ⟨trivial,hn⟩

theorem dispatch_leavesFunds (hc : call.runsHouse = true)
    (h : (dispatch env call).run l = .ok v t) : LeavesFunds l t := by
  by_cases hq : call.isQuiet = true
  · exact (dispatch_quiet hq h).leavesFunds
  cases call with
  | initializeVault admin token =>
    obtain ⟨_,h,-⟩ := map_eq_ok.mp h
    obtain ⟨-,rfl⟩ := initializeVault_ok h
    exact ⟨rfl,rfl,[],rfl,isNotice_nil⟩
  | upgrade hash =>
    obtain ⟨_,h,-⟩ := map_eq_ok.mp h
    exact upgrade_leavesFunds h
  | migrateStorage version =>
    obtain ⟨_,h,-⟩ := map_eq_ok.mp h
    obtain ⟨_,-,-,h⟩ := requireAdmin_bind_eq_ok.mp h
    exact runStorageMigration_leavesFunds h
  | pause reason =>
    obtain ⟨_,h,-⟩ := map_eq_ok.mp h
    obtain ⟨_,-,-,rfl⟩ := pause_ok.mp h
    exact ⟨rfl,rfl,[_],rfl,by simp [IsNotice]⟩
  | unpause =>
    obtain ⟨_,h,-⟩ := map_eq_ok.mp h
    obtain ⟨_,-,-,rfl⟩ := unpause_ok.mp h
    exact ⟨rfl,rfl,[_],rfl,by simp [IsNotice]⟩
  | proposeEmergencyAction initiator kind code amount hash =>
    obtain ⟨_,h,-⟩ := map_eq_ok.mp h
    obtain ⟨-,-,-,-,rfl⟩ := proposeEmergencyAction_ok.mp h
    exact ⟨rfl,rfl,[_],rfl,by simp [IsNotice]⟩
  | _ => exact absurd hc hq

theorem applyEmergency_leavesFunds {proposal : EmergencyProposal} {u : Unit}
    (hkind : proposal.kind ≠ .emergencyDivest)
    (h : (applyEmergency env proposal).run l = .ok u t) : LeavesFunds l t := by
  cases hk : proposal.kind with
  | emergencyDivest => exact absurd hk hkind
  | pause =>
    simp [applyEmergency,hk] at h
    subst h
    exact ⟨rfl,rfl,[],rfl,isNotice_nil⟩
  | unpause =>
    simp [applyEmergency,hk] at h
    subst h
    exact ⟨rfl,rfl,[],rfl,isNotice_nil⟩
  | forceUpgrade =>
    simp only [applyEmergency,hk,expect_bind_eq_ok] at h
    obtain ⟨hash,-,h⟩ := h
    obtain ⟨c,-,rfl⟩ := call_eq_ok.mp h
    exact ⟨rfl,rfl,[.updateWasm hash],rfl,by simp [IsNotice]⟩

end Calls

end YieldVault
