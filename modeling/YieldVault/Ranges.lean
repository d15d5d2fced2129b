import YieldVault.FundMoves

/-! The ranges of what the storage keeps beside the books: every watermark is a
non-negative `i128`, and every user's recorded deposit is an `i128`. -/
namespace YieldVault

open FixedWidth Contract

variable {σ : Type} {host : Host σ} {env : Env σ} {l t : Ledger σ}

structure StoredInRange (s : Storage) : Prop where
  watermarks : ∀ strategy, 0 ≤ strategyWatermark s strategy ∧ I128 (strategyWatermark s strategy)
  deposits : ∀ user, I128 (userDeposit s user)

theorem storedInRange_empty : StoredInRange {} :=
  ⟨fun _ => ⟨le_rfl,fits_zero 128⟩,fun _ => fits_zero 128⟩

theorem StoredInRange.of_eq {s s' : Storage} (h : StoredInRange s)
    (hw : strategyWatermark s' = strategyWatermark s) (hd : userDeposit s' = userDeposit s) :
    StoredInRange s' := by
  refine ⟨fun strategy => ?_,fun user => ?_⟩
  · rw [hw]
    exact h.watermarks strategy
  · rw [hd]
    exact h.deposits user

theorem StoredInRange.of_userDeposit {s s' : Storage} (h : StoredInRange s)
    (hw : strategyWatermark s' = strategyWatermark s) (user : Address) {v : ℤ} (hv : I128 v)
    (hd : userDeposit s' = Function.update (userDeposit s) user v) :
    StoredInRange s' := by
  refine ⟨fun strategy => ?_,fun other => ?_⟩
  · rw [hw]
    exact h.watermarks strategy
  · rw [hd]
    by_cases he : other = user
    · subst he
      rwa [Function.update_self]
    · rw [Function.update_of_ne he]
      exact h.deposits other

theorem StoredInRange.raised {s : Storage} (h : StoredInRange s) {strategy : Address} {value : ℤ}
    (hv : I128 value) : StoredInRange (raisedWatermark strategy value s) := by
  refine ⟨fun other => ?_,h.deposits⟩
  have h0 := (h.watermarks strategy).1
  have h1 := h.watermarks other
  unfold raisedWatermark strategyWatermark at *
  split_ifs with hlt
  · by_cases he : other = strategy
    · subst he
      simp only [Function.update_self,Option.getD_some]
      exact ⟨by omega,hv⟩
    · simpa only [Function.update_of_ne he] using h1
  · exact h1

theorem StoredInRange.lowered {s : Storage} (h : StoredInRange s) {strategy : Address} {amount : ℤ}
    (hv : amount < strategyWatermark s strategy → I128 (strategyWatermark s strategy-amount)) :
    StoredInRange (loweredWatermark strategy amount s) := by
  refine ⟨fun other => ?_,h.deposits⟩
  unfold loweredWatermark
  rw [strategyWatermark_setWatermark]
  by_cases he : other = strategy
  · subst he
    rw [Function.update_self]
    split_ifs with hlt
    · exact ⟨by omega,hv hlt⟩
    · exact ⟨le_rfl,fits_zero 128⟩
  · rw [Function.update_of_ne he]
    exact h.watermarks other

section Calls

theorem LeavesFunds.inRange (hl : LeavesFunds l t) (h : StoredInRange l.storage) :
    StoredInRange t.storage := by
  refine h.of_eq ?_ ?_
  · unfold strategyWatermark
    rw [hl.watermarks]
  · unfold userDeposit
    rw [hl.deposits]

theorem divest_inRange {amount : ℤ} {u : Unit} (h : StoredInRange l.storage)
    (hrun : (divest env amount).run l = .ok u t) : StoredInRange t.storage := by
  obtain ⟨strategy,-,c,-,hmark,-,rfl⟩ := divest_ok.mp hrun
  exact (h.lowered hmark).of_eq rfl rfl

theorem doWithdraw_inRange {user : Address} {shares paid r : ℤ} {state : VaultState}
    (h : StoredInRange l.storage)
    (hrun : (doWithdraw env state user shares paid).run l = .ok r t) :
    StoredInRange t.storage := by
  obtain ⟨token,m,c,-,hcover,-,hfits,-,rfl⟩ := doWithdraw_ok.mp hrun
  have hm : StoredInRange m.storage := by
    rw [coverShortfall_ok] at hcover
    split_ifs at hcover
    · exact divest_inRange h hcover.2
    · exact hcover ▸ h
  have hv : I128 (if paid < userDeposit m.storage user then
      userDeposit m.storage user-paid else 0) := by
    split_ifs with hlt
    · exact hfits.2.2.2.2.2 hlt
    · exact fits_zero 128
  exact hm.of_userDeposit (by simp [debitedWithdrawal]) user hv (by simp [debitedWithdrawal])

theorem creditedDeposit_inRange {time : ℕ} {user : Address} {amount shares stored : ℤ}
    {s : Storage} (h : StoredInRange s) (hv : I128 (userDeposit s user+amount)) :
    StoredInRange (creditedDeposit time user amount shares stored s) :=
  h.of_userDeposit (by simp [creditedDeposit]) user hv (by simp [creditedDeposit])

theorem batchDeposit_inRange {relayer : Address} {entries : List DepositEntry}
    {result : BatchDepositResult} (h : StoredInRange l.storage)
    (hrun : (batchDeposit env relayer entries).run l = .ok result t) :
    StoredInRange t.storage := by
  obtain ⟨token,batch,m,-,-,-,-,-,hloop,-,rfl⟩ := batchDeposit_ok hrun
  let P : VaultState → Ledger σ → Prop := fun _ m => StoredInRange m.storage
  have hP : P batch.state m := by
    refine processEntries_invariant ?_ hloop h
    rintro state state' user amount shares m m' hm hentry
    obtain ⟨c,-,-,-,-,-,-,-,hfits,-,rfl⟩ := processSingleBatchEntry_ok.mp hentry
    exact creditedDeposit_inRange hm hfits.1
  exact StoredInRange.of_eq hP rfl rfl

theorem applyEmergency_inRange {proposal : EmergencyProposal} {u : Unit}
    (h : StoredInRange l.storage) (hrun : (applyEmergency env proposal).run l = .ok u t) :
    StoredInRange t.storage := by
  by_cases hkind : proposal.kind = .emergencyDivest
  · simp only [applyEmergency,hkind,expect_bind_eq_ok] at hrun
    obtain ⟨amount,-,hrun⟩ := hrun
    exact divest_inRange h hrun
  · exact (applyEmergency_leavesFunds hkind hrun).inRange h

theorem dispatch_inRange {call : Call} {v : Value} (hr : StoredInRange l.storage)
    (h : (dispatch env call).run l = .ok v t) : StoredInRange t.storage := by
  by_cases hc : call.runsHouse = true
  · exact (dispatch_leavesFunds hc h).inRange hr
  cases call with
  | confirmEmergencyAction confirmer id =>
    obtain ⟨_,h,-⟩ := map_eq_ok.mp h
    obtain ⟨p,m,-,happly,rfl⟩ := confirmEmergencyAction_ok h
    refine (applyEmergency_inRange ?_ happly).of_eq rfl rfl
    exact hr.of_eq rfl rfl
  | accrueKoreanDebtYield =>
    obtain ⟨_,h,-⟩ := map_eq_ok.mp h
    obtain ⟨_,_,c,-,-,-,-,-,-,rfl⟩ := accrueKoreanDebtYield_ok.mp h
    exact hr.of_eq rfl rfl
  | deposit user amount =>
    obtain ⟨shares,h,-⟩ := map_eq_ok.mp h
    obtain ⟨token,c,-,-,-,-,-,-,-,-,-,hfits,rfl⟩ := deposit_ok.mp h
    have hcredited : StoredInRange (creditedDeposit env.timestamp user amount shares
        ((getState l.storage).totalShares+shares) l.storage) := creditedDeposit_inRange hr hfits.1
    exact hcredited.of_eq rfl rfl
  | batchDeposit relayer entries =>
    obtain ⟨_,h,-⟩ := map_eq_ok.mp h
    exact batchDeposit_inRange hr h
  | withdraw user shares =>
    obtain ⟨_,h,-⟩ := map_eq_ok.mp h
    obtain ⟨_,_,-,-,-,-,-,⟨-,h⟩ | ⟨-,-,-,rfl⟩⟩ := withdraw_ok.mp h
    · exact doWithdraw_inRange hr h
    · exact hr.of_eq rfl rfl
  | executeWithdrawal user =>
    obtain ⟨_,h,-⟩ := map_eq_ok.mp h
    obtain ⟨_,_,-,-,-,-,h⟩ := executeWithdrawal_ok.mp h
    refine doWithdraw_inRange ?_ h
    exact hr.of_eq rfl rfl
  | invest amount =>
    obtain ⟨_,h,-⟩ := map_eq_ok.mp h
    obtain ⟨_,strategy,_,held,_,_,_,_,c,-,-,-,-,-,-,-,-,-,-,-,hfit,-,-,-,rfl⟩ := invest_ok h
    exact (hr.raised hfit).of_eq rfl rfl
  | divest amount =>
    obtain ⟨_,h,-⟩ := map_eq_ok.mp h
    exact divest_inRange hr h
  | rebalance fromStrategy toStrategy amount minDivest minInvest =>
    obtain ⟨_,h,-⟩ := map_eq_ok.mp h
    obtain ⟨_,_,_,_,_,_,_,after,_,received,-,-,-,-,-,-,-,-,-,-,hafter,hfit,-,rfl⟩ := rebalance_ok h
    exact (hr.lowered hfit).raised (env.host.totalValue_fits hafter)
  | accrueYield amount =>
    obtain ⟨_,h,-⟩ := map_eq_ok.mp h
    obtain ⟨_,_,_,c,-,-,-,-,-,-,-,-,-,rfl⟩ := accrueYield_ok h
    exact hr.of_eq rfl rfl
  | reportBenjiYield strategy amount =>
    obtain ⟨_,h,-⟩ := map_eq_ok.mp h
    obtain ⟨_,fee,c,-,-,-,-,-,-,-,-,-,hmark,rfl⟩ := reportBenjiYield_ok h
    have hfee : StoredInRange (creditedTreasury fee l.storage) := hr.of_eq rfl rfl
    exact (hfee.raised hmark).of_eq rfl rfl
  | claimFees =>
    obtain ⟨_,h,-⟩ := map_eq_ok.mp h
    obtain ⟨_,_,_,c,-,-,-,-,-,-,rfl⟩ := claimFees_ok h
    exact hr.of_eq rfl rfl
  | totalAssets =>
    obtain ⟨_,h,-⟩ := map_eq_ok.mp h
    obtain ⟨_,c,-,-,-,rfl⟩ := totalAssets_ok.mp h
    exact hr.of_eq rfl rfl
  | _ => exact absurd rfl hc

theorem step_inRange (l : Ledger σ) (a : Action host) (hr : StoredInRange l.storage) :
    StoredInRange (step host a l).storage :=
  step_storage (fun _ _ _ _ hv h => dispatch_inRange h hv) l a hr

theorem run_inRange (chain : σ) (acts : List (Action host)) :
    StoredInRange (runFrom host chain acts).storage :=
  run_storage (fun _ _ _ _ hv h => dispatch_inRange h hv) acts storedInRange_empty

end Calls

end YieldVault
