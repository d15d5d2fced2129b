import YieldVault.PriceFloor
import YieldVault.StorageParts

/-! The totals that only ever follow what comes in: what each user has deposited, what the
treasury has earned, what each strategy has reported. None of them is bounded by the assets,
but all of them by what the vault has received. -/
namespace YieldVault

open FixedWidth Contract

variable {σ : Type} {host : Host σ} {env : Env σ} {chain : σ} {l t : Ledger σ}

def received (vault : Address) : List Effect → ℤ
  | [] => 0
  | .transfer _ _ receiver amount :: rest =>
    if receiver = vault then received vault rest+amount else received vault rest
  | _ :: rest => received vault rest

theorem received_notices (vault : Address) (log : List Effect) {notices : List Effect}
    (h : ∀ e ∈ notices, IsNotice e) : received vault (notices ++ log) = received vault log := by
  induction notices with
  | nil => rfl
  | cons e rest ih =>
    have hrest := ih fun e he => h e (List.mem_cons_of_mem _ he)
    have he := h e List.mem_cons_self
    cases e with
    | transfer token sender receiver amount => exact absurd he id
    | _ => exact hrest

/-- The running totals lie between zero and a bound. -/
structure Totals (bound : ℤ) (s : Storage) : Prop where
  deposits : ∀ user, 0 ≤ userDeposit s user ∧ userDeposit s user ≤ bound
  treasury : 0 ≤ treasuryBalance s ∧ treasuryBalance s ≤ bound
  watermarks : ∀ strategy, 0 ≤ strategyWatermark s strategy ∧ strategyWatermark s strategy ≤ bound

namespace Totals

variable {bound bound' amount : ℤ} {s s' : Storage} {user strategy : Address}

theorem empty : Totals 0 {} := ⟨fun _ => ⟨le_rfl,le_rfl⟩,⟨le_rfl,le_rfl⟩,fun _ => ⟨le_rfl,le_rfl⟩⟩

theorem mono (h : Totals bound s) (hle : bound ≤ bound') : Totals bound' s :=
  ⟨fun user => ⟨(h.deposits user).1,(h.deposits user).2.trans hle⟩,
    ⟨h.treasury.1,h.treasury.2.trans hle⟩,
    fun strategy => ⟨(h.watermarks strategy).1,(h.watermarks strategy).2.trans hle⟩⟩

theorem of_eq (h : Totals bound s) (hd : userDeposit s' = userDeposit s)
    (ht : treasuryBalance s' = treasuryBalance s)
    (hw : strategyWatermark s' = strategyWatermark s) : Totals bound s' :=
  ⟨hd ▸ h.deposits,ht ▸ h.treasury,hw ▸ h.watermarks⟩

theorem between_update {f : Address → ℤ} {a : Address} {v : ℤ}
    (hf : ∀ b, 0 ≤ f b ∧ f b ≤ bound) (hv : 0 ≤ v ∧ v ≤ bound) (b : Address) :
    0 ≤ Function.update f a v b ∧ Function.update f a v b ≤ bound :=
  (Function.forall_update_iff f (p := fun _ v => 0 ≤ v ∧ v ≤ bound)).mpr ⟨hv,fun b _ => hf b⟩ b

theorem credited (h : Totals bound s) (user : Address) (ha : 0 ≤ amount) (time : ℕ)
    (shares stored : ℤ) :
    Totals (bound+amount) (creditedDeposit time user amount shares stored s) := by
  have hlater := h.mono (le_add_of_nonneg_right ha)
  have huser := h.deposits user
  have hdeposits : userDeposit (creditedDeposit time user amount shares stored s) =
      Function.update (userDeposit s) user (userDeposit s user+amount) := by
    simp [creditedDeposit]
  refine ⟨fun other => ?_,?_,?_⟩
  · rw [hdeposits]
    exact between_update hlater.deposits ⟨by omega,by omega⟩ other
  · have htreasury : treasuryBalance (creditedDeposit time user amount shares stored s) =
        treasuryBalance s := by
      simp [creditedDeposit]
    exact htreasury ▸ hlater.treasury
  · have hmarks : strategyWatermark (creditedDeposit time user amount shares stored s) =
        strategyWatermark s := by
      simp [creditedDeposit]
    exact hmarks ▸ hlater.watermarks

/-- A withdrawal takes what it pays off one of the totals, down to zero. -/
theorem debited (h : Totals bound s) (user : Address) {paid : ℤ} (hp : 0 ≤ paid)
    (state : VaultState) (shares : ℤ) : Totals bound (debitedWithdrawal state user shares paid s) := by
  have huser := h.deposits user
  have hleft : 0 ≤ (if paid < userDeposit s user then userDeposit s user-paid else 0) ∧
      (if paid < userDeposit s user then userDeposit s user-paid else 0) ≤ bound := by
    split_ifs
    · exact ⟨by omega,by omega⟩
    · exact ⟨le_rfl,by omega⟩
  have hdeposits : userDeposit (debitedWithdrawal state user shares paid s) = Function.update
      (userDeposit s) user (if paid < userDeposit s user then userDeposit s user-paid else 0) := by
    simp [debitedWithdrawal]
  refine ⟨fun other => ?_,?_,?_⟩
  · rw [hdeposits]
    exact between_update h.deposits hleft other
  · have htreasury : treasuryBalance (debitedWithdrawal state user shares paid s) =
        treasuryBalance s := by
      simp [debitedWithdrawal]
    exact htreasury ▸ h.treasury
  · have hmarks : strategyWatermark (debitedWithdrawal state user shares paid s) =
        strategyWatermark s := by
      simp [debitedWithdrawal]
    exact hmarks ▸ h.watermarks

theorem fee (h : Totals bound s) {fee : ℤ} (hf : 0 ≤ fee) (hle : fee ≤ amount) :
    Totals (bound+amount) (creditedTreasury fee s) := by
  have hlater : Totals (bound+amount) s := h.mono (by omega)
  have htreasury := h.treasury
  refine ⟨hlater.deposits,?_,hlater.watermarks⟩
  rw [treasuryBalance_creditedTreasury hf]
  exact ⟨by omega,by omega⟩

theorem raised (h : Totals bound s) (strategy : Address) {value : ℤ} (hv : value ≤ bound) :
    Totals bound (raisedWatermark strategy value s) := by
  refine ⟨h.deposits,h.treasury,fun other => ?_⟩
  have hold := h.watermarks strategy
  have hother := h.watermarks other
  unfold raisedWatermark strategyWatermark at *
  split_ifs with hlt
  · by_cases he : other = strategy
    · subst he
      simp only [Function.update_self,Option.getD_some]
      exact ⟨by omega,hv⟩
    · simpa only [Function.update_of_ne he] using hother
  · exact hother

theorem quiet (hq : Quiet env l t) (h : Totals bound l.storage) : Totals bound t.storage := by
  have hmark : t.storage.strategyWatermark = l.storage.strategyWatermark :=
    congrArg Accounts.strategyWatermark hq.accounts
  have hdeposit : t.storage.userDeposit = l.storage.userDeposit :=
    congrArg Accounts.userDeposit hq.accounts
  have htreasury : t.storage.treasuryBalance = l.storage.treasuryBalance :=
    congrArg Accounts.treasuryBalance hq.accounts
  refine h.of_eq ?_ ?_ ?_
  · unfold userDeposit
    rw [hdeposit]
  · unfold treasuryBalance
    rw [htreasury]
  · unfold strategyWatermark
    rw [hmark]

end Totals

section Calls

/-- The running totals of a ledger are bounded by what its vault has received. -/
def Totalled (host : Host σ) (l : Ledger σ) : Prop := Totals (received host.vault l.log) l.storage

variable {user : Address} {amount shares : ℤ}

theorem deposit_totalled (henv : env.host = host) (h : Totalled host l)
    (hrun : (deposit env user amount).run l = .ok shares t) : Totalled host t := by
  obtain ⟨token,c,-,-,hpos,-,-,-,-,-,-,-,rfl⟩ := deposit_ok.mp hrun
  have hcredited := h.credited user hpos.le env.timestamp shares
    ((getState l.storage).totalShares+shares)
  have hnext : Totals (received host.vault l.log+amount)
      (setState (mintedState (getState l.storage) amount shares) (creditedDeposit env.timestamp
        user amount shares ((getState l.storage).totalShares+shares) l.storage)) :=
    hcredited.of_eq rfl rfl rfl
  simpa [Totalled,received,henv] using hnext

theorem batchDeposit_totalled {relayer : Address} {entries : List DepositEntry}
    {result : BatchDepositResult} (henv : env.host = host) (h : Totalled host l)
    (hrun : (batchDeposit env relayer entries).run l = .ok result t) : Totalled host t := by
  obtain ⟨token,batch,m,-,-,-,-,-,hloop,-,rfl⟩ := batchDeposit_ok hrun
  have hm : Totalled host m := by
    refine processEntries_invariant (P := fun _ m => Totalled host m) ?_ hloop h
    intro state state' user amount shares m m' hm hentry
    obtain ⟨c,hpos,-,-,-,-,-,-,-,-,rfl⟩ := processSingleBatchEntry_ok.mp hentry
    have hnext := hm.credited user hpos.le env.timestamp shares
      (storedTotalShares m.storage+shares)
    simpa [Totalled,received,henv] using hnext
  exact hm.of_eq rfl rfl rfl

theorem withdraw_totalled (hb : (books l).Floored) (hsigned : env.auth host.vault = false)
    (h : Totalled host l) (hrun : (withdraw env user amount).run l = .ok shares t) :
    Totalled host t := by
  obtain ⟨hpos,paid,-,hauth,-,hbal,hpaid,⟨-,hrun⟩ | ⟨-,-,-,rfl⟩⟩ := withdraw_ok.mp hrun
  · obtain ⟨token,m,c,-,hcover,-,-,-,rfl⟩ := doWithdraw_ok.mp hrun
    have hshares : amount ≤ (getState l.storage).totalShares :=
      hbal.trans (hb.sound.balance_le user)
    have hidle : paid ≤ idleAssets l.storage := hb.paid_le hpos hshares hpaid
    rw [coverShortfall_ok,if_neg (not_lt.mpr hidle)] at hcover
    subst hcover
    have hsupply : 0 < (getState l.storage).totalShares := by omega
    have hportion := sharesToAssets_portion hpos.le hsupply hb.sound.assets hpaid
    have hne : user ≠ host.vault := by
      rintro rfl
      rw [hsigned] at hauth
      exact Bool.false_ne_true hauth
    have hnext := h.debited user hportion.2.1 (getState l.storage) amount
    simpa [Totalled,received,hne] using hnext
  · exact h.of_eq rfl rfl rfl

theorem accrueYield_totalled {u : Unit} (henv : env.host = host) (h : Totalled host l)
    (hrun : (accrueYield env amount).run l = .ok u t) : Totalled host t := by
  obtain ⟨admin,token,fee,c,-,-,hpos,hfee,-,-,-,-,-,rfl⟩ := accrueYield_ok hrun
  have hsplit := fee_bounds hpos hfee
  have hnext : Totals (received host.vault l.log+amount)
      (creditedYield (amount-fee) (creditedTreasury fee l.storage)) :=
    (h.fee hsplit.1 hsplit.2).of_eq rfl rfl rfl
  have hlog := received_notices host.vault
    (.transfer token admin env.host.vault amount :: l.log)
    (isNotice_feeNotice fee l.storage)
  unfold Totalled
  rw [hlog,received,henv,if_pos rfl]
  exact hnext

theorem reportBenjiYield_totalled {strategy : Address} {u : Unit} (henv : env.host = host)
    (h : Totalled host l) (hrun : (reportBenjiYield env strategy amount).run l = .ok u t) :
    Totalled host t := by
  obtain ⟨token,fee,c,-,hpos,-,hfee,-,-,-,-,-,-,rfl⟩ := reportBenjiYield_ok hrun
  have hsplit := fee_bounds hpos hfee
  have hmark := (h.watermarks strategy).2
  have hle : strategyWatermark l.storage strategy+amount ≤ received host.vault l.log+amount := by
    omega
  have hnext : Totals (received host.vault l.log+amount) (creditedYield (amount-fee)
      (raisedWatermark strategy (strategyWatermark l.storage strategy+amount)
        (creditedTreasury fee l.storage))) :=
    ((h.fee hsplit.1 hsplit.2).raised strategy hle).of_eq rfl rfl rfl
  have hlog := received_notices host.vault
    (.transfer token strategy env.host.vault amount :: l.log)
    (isNotice_watermarkNotice strategy (strategyWatermark l.storage strategy+amount) l.storage)
  unfold Totalled
  rw [hlog,received,henv,if_pos rfl]
  exact hnext

theorem quiet_totalled (hq : Quiet env l t) (h : Totalled host l) : Totalled host t := by
  obtain ⟨notices,hlog,hn⟩ := hq.log
  unfold Totalled
  rw [hlog,received_notices _ _ hn]
  exact h.quiet hq

theorem office_quiet {call : Call} (h : call.isOffice = true) : call.isQuiet = true ∨
    (∃ admin token, call = .initializeVault admin token) ∨ (∃ reason, call = .pause reason) ∨
      call = .unpause := by
  cases call with
  | initializeVault admin token => exact Or.inr (Or.inl ⟨admin,token,rfl⟩)
  | pause reason => exact Or.inr (Or.inr (Or.inl ⟨reason,rfl⟩))
  | unpause => exact Or.inr (Or.inr (Or.inr rfl))
  | setting setting => exact Or.inl rfl
  | _ => exact Or.inl h

theorem step_totalled (hb : (books l).Floored) {a : Action host} (hg : Ordinary l a)
    (h : Totalled host l) : Totalled host (step host a l) := by
  cases a with
  | outside c => exact h
  | invoke inv =>
    change Totalled host (invoke inv l)
    rcases invoke_cases inv l with ⟨v,hv⟩ | hsame
    · rcases hg with hop | hoffice
      · obtain ⟨timestamp,sequence,auth,unsigned,call⟩ := inv
        cases call with
        | deposit user amount =>
          obtain ⟨_,hv,-⟩ := map_eq_ok.mp hv
          exact deposit_totalled rfl h hv
        | batchDeposit relayer entries =>
          obtain ⟨_,hv,-⟩ := map_eq_ok.mp hv
          exact batchDeposit_totalled rfl h hv
        | withdraw user shares =>
          obtain ⟨_,hv,-⟩ := map_eq_ok.mp hv
          exact withdraw_totalled hb unsigned h hv
        | accrueYield amount =>
          obtain ⟨_,hv,-⟩ := map_eq_ok.mp hv
          exact accrueYield_totalled rfl h hv
        | reportBenjiYield strategy amount =>
          obtain ⟨_,hv,-⟩ := map_eq_ok.mp hv
          exact reportBenjiYield_totalled rfl h hv
        | _ => exact absurd hop Bool.false_ne_true
      · rcases office_quiet hoffice with hq | ⟨admin,token,hcall⟩ | ⟨reason,hcall⟩ | hcall
        · exact quiet_totalled (dispatch_quiet hq hv) h
        · rw [hcall] at hv
          obtain ⟨_,hv,-⟩ := map_eq_ok.mp hv
          obtain ⟨-,ht⟩ := initializeVault_ok hv
          rw [ht]
          exact h.of_eq rfl rfl rfl
        · rw [hcall] at hv
          obtain ⟨_,hv,-⟩ := map_eq_ok.mp hv
          obtain ⟨_,-,-,ht⟩ := pause_ok.mp hv
          rw [← ht]
          exact h.of_eq rfl rfl rfl
        · rw [hcall] at hv
          obtain ⟨_,hv,-⟩ := map_eq_ok.mp hv
          obtain ⟨_,-,-,ht⟩ := unpause_ok.mp hv
          rw [← ht]
          exact h.of_eq rfl rfl rfl
    · rw [hsame]
      exact h

end Calls

section Limits

/-- No threshold for large withdrawals is set, and the batch size is a `u32`. -/
structure Unlimited (s : Storage) : Prop where
  threshold : s.largeWithdrawalThreshold = none
  batch : maxBatchSize s < 2^32

theorem dispatch_unlimited {call : Call} {v : Value}
    (hcall : call.isOperation = true ∨ call.isOffice = true) (h : Unlimited l.storage)
    (hrun : (dispatch env call).run l = .ok v t) : Unlimited t.storage := by
  have hthreshold : Part.threshold ∉ call.writes := by
    cases call with
    | setting setting =>
      cases setting with
      | largeWithdrawalThreshold threshold =>
        rcases hcall with hcall | hcall <;> exact absurd hcall Bool.false_ne_true
      | _ => simp [Call.writes]
    | _ => simp [Call.writes]
  refine ⟨(read_of_part (f := Storage.largeWithdrawalThreshold) (fun _ => rfl)
    (dispatch_part hthreshold hrun)).trans h.threshold,?_⟩
  by_cases hbatch : Part.batchSize ∈ call.writes
  · cases call with
    | setting setting =>
      cases setting with
      | maxBatchSize size =>
        obtain ⟨_,hrun,-⟩ := map_eq_ok.mp hrun
        obtain ⟨_,-,-,-,rfl⟩ := adminSetting_ok.mp hrun
        rcases hcall with hcall | hcall
        · exact absurd hcall Bool.false_ne_true
        · exact of_decide_eq_true hcall
      | _ => simp [Call.writes] at hbatch
    | _ => simp [Call.writes] at hbatch
  · rw [read_of_part (f := YieldVault.maxBatchSize) (fun _ => rfl) (dispatch_part hbatch hrun)]
    exact h.batch

structure Steady (host : Host σ) (l : Ledger σ) : Prop where
  founded : Founded l
  floored : (books l).Floored
  totalled : Totalled host l
  unlimited : Unlimited l.storage

theorem Steady.step {a : Action host} (h : Steady host l) (hg : Ordinary l a) :
    Steady host (step host a l) := by
  refine ⟨step_founded h.founded a,step_floored h.founded h.floored hg,
    step_totalled h.floored hg h.totalled,?_⟩
  cases a with
  | outside c => exact h.unlimited
  | invoke inv =>
    change Unlimited (invoke inv l).storage
    rcases invoke_cases inv l with ⟨v,hv⟩ | hsame
    · exact dispatch_unlimited hg h.unlimited hv
    · rw [hsame]
      exact h.unlimited

theorem steady_genesis (chain : σ) : Steady host (genesis chain) := by
  have hu := unfounded_genesis chain
  refine ⟨Or.inl hu,?_,Totals.empty,⟨rfl,by change 50 < 2^32; norm_num⟩⟩
  rw [hu.books]
  exact Books.floored_empty

theorem run_steady {acts : List (Action host)}
    (ha : Runs.Along (step host) Ordinary (genesis chain) acts) :
    Steady host (runFrom host chain acts) :=
  ha.invariant (fun _ _ h hg => h.step hg) (steady_genesis chain)

end Limits

end YieldVault
