import YieldVault.EntryPoints
import YieldVault.Books

/-! The journal of the contract. A call that succeeds is a page of valid entries
in the abstract books, and the storage after the call shows those books. -/
namespace YieldVault

open FixedWidth Contract

variable {σ : Type} {env : Env σ} {l m t : Ledger σ}

/-- Net principal placed with strategies, as the vault's calls to them record it. -/
def principalOf : List Effect → ℤ
  | [] => 0
  | .strategyDeposit _ amount :: rest => principalOf rest+amount
  | .strategyWithdraw _ amount :: rest => principalOf rest-amount
  | _ :: rest => principalOf rest

def payouts : List Effect → List (Address × ℤ × ℤ)
  | [] => []
  | .event (.withdraw user paid shares) :: rest => (user,paid,shares) :: payouts rest
  | _ :: rest => payouts rest

def books (l : Ledger σ) : Books where
  balance := balance l.storage
  supply := (getState l.storage).totalShares
  storedSupply := storedTotalShares l.storage
  assets := (getState l.storage).totalAssets
  idle := idleAssets l.storage
  treasury := treasuryBalance l.storage
  principal := principalOf l.log
  paused := (getState l.storage).isPaused
  payouts := payouts l.log

structure Kept (s s' : Storage) : Prop where
  initialized : s'.proxy.initialized = s.proxy.initialized
  token : s'.tokenAsset = s.tokenAsset
  state : s.state.isSome = true → s'.state.isSome = true
  version : storageVersion s ≤ storageVersion s'

theorem Kept.refl (s : Storage) : Kept s s := ⟨rfl,rfl,id,le_rfl⟩

theorem Kept.trans {s s' s'' : Storage} (h : Kept s s') (h' : Kept s' s'') : Kept s s'' :=
  ⟨h'.initialized.trans h.initialized,h'.token.trans h.token,fun hs => h'.state (h.state hs),
    h.version.trans h'.version⟩

/-- The ledgers are one page of valid entries apart. -/
structure Booked (l t : Ledger σ) (es : List Entry) : Prop where
  kept : Kept l.storage t.storage
  valid : Books.ValidPage es (books l)
  posted : books t = Books.postAll es (books l)

theorem Booked.nil (hk : Kept l.storage t.storage) (h : books t = books l) : Booked l t [] :=
  ⟨hk,trivial,h⟩

theorem Booked.single {e : Entry} (hk : Kept l.storage t.storage) (h : (books l).Valid e)
    (hp : books t = Books.post e (books l)) : Booked l t [e] := ⟨hk,⟨h,trivial⟩,hp⟩

theorem Booked.append {es es' : List Entry} (h : Booked l m es) (h' : Booked m t es') :
    Booked l t (es ++ es') := by
  refine ⟨h.kept.trans h'.kept,Runs.along_append.mpr ⟨h.valid,?_⟩,?_⟩
  · rw [← Books.postAll,← h.posted]
    exact h'.valid
  · rw [h'.posted,h.posted,Books.postAll,Books.postAll,Books.postAll,Runs.run_append]

section Notices

theorem logged_notices {notices log : List Effect} (h : ∀ e ∈ notices, IsNotice e) :
    principalOf (notices ++ log) = principalOf log ∧ payouts (notices ++ log) = payouts log := by
  induction notices with
  | nil => exact ⟨rfl,rfl⟩
  | cons e rest ih =>
    have hrest := ih fun e he => h e (List.mem_cons_of_mem _ he)
    have he := h e List.mem_cons_self
    cases e with
    | event event =>
      cases event with
      | withdraw user paid shares => exact absurd he id
      | _ => exact hrest
    | updateWasm hash => exact hrest
    | transfer token sender receiver amount => exact absurd he id
    | strategyDeposit strategy amount => exact absurd he id
    | strategyWithdraw strategy amount => exact absurd he id

theorem isNotice_watermarkNotice (strategy : Address) (candidate : ℤ) (s : Storage) :
    ∀ e ∈ watermarkNotice strategy candidate s, IsNotice e := by
  intro e he
  unfold watermarkNotice at he
  split_ifs at he
  · rw [List.mem_singleton.mp he]
    trivial
  · simp at he

theorem isNotice_feeNotice (fee : ℤ) (s : Storage) : ∀ e ∈ feeNotice fee s, IsNotice e := by
  intro e he
  unfold feeNotice at he
  split_ifs at he
  · rw [List.mem_singleton.mp he]
    trivial
  · simp at he

theorem Quiet.booked (h : Quiet env l t) : Booked l t [] := by
  obtain ⟨notices,hlog,hn⟩ := h.log
  have hstate : t.storage.state = l.storage.state := congrArg Accounts.state h.accounts
  have hshares : t.storage.totalShares = l.storage.totalShares :=
    congrArg Accounts.totalShares h.accounts
  have hassets : t.storage.totalAssets = l.storage.totalAssets :=
    congrArg Accounts.totalAssets h.accounts
  have htreasury : t.storage.treasuryBalance = l.storage.treasuryBalance :=
    congrArg Accounts.treasuryBalance h.accounts
  have hbalance : t.storage.shareBalance = l.storage.shareBalance :=
    congrArg Accounts.shareBalance h.accounts
  have hinit : t.storage.proxy.initialized = l.storage.proxy.initialized :=
    congrArg Accounts.initialized h.accounts
  have htoken : t.storage.tokenAsset = l.storage.tokenAsset :=
    congrArg Accounts.tokenAsset h.accounts
  refine Booked.nil ⟨hinit,htoken,by rw [hstate]; exact id,h.version⟩ ?_
  unfold books balance getState storedTotalShares idleAssets treasuryBalance
  rw [hstate,hshares,hassets,htreasury,hbalance,hlog,(logged_notices hn).1,(logged_notices hn).2]

end Notices

section Entries

theorem inRange_update {f : Address → ℤ} (hf : ∀ user, I128 (f user)) {user : Address} {v : ℤ}
    (hv : I128 v) (other : Address) : I128 (Function.update f user v other) := by
  by_cases h : other = user
  · simpa [h] using hv
  · simpa [h] using hf other

theorem mint_valid {user : Address} {amount shares stored : ℤ}
    (hpaused : (getState l.storage).isPaused = false) (hpos : 0 < amount) (hne : shares ≠ 0)
    (hshares : assetsToShares amount (getState l.storage).totalShares
      (getState l.storage).totalAssets = .ok shares)
    (hstored : stored = (getState l.storage).totalShares+shares ∨
      stored = storedTotalShares l.storage+shares)
    (hfits : DepositFits (getState l.storage) user amount shares stored l.storage) :
    (books l).Valid (.mint user amount shares stored) := by
  obtain ⟨-,hidle,-,hassets,hsupply,hbal⟩ := hfits
  exact ⟨⟨hpaused,hpos,hne,hshares,hstored⟩,
    fun hr => ⟨inRange_update hr.balance hbal,hsupply,hassets,hidle,hr.treasury⟩⟩

theorem kept_credited {s s' : Storage} (state : VaultState) (time : ℕ) (user : Address)
    (amount shares stored : ℤ) (hproxy : s.proxy = s'.proxy) (htoken : s.tokenAsset = s'.tokenAsset) :
    Kept s' (setState state (creditedDeposit time user amount shares stored s)) := by
  have hp : (setState state (creditedDeposit time user amount shares stored s)).proxy =
      s'.proxy := by
    simp only [setState,creditedDeposit,setLastDepositTime,setShareBalance,setStoredTotalShares,
      setIdleAssets,setUserDeposit,hproxy]
  refine ⟨congrArg ProxyStorage.initialized hp,?_,fun _ => rfl,?_⟩
  · simp only [setState,creditedDeposit,setLastDepositTime,setShareBalance,setStoredTotalShares,
      setIdleAssets,setUserDeposit,htoken]
  · rw [storageVersion,storageVersion,hp]

theorem deposit_booked {user : Address} {amount shares : ℤ}
    (h : (deposit env user amount).run l = .ok shares t) :
    (getState l.storage).isPaused = false ∧
      Booked l t [.mint user amount shares ((getState l.storage).totalShares+shares)] := by
  obtain ⟨token,c,hpaused,-,hpos,-,-,hshares,hne,-,-,hfits,rfl⟩ := deposit_ok.mp h
  refine ⟨hpaused,Booked.single (kept_credited _ _ _ _ _ _ rfl rfl)
    (mint_valid hpaused hpos hne hshares (Or.inl rfl) hfits) ?_⟩
  simp [books,Books.post,creditedDeposit,mintedState,principalOf,payouts]

/-- The ledger a batch would leave if its record in memory were stored now. -/
def flushed (state : VaultState) (l : Ledger σ) : Ledger σ :=
  { l with storage := setState state l.storage }

theorem processSingleBatchEntry_booked {state state' : VaultState} {token user : Address}
    {amount minimum cap shares : ℤ} (hpaused : state.isPaused = false)
    (h : (processSingleBatchEntry env state token user amount minimum cap).run l =
      .ok (shares,state') t) :
    state'.isPaused = false ∧
      Booked (flushed state l) (flushed state' t)
        [.mint user amount shares (storedTotalShares l.storage+shares)] := by
  obtain ⟨c,hpos,-,hshares,hne,-,-,-,hfits,rfl,rfl⟩ := processSingleBatchEntry_ok.mp h
  refine ⟨hpaused,Booked.single (kept_credited _ _ _ _ _ _ rfl rfl) ?_ ?_⟩
  · exact mint_valid (l := flushed state l) hpaused hpos hne hshares (Or.inr rfl) hfits
  · simp [books,Books.post,flushed,creditedDeposit,mintedState,principalOf,payouts]

def IsMint : Entry → Prop
  | .mint _ _ _ _ => True
  | _ => False

theorem batchDeposit_booked {relayer : Address} {entries : List DepositEntry}
    {result : BatchDepositResult} (h : (batchDeposit env relayer entries).run l = .ok result t) :
    (getState l.storage).isPaused = false ∧
      ∃ es, Booked l t es ∧ ∀ e ∈ es, IsMint e := by
  obtain ⟨token,batch,m,hpaused,-,-,-,-,hloop,-,rfl⟩ := batchDeposit_ok h
  refine ⟨hpaused,?_⟩
  let P : VaultState → Ledger σ → Prop := fun state m => state.isPaused = false ∧
    ∃ es, Booked l (flushed state m) es ∧ ∀ e ∈ es, IsMint e
  have h0 : P (getState l.storage) l := by
    refine ⟨hpaused,[],Booked.nil ⟨rfl,rfl,fun _ => rfl,le_rfl⟩ ?_,by simp⟩
    simp [books,flushed]
  have hP : P batch.state m := by
    refine processEntries_invariant ?_ hloop h0
    rintro state state' user amount shares m m' ⟨hp,es,hes,hmints⟩ hentry
    obtain ⟨hp',hbook⟩ := processSingleBatchEntry_booked hp hentry
    refine ⟨hp',_,hes.append hbook,?_⟩
    intro e he
    rcases List.mem_append.mp he with he | he
    · exact hmints e he
    · rw [List.mem_singleton.mp he]
      trivial
  obtain ⟨-,es,hes,hmints⟩ := hP
  refine ⟨es,⟨⟨hes.kept.initialized,hes.kept.token,fun _ => rfl,hes.kept.version⟩,hes.valid,?_⟩,
    hmints⟩
  rw [← hes.posted]
  simp [books,flushed,principalOf,payouts]

theorem divest_booked {amount : ℤ} {u : Unit} (h : (divest env amount).run l = .ok u t) :
    Booked l t [.divest amount] := by
  obtain ⟨strategy,-,c,-,-,hidle,rfl⟩ := divest_ok.mp h
  refine Booked.single ⟨rfl,rfl,id,le_rfl⟩
    ⟨trivial,fun hr => ⟨hr.balance,hr.supply,hr.assets,hidle,hr.treasury⟩⟩ ?_
  simp [books,Books.post,loweredWatermark,principalOf,payouts]

def shortfall (idle paid : ℤ) : List Entry := if idle < paid then [.divest (paid-idle)] else []

/-- What covering a shortfall leaves alone, and the idle assets after it. -/
structure CoveredFor (paid : ℤ) (l m : Ledger σ) : Prop where
  state : getState m.storage = getState l.storage
  balance : balance m.storage = balance l.storage
  deposits : userDeposit m.storage = userDeposit l.storage
  treasury : treasuryBalance m.storage = treasuryBalance l.storage
  payouts : payouts m.log = payouts l.log
  idle : idleAssets m.storage = max (idleAssets l.storage) paid

theorem coverShortfall_covered {paid : ℤ} {u : Unit}
    (h : (coverShortfall env paid).run l = .ok u m) : CoveredFor paid l m := by
  rw [coverShortfall_ok] at h
  split_ifs at h with hlt
  · obtain ⟨strategy,-,c,-,-,-,rfl⟩ := divest_ok.mp h.2
    refine ⟨rfl,rfl,rfl,rfl,rfl,?_⟩
    change idleAssets l.storage+(paid-idleAssets l.storage) = _
    rw [max_eq_right hlt.le]
    ring
  · subst h
    exact ⟨rfl,rfl,rfl,rfl,rfl,(max_eq_left (not_lt.mp hlt)).symm⟩

theorem coverShortfall_booked {paid : ℤ} {u : Unit}
    (h : (coverShortfall env paid).run l = .ok u t) :
    Booked l t (shortfall (idleAssets l.storage) paid) ∧
      getState t.storage = getState l.storage := by
  rw [coverShortfall_ok] at h
  unfold shortfall
  split_ifs at h ⊢
  · refine ⟨divest_booked h.2,?_⟩
    obtain ⟨strategy,-,c,-,-,-,rfl⟩ := divest_ok.mp h.2
    simp [loweredWatermark]
  · exact ⟨h ▸ Booked.nil (Kept.refl _) rfl,h ▸ rfl⟩

/-- A page that pays out: a recall of what is short, then the burn. -/
def burnPage (idle : ℤ) (user : Address) (shares paid : ℤ) : List Entry :=
  shortfall idle paid ++ [.burn user shares paid]

theorem doWithdraw_booked {user : Address} {shares paid r : ℤ} (hpos : 0 < shares)
    (hpaid : sharesToAssets shares (getState l.storage).totalShares
      (getState l.storage).totalAssets = .ok paid)
    (h : (doWithdraw env (getState l.storage) user shares paid).run l = .ok r t) :
    Booked l t (burnPage (idleAssets l.storage) user shares paid) := by
  obtain ⟨token,m,c,-,hcover,-,hfits,-,rfl⟩ := doWithdraw_ok.mp h
  obtain ⟨hidle,hstored,hbal,hassets,hsupply,-⟩ := hfits
  obtain ⟨hbook,hstate⟩ := coverShortfall_booked hcover
  refine hbook.append (Booked.single ⟨rfl,rfl,fun _ => rfl,le_rfl⟩ ⟨⟨hpos,?_⟩,fun hr => ?_⟩ ?_)
  · change sharesToAssets shares (getState m.storage).totalShares (getState m.storage).totalAssets = _
    rw [hstate]
    exact hpaid
  · refine ⟨inRange_update hr.balance hbal,hstored,?_,hidle,hr.treasury⟩
    change I128 ((getState m.storage).totalAssets-paid)
    rw [hstate]
    exact hassets
  · simp [books,Books.post,debitedWithdrawal,burnedState,principalOf,payouts,hstate]

theorem withdraw_booked {user : Address} {shares r : ℤ}
    (h : (withdraw env user shares).run l = .ok r t) :
    (getState l.storage).isPaused = false ∧ 0 < shares ∧ shares ≤ balance l.storage user ∧
      (Booked l t [] ∨
        ∃ paid, Booked l t (burnPage (idleAssets l.storage) user shares paid)) := by
  obtain ⟨hpos,paid,hpaused,-,-,hbal,hpaid,h⟩ := withdraw_ok.mp h
  refine ⟨hpaused,hpos,hbal,?_⟩
  rcases h with ⟨-,h⟩ | ⟨-,-,-,rfl⟩
  · exact Or.inr ⟨paid,doWithdraw_booked hpos hpaid h⟩
  · exact Or.inl (Booked.nil ⟨rfl,rfl,id,le_rfl⟩ rfl)

theorem executeWithdrawal_booked {user : Address} {r : ℤ}
    (h : (executeWithdrawal env user).run l = .ok r t) :
    ∃ pending paid, l.storage.pendingWithdrawal user = some pending ∧
      Booked l t (burnPage (idleAssets l.storage) user pending.shares paid) := by
  obtain ⟨pending,paid,-,hpending,-,hpaid,h⟩ := executeWithdrawal_ok.mp h
  let l' : Ledger σ := ⟨setPendingWithdrawal user none l.storage,l.chain,l.log⟩
  have h1 : Booked l l' [] := Booked.nil ⟨rfl,rfl,id,le_rfl⟩ rfl
  have h2 := doWithdraw_booked (l := l') pending.shares_pos hpaid h
  exact ⟨pending,paid,hpending,h1.append h2⟩

theorem invest_booked {amount : ℤ} {u : Unit} (h : (invest env amount).run l = .ok u t) :
    Booked l t [.invest amount] := by
  obtain ⟨_,strategy,_,held,_,_,_,_,c,-,-,hpos,-,-,-,-,-,-,hle,hidle,-,-,-,-,rfl⟩ := invest_ok h
  refine Booked.single ⟨rfl,rfl,id,le_rfl⟩ ⟨⟨hpos,hle⟩,
    fun hr => ⟨hr.balance,hr.supply,hr.assets,hidle,hr.treasury⟩⟩ ?_
  have hn := isNotice_watermarkNotice strategy (held+amount) l.storage
  unfold books
  rw [(logged_notices hn).1,(logged_notices hn).2]
  rfl

theorem rebalance_booked {fromStrategy toStrategy : Address} {amount minDivest minInvest : ℤ}
    {u : Unit}
    (h : (rebalance env fromStrategy toStrategy amount minDivest minInvest).run l = .ok u t) :
    ∃ received, Booked l t [.rebalance amount received] := by
  obtain ⟨_,_,_,_,_,_,_,after,c,received,-,-,hpos,-,-,-,-,-,-,-,-,-,-,rfl⟩ :=
    rebalance_ok h
  refine ⟨received,Booked.single ⟨rfl,rfl,id,le_rfl⟩
    ⟨hpos,fun hr => ⟨hr.balance,hr.supply,hr.assets,hr.idle,hr.treasury⟩⟩ ?_⟩
  have hn := isNotice_watermarkNotice toStrategy after
    (loweredWatermark fromStrategy received l.storage)
  unfold books
  rw [(logged_notices hn).1,(logged_notices hn).2]
  rfl

/-- A yield is booked in full: the fee and the net amount are parts of it. -/
theorem yield_valid {amount fee : ℤ} (hpos : 0 < amount)
    (hfee : fee = (amount*feeBps l.storage).tdiv bpsDenominator)
    (htreasury : 0 < fee → I128 (treasuryBalance l.storage+fee))
    (hidle : I128 (idleAssets l.storage+(amount-fee)))
    (hassets : I128 ((getState l.storage).totalAssets+(amount-fee))) :
    0 ≤ fee ∧ (books l).Valid (.yield (amount-fee) fee) := by
  have hsplit := fee_bounds hpos hfee
  refine ⟨hsplit.1,⟨by omega,hsplit.1⟩,fun hr => ⟨hr.balance,hr.supply,hassets,hidle,?_⟩⟩
  rcases hsplit.1.lt_or_eq with h | h
  · exact htreasury h
  · simpa [Books.post,← h] using hr.treasury

theorem accrueYield_booked {amount : ℤ} {u : Unit}
    (h : (accrueYield env amount).run l = .ok u t) :
    ∃ fee, Booked l t [.yield (amount-fee) fee] := by
  obtain ⟨_,_,fee,c,-,-,hpos,hfee,-,-,htreasury,hidle,hassets,rfl⟩ := accrueYield_ok h
  obtain ⟨hf,hv⟩ := yield_valid hpos hfee htreasury hidle hassets
  refine ⟨fee,Booked.single ⟨rfl,rfl,fun _ => rfl,le_rfl⟩ hv ?_⟩
  unfold books
  have hn := isNotice_feeNotice fee l.storage
  rw [(logged_notices hn).1,(logged_notices hn).2]
  have ht := treasuryBalance_creditedTreasury hf l.storage
  simp [Books.post,principalOf,payouts,ht]

theorem reportBenjiYield_booked {strategy : Address} {amount : ℤ} {u : Unit}
    (h : (reportBenjiYield env strategy amount).run l = .ok u t) :
    ∃ fee, Booked l t [.yield (amount-fee) fee] := by
  obtain ⟨_,fee,c,-,hpos,-,hfee,-,-,htreasury,hidle,hassets,-,rfl⟩ := reportBenjiYield_ok h
  obtain ⟨hf,hv⟩ := yield_valid hpos hfee htreasury hidle hassets
  refine ⟨fee,Booked.single ⟨rfl,rfl,fun _ => rfl,le_rfl⟩ hv ?_⟩
  have hn := isNotice_watermarkNotice strategy (strategyWatermark l.storage strategy+amount)
    l.storage
  unfold books
  rw [(logged_notices hn).1,(logged_notices hn).2]
  have ht := treasuryBalance_creditedTreasury hf l.storage
  simp [Books.post,principalOf,payouts,ht]

theorem accrueKoreanDebtYield_booked {harvested : ℤ}
    (h : (accrueKoreanDebtYield env).run l = .ok harvested t) :
    Booked l t [.harvest harvested] := by
  obtain ⟨_,_,c,-,-,-,-,hpos,hassets,rfl⟩ := accrueKoreanDebtYield_ok.mp h
  refine Booked.single ⟨rfl,rfl,fun _ => rfl,le_rfl⟩
    ⟨hpos,fun hr => ⟨hr.balance,hr.supply,hassets,hr.idle,hr.treasury⟩⟩ ?_
  simp [books,Books.post]

theorem claimFees_booked {u : Unit} (h : (claimFees env).run l = .ok u t) :
    Booked l t [.claim] := by
  obtain ⟨_,_,_,c,-,-,-,hne,-,-,rfl⟩ := claimFees_ok h
  refine Booked.single ⟨rfl,rfl,id,le_rfl⟩
    ⟨hne,fun hr => ⟨hr.balance,hr.supply,hr.assets,hr.idle,fits_zero 128⟩⟩ ?_
  simp [books,Books.post,principalOf,payouts]

theorem setPaused_booked {paused : Bool} {reason : Option PauseReason} {e : Event}
    (he : payouts (.event e :: l.log) = payouts l.log) :
    Booked l ⟨setPaused paused reason l.storage,l.chain,.event e :: l.log⟩
      [.setPaused paused] := by
  refine Booked.single ⟨rfl,rfl,fun _ => rfl,le_rfl⟩
    ⟨trivial,fun hr => ⟨hr.balance,hr.supply,hr.assets,hr.idle,hr.treasury⟩⟩ ?_
  unfold books
  rw [he]
  rfl

/-- The entry that a confirmed emergency proposal makes. -/
def emergencyPage (proposal : EmergencyProposal) : List Entry :=
  match proposal.kind with
  | .pause => [.setPaused true]
  | .unpause => [.setPaused false]
  | .emergencyDivest => [.divest (proposal.divestAmount.getD 0)]
  | .forceUpgrade => []

theorem applyEmergency_booked {proposal : EmergencyProposal} {u : Unit}
    (h : (applyEmergency env proposal).run l = .ok u t) :
    Booked l t (emergencyPage proposal) := by
  unfold emergencyPage
  cases hk : proposal.kind with
  | pause =>
    simp [applyEmergency,hk] at h
    subst h
    exact Booked.single ⟨rfl,rfl,fun _ => rfl,le_rfl⟩
      ⟨trivial,fun hr => ⟨hr.balance,hr.supply,hr.assets,hr.idle,hr.treasury⟩⟩ rfl
  | unpause =>
    simp [applyEmergency,hk] at h
    subst h
    exact Booked.single ⟨rfl,rfl,fun _ => rfl,le_rfl⟩
      ⟨trivial,fun hr => ⟨hr.balance,hr.supply,hr.assets,hr.idle,hr.treasury⟩⟩ rfl
  | emergencyDivest =>
    simp only [applyEmergency,hk,expect_bind_eq_ok] at h
    obtain ⟨amount,hamount,h⟩ := h
    simpa [hamount] using divest_booked h
  | forceUpgrade =>
    simp only [applyEmergency,hk,expect_bind_eq_ok] at h
    obtain ⟨hash,-,h⟩ := h
    obtain ⟨c,-,rfl⟩ := call_eq_ok.mp h
    exact Booked.nil (Kept.refl _) rfl

theorem confirmEmergencyAction_booked {confirmer : Address} {proposalId : ℕ} {u : Unit}
    (h : (confirmEmergencyAction env confirmer proposalId).run l = .ok u t) :
    ∃ proposal, Confirmable env l.storage confirmer proposalId proposal ∧
      Booked l t (emergencyPage proposal) := by
  obtain ⟨proposal,m,hconf,happly,rfl⟩ := confirmEmergencyAction_ok h
  obtain ⟨hk,hv,hp⟩ := applyEmergency_booked happly
  exact ⟨proposal,hconf,⟨hk.initialized,hk.token,hk.state,hk.version⟩,hv,hp⟩

end Entries

section Journal

/-- The page that a successful call makes in the books. -/
def Page (s : Storage) : Call → List Entry → Prop
  | .deposit user amount, es => (getState s).isPaused = false ∧
      ∃ shares, es = [.mint user amount shares ((getState s).totalShares+shares)]
  | .batchDeposit _ _, es => (getState s).isPaused = false ∧ ∀ e ∈ es, IsMint e
  | .withdraw user shares, es => (getState s).isPaused = false ∧ shares ≤ balance s user ∧
      (es = [] ∨ ∃ paid, es = burnPage (idleAssets s) user shares paid)
  | .executeWithdrawal user, es => ∃ pending paid, s.pendingWithdrawal user = some pending ∧
      es = burnPage (idleAssets s) user pending.shares paid
  | .invest amount, es => es = [.invest amount]
  | .divest amount, es => es = [.divest amount]
  | .rebalance _ _ amount _ _, es => ∃ received, es = [.rebalance amount received]
  | .accrueYield amount, es => ∃ fee, es = [.yield (amount-fee) fee]
  | .reportBenjiYield _ amount, es => ∃ fee, es = [.yield (amount-fee) fee]
  | .accrueKoreanDebtYield, es => ∃ harvested, es = [.harvest harvested]
  | .claimFees, es => es = [.claim]
  | .pause _, es => es = [.setPaused true]
  | .unpause, es => es = [.setPaused false]
  | .confirmEmergencyAction _ id, es => ∃ proposal, s.emergencyProposal id = some proposal ∧
      es = emergencyPage proposal
  | _, es => es = []

theorem page_quiet {s : Storage} {call : Call} (hq : call.isQuiet = true) : Page s call [] := by
  cases call with
  | proposeAdmin _ | acceptAdmin | cancelAdminRotation | setting _ | createCheckpoint
  | snapshotUserBalance _ | createStrategyProposal _ _ | voteOnProposal _ _ _ _
  | executeStrategyProposal _ | addShipment _ _ | updateShipmentStatus _ _ => rfl
  | _ => exact absurd hq Bool.false_ne_true

/-- Every successful call of a founded vault is a page of valid entries. -/
theorem journal {call : Call} {v : Value} (hs : l.storage.state.isSome = true)
    (hi : ∀ admin token, call = .initializeVault admin token → isInitialized l.storage = true)
    (h : (dispatch env call).run l = .ok v t) :
    ∃ es, Page l.storage call es ∧ Booked l t es := by
  by_cases hq : call.isQuiet = true
  · exact ⟨[],page_quiet hq,(dispatch_quiet hq h).booked⟩
  cases call with
  | initializeVault admin token =>
    obtain ⟨_,h,-⟩ := map_eq_ok.mp h
    have h1 := hi admin token rfl
    have h2 := (initializeVault_ok h).1
    rw [h1] at h2
    exact absurd h2 (by decide)
  | upgrade hash =>
    obtain ⟨_,h,-⟩ := map_eq_ok.mp h
    exact ⟨[],rfl,(upgrade_quiet hs h).booked⟩
  | migrateStorage version =>
    obtain ⟨_,h,-⟩ := map_eq_ok.mp h
    exact ⟨[],rfl,(migrateStorage_quiet hs h).booked⟩
  | pause reason =>
    obtain ⟨_,h,-⟩ := map_eq_ok.mp h
    obtain ⟨_,-,-,rfl⟩ := pause_ok.mp h
    exact ⟨_,rfl,setPaused_booked rfl⟩
  | unpause =>
    obtain ⟨_,h,-⟩ := map_eq_ok.mp h
    obtain ⟨_,-,-,rfl⟩ := unpause_ok.mp h
    exact ⟨_,rfl,setPaused_booked rfl⟩
  | proposeEmergencyAction initiator kind code amount hash =>
    obtain ⟨_,h,-⟩ := map_eq_ok.mp h
    obtain ⟨_,_,_,_,rfl⟩ := proposeEmergencyAction_ok.mp h
    exact ⟨[],rfl,Booked.nil ⟨rfl,rfl,id,le_rfl⟩ rfl⟩
  | confirmEmergencyAction confirmer id =>
    obtain ⟨_,h,-⟩ := map_eq_ok.mp h
    obtain ⟨proposal,hconf,hbook⟩ := confirmEmergencyAction_booked h
    exact ⟨_,⟨proposal,hconf.stored,rfl⟩,hbook⟩
  | accrueKoreanDebtYield =>
    obtain ⟨_,h,-⟩ := map_eq_ok.mp h
    exact ⟨_,⟨_,rfl⟩,accrueKoreanDebtYield_booked h⟩
  | deposit user amount =>
    obtain ⟨_,h,-⟩ := map_eq_ok.mp h
    obtain ⟨hpaused,hbook⟩ := deposit_booked h
    exact ⟨_,⟨hpaused,_,rfl⟩,hbook⟩
  | batchDeposit relayer entries =>
    obtain ⟨_,h,-⟩ := map_eq_ok.mp h
    obtain ⟨hpaused,es,hbook,hmints⟩ := batchDeposit_booked h
    exact ⟨es,⟨hpaused,hmints⟩,hbook⟩
  | withdraw user shares =>
    obtain ⟨_,h,-⟩ := map_eq_ok.mp h
    obtain ⟨hpaused,-,hbal,hbook | ⟨paid,hbook⟩⟩ := withdraw_booked h
    · exact ⟨[],⟨hpaused,hbal,Or.inl rfl⟩,hbook⟩
    · exact ⟨_,⟨hpaused,hbal,Or.inr ⟨paid,rfl⟩⟩,hbook⟩
  | executeWithdrawal user =>
    obtain ⟨_,h,-⟩ := map_eq_ok.mp h
    obtain ⟨pending,paid,hpending,hbook⟩ := executeWithdrawal_booked h
    exact ⟨_,⟨pending,paid,hpending,rfl⟩,hbook⟩
  | invest amount =>
    obtain ⟨_,h,-⟩ := map_eq_ok.mp h
    exact ⟨_,rfl,invest_booked h⟩
  | divest amount =>
    obtain ⟨_,h,-⟩ := map_eq_ok.mp h
    exact ⟨_,rfl,divest_booked h⟩
  | rebalance fromStrategy toStrategy amount minDivest minInvest =>
    obtain ⟨_,h,-⟩ := map_eq_ok.mp h
    obtain ⟨received,hbook⟩ := rebalance_booked h
    exact ⟨_,⟨received,rfl⟩,hbook⟩
  | accrueYield amount =>
    obtain ⟨_,h,-⟩ := map_eq_ok.mp h
    obtain ⟨fee,hbook⟩ := accrueYield_booked h
    exact ⟨_,⟨fee,rfl⟩,hbook⟩
  | reportBenjiYield strategy amount =>
    obtain ⟨_,h,-⟩ := map_eq_ok.mp h
    obtain ⟨fee,hbook⟩ := reportBenjiYield_booked h
    exact ⟨_,⟨fee,rfl⟩,hbook⟩
  | claimFees =>
    obtain ⟨_,h,-⟩ := map_eq_ok.mp h
    exact ⟨_,rfl,claimFees_booked h⟩
  | totalAssets =>
    obtain ⟨_,h,-⟩ := map_eq_ok.mp h
    obtain ⟨_,c,-,-,-,rfl⟩ := totalAssets_ok.mp h
    exact ⟨[],rfl,Booked.nil (Kept.refl _) rfl⟩
  | _ => exact absurd rfl hq

/-- Who may burn: a user who withdraws shares that the user holds, or one who executes
a deferred withdrawal, held or not. -/
def BurnedBy (s : Storage) (user : Address) (shares : ℤ) : Call → Prop
  | .withdraw user' shares' => user' = user ∧ shares' = shares ∧ shares ≤ balance s user
  | .executeWithdrawal user' => user' = user ∧
    ∃ pending, s.pendingWithdrawal user = some pending ∧ pending.shares = shares
  | _ => False

def IsBurn : Entry → Prop
  | .burn _ _ _ => True
  | _ => False

theorem no_burn_singleton {e : Entry} (he : ¬ IsBurn e) : ∀ e' ∈ [e], ¬ IsBurn e' := by
  intro e' he'
  rw [List.mem_singleton.mp he']
  exact he

theorem page_burns {s : Storage} {call : Call} {es : List Entry} (h : Page s call es) :
    (∀ e ∈ es, ¬ IsBurn e) ∨
      ∃ user shares paid, es = burnPage (idleAssets s) user shares paid ∧
        BurnedBy s user shares call := by
  cases call with
  | withdraw user shares =>
    obtain ⟨-,hbal,rfl | ⟨paid,rfl⟩⟩ := h
    · exact Or.inl (by simp)
    · exact Or.inr ⟨user,shares,paid,rfl,rfl,rfl,hbal⟩
  | executeWithdrawal user =>
    obtain ⟨pending,paid,hpending,rfl⟩ := h
    exact Or.inr ⟨user,pending.shares,paid,rfl,rfl,pending,hpending,rfl⟩
  | deposit user amount =>
    obtain ⟨-,shares,rfl⟩ := h
    exact Or.inl (no_burn_singleton id)
  | batchDeposit relayer entries =>
    refine Or.inl fun e he hburn => ?_
    have hmint := h.2 e he
    cases e with
    | burn user shares paid => exact hmint
    | _ => exact hburn
  | rebalance fromStrategy toStrategy amount minDivest minInvest =>
    obtain ⟨_,rfl⟩ := h
    exact Or.inl (no_burn_singleton id)
  | accrueYield amount =>
    obtain ⟨_,rfl⟩ := h
    exact Or.inl (no_burn_singleton id)
  | reportBenjiYield strategy amount =>
    obtain ⟨_,rfl⟩ := h
    exact Or.inl (no_burn_singleton id)
  | accrueKoreanDebtYield =>
    obtain ⟨_,rfl⟩ := h
    exact Or.inl (no_burn_singleton id)
  | confirmEmergencyAction confirmer id =>
    obtain ⟨proposal,-,rfl⟩ := h
    unfold emergencyPage
    cases proposal.kind with
    | forceUpgrade => exact Or.inl (by simp)
    | _ => exact Or.inl (no_burn_singleton fun hb => hb)
  | invest amount => exact h ▸ Or.inl (no_burn_singleton id)
  | divest amount => exact h ▸ Or.inl (no_burn_singleton id)
  | claimFees => exact h ▸ Or.inl (no_burn_singleton id)
  | pause reason => exact h ▸ Or.inl (no_burn_singleton id)
  | unpause => exact h ▸ Or.inl (no_burn_singleton id)
  | _ =>
    have h0 : es = [] := h
    exact Or.inl (by simp [h0])

end Journal

end YieldVault
