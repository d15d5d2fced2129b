import YieldVault.Journal

/-! Every reachable ledger is either blank, so that nothing but `initialize` and
the DAO's own slots can change it, or founded, so that the journal applies. From
this follow the induction rules for statements about the books along a run. -/
namespace YieldVault

open FixedWidth Contract

variable {σ : Type} {env : Env σ} {l t : Ledger σ}

/-- What `initialize` leaves behind and no later call takes away. -/
structure Live (s : Storage) : Prop where
  initialized : isInitialized s = true
  state : s.state.isSome = true
  token : s.tokenAsset.isSome = true
  version : 1 ≤ storageVersion s

theorem Live.kept {s s' : Storage} (h : Live s) (hk : Kept s s') : Live s' := by
  refine ⟨?_,hk.state h.state,by rw [hk.token]; exact h.token,h.version.trans hk.version⟩
  unfold isInitialized
  rw [hk.initialized]
  exact h.initialized

structure Blank (s : Storage) : Prop where
  accounts : accounts s = accounts {}
  admin : s.proxy.admin = none
  pendingAdmin : s.proxy.pendingAdmin = none
  dataAdmin : s.admin = none
  primary : s.emergencyApproverPrimary = none
  secondary : s.emergencyApproverSecondary = none
  strategy : s.strategy = none
  checkpoint : s.checkpointNonce = none

theorem Blank.token {s : Storage} (h : Blank s) : s.tokenAsset = none :=
  congrArg Accounts.tokenAsset h.accounts

theorem Blank.pending {s : Storage} (h : Blank s) (user : Address) :
    s.pendingWithdrawal user = none :=
  congrFun (congrArg Accounts.pendingWithdrawal h.accounts) user

theorem Blank.balance {s : Storage} (h : Blank s) : balance s = fun _ => 0 := by
  have h1 : s.shareBalance = fun _ => none := congrArg Accounts.shareBalance h.accounts
  funext user
  simp [YieldVault.balance,h1]

theorem Blank.isInitialized {s : Storage} (h : Blank s) : isInitialized s = false := by
  have h1 : s.proxy.initialized = none := congrArg Accounts.initialized h.accounts
  simp [YieldVault.isInitialized,h1]

def Books.empty : Books := ⟨fun _ => 0,0,0,0,0,0,0,false,[]⟩

theorem Blank.books (h : Blank l.storage) (hp : principalOf l.log = 0) (hw : payouts l.log = []) :
    books l = Books.empty := by
  have hstate : l.storage.state = none := congrArg Accounts.state h.accounts
  have hshares : l.storage.totalShares = none := congrArg Accounts.totalShares h.accounts
  have hassets : l.storage.totalAssets = none := congrArg Accounts.totalAssets h.accounts
  have htreasury : l.storage.treasuryBalance = none := congrArg Accounts.treasuryBalance h.accounts
  simp [YieldVault.books,Books.empty,h.balance,getState,storedTotalShares,idleAssets,
    treasuryBalance,hstate,hshares,hassets,htreasury,hp,hw]

/-- A blank contract and a log that has recorded no funds. -/
structure Unfounded (l : Ledger σ) : Prop where
  blank : Blank l.storage
  principal : principalOf l.log = 0
  payouts : payouts l.log = []

theorem Unfounded.books (h : Unfounded l) : books l = Books.empty :=
  h.blank.books h.principal h.payouts

theorem Unfounded.quiet (h : Unfounded l) (hq : Quiet env l t)
    (hs : t.storage.proxy = l.storage.proxy ∧ t.storage.admin = l.storage.admin ∧
      t.storage.emergencyApproverPrimary = l.storage.emergencyApproverPrimary ∧
      t.storage.emergencyApproverSecondary = l.storage.emergencyApproverSecondary ∧
      t.storage.strategy = l.storage.strategy ∧
      t.storage.checkpointNonce = l.storage.checkpointNonce) : Unfounded t := by
  obtain ⟨hproxy,hadmin,hprimary,hsecondary,hstrategy,hcheckpoint⟩ := hs
  obtain ⟨notices,hlog,hn⟩ := hq.log
  refine ⟨⟨hq.accounts.trans h.blank.accounts,?_,?_,?_,?_,?_,?_,?_⟩,?_,?_⟩
  · rw [hproxy]; exact h.blank.admin
  · rw [hproxy]; exact h.blank.pendingAdmin
  · rw [hadmin]; exact h.blank.dataAdmin
  · rw [hprimary]; exact h.blank.primary
  · rw [hsecondary]; exact h.blank.secondary
  · rw [hstrategy]; exact h.blank.strategy
  · rw [hcheckpoint]; exact h.blank.checkpoint
  · rw [hlog,(logged_notices hn).1]; exact h.principal
  · rw [hlog,(logged_notices hn).2]; exact h.payouts

theorem requireAdmin_blocked {α : Type} {k : Address → VaultM σ α} {a : α}
    (hadmin : l.storage.proxy.admin = none) : ¬ (requireAdmin env >>= k).run l = .ok a t := by
  simp [hadmin]

/-- The calls that begin by asking for the admin. -/
def Call.asksAdmin : Call → Bool
  | .upgrade _ | .migrateStorage _ | .proposeAdmin _ | .cancelAdminRotation | .pause _ | .unpause
  | .createCheckpoint | .accrueKoreanDebtYield | .addShipment _ _ | .updateShipmentStatus _ _
  | .invest _ | .rebalance _ _ _ _ _ | .accrueYield _ | .claimFees => true
  | _ => false

theorem adminCall_blocked {call : Call} {v : Value} (hasks : call.asksAdmin = true)
    (hadmin : l.storage.proxy.admin = none) : ¬ (dispatch env call).run l = .ok v t := by
  intro h
  cases call with
  | upgrade | migrateStorage | proposeAdmin | cancelAdminRotation | pause | unpause
  | createCheckpoint | accrueKoreanDebtYield | addShipment | updateShipmentStatus | invest
  | rebalance | accrueYield | claimFees =>
    obtain ⟨_,h,-⟩ := map_eq_ok.mp h
    exact requireAdmin_blocked hadmin h
  | _ => exact absurd hasks Bool.false_ne_true

/-- What can happen to a blank contract: it is initialized, with nothing in its books,
or it stays blank. -/
theorem unfounded_call {call : Call} {v : Value} (hu : Unfounded l)
    (h : (dispatch env call).run l = .ok v t) :
    Unfounded t ∨ Live t.storage ∧ books t = Books.empty := by
  have hadmin := hu.blank.admin
  by_cases hasks : call.asksAdmin = true
  · exact absurd h (adminCall_blocked hasks hadmin)
  cases call with
  | initializeVault admin token =>
    obtain ⟨_,h,-⟩ := map_eq_ok.mp h
    obtain ⟨-,rfl⟩ := initializeVault_ok h
    have htreasury : l.storage.treasuryBalance = none :=
      congrArg Accounts.treasuryBalance hu.blank.accounts
    refine Or.inr ⟨⟨rfl,rfl,rfl,Nat.le_succ 1⟩,?_⟩
    have hb := hu.blank.balance
    simp [books,Books.empty,hu.principal,hu.payouts,getState,storedTotalShares,idleAssets,treasuryBalance,
      htreasury]
    exact hb
  | setting setting =>
    obtain ⟨_,h,-⟩ := map_eq_ok.mp h
    cases setting with
    | perUserCap cap => simp [applySetting,setPerUserCap,hu.blank.dataAdmin] at h
    | _ =>
      obtain ⟨_,h1,-⟩ := adminSetting_ok.mp h
      simp [hadmin] at h1
  | acceptAdmin => simp [dispatch,acceptAdmin,hu.blank.pendingAdmin] at h
  | proposeEmergencyAction initiator kind code amount hash =>
    obtain ⟨_,h,-⟩ := map_eq_ok.mp h
    simp [proposeEmergencyAction_ok,hu.blank.primary] at h
  | confirmEmergencyAction confirmer id =>
    simp [dispatch,confirmEmergencyAction,hu.blank.secondary] at h
  | snapshotUserBalance user => simp [dispatch,snapshotUserBalance,hu.blank.checkpoint] at h
  | createStrategyProposal proposer strategy =>
    obtain ⟨_,h,-⟩ := map_eq_ok.mp h
    have hq := createStrategyProposal_quiet h
    obtain ⟨-,-,-,rfl⟩ := createStrategyProposal_ok.mp h
    exact Or.inl (hu.quiet hq ⟨rfl,rfl,rfl,rfl,rfl,rfl⟩)
  | voteOnProposal voter id support weight =>
    obtain ⟨_,h,-⟩ := map_eq_ok.mp h
    have hq := voteOnProposal_quiet h
    obtain ⟨_,_,-,-,-,-,-,-,rfl⟩ := voteOnProposal_ok.mp h
    exact Or.inl (hu.quiet hq ⟨rfl,rfl,rfl,rfl,rfl,rfl⟩)
  | executeStrategyProposal id =>
    obtain ⟨_,h,-⟩ := map_eq_ok.mp h
    have hq : Quiet env l t := executeStrategyProposal_quiet h
    obtain ⟨_,-,-,-,-,rfl⟩ := executeStrategyProposal_ok.mp h
    exact Or.inl (hu.quiet hq ⟨rfl,rfl,rfl,rfl,rfl,rfl⟩)
  | deposit user amount => simp [dispatch,deposit_ok,hu.blank.token] at h
  | batchDeposit relayer entries =>
    obtain ⟨_,h,-⟩ := map_eq_ok.mp h
    obtain ⟨_,_,_,-,-,-,-,htoken,-⟩ := batchDeposit_ok h
    simp [hu.blank.token] at htoken
  | withdraw user shares =>
    obtain ⟨_,h,-⟩ := map_eq_ok.mp h
    obtain ⟨hpos,_,-,-,-,hbal,-⟩ := withdraw_ok.mp h
    have h0 : balance l.storage user = 0 := congrFun hu.blank.balance user
    omega
  | executeWithdrawal user =>
    simp [dispatch,executeWithdrawal_ok,hu.blank.pending] at h
  | divest amount => simp [dispatch,divest_ok,hu.blank.strategy] at h
  | reportBenjiYield strategy amount =>
    obtain ⟨_,h,-⟩ := map_eq_ok.mp h
    obtain ⟨_,_,_,-,-,-,-,htoken,-⟩ := reportBenjiYield_ok h
    simp [hu.blank.token] at htoken
  | totalAssets =>
    obtain ⟨_,h,-⟩ := map_eq_ok.mp h
    obtain ⟨_,c,-,-,-,rfl⟩ := totalAssets_ok.mp h
    exact Or.inl ⟨hu.blank,hu.principal,hu.payouts⟩
  | _ => exact absurd rfl hasks

section Rules

variable {host : Host σ} {chain : σ}

def Founded (l : Ledger σ) : Prop := Unfounded l ∨ Live l.storage

theorem step_cases {l : Ledger σ} (hl : Live l.storage) (a : Action host) :
    (∃ inv v es, a = .invoke inv ∧ (dispatch inv.env inv.call).run l = .ok v (step host a l) ∧
      Page l.storage inv.call es ∧ Booked l (step host a l) es) ∨
    books (step host a l) = books l ∧ (step host a l).storage = l.storage := by
  cases a with
  | outside c => exact Or.inr ⟨rfl,rfl⟩
  | invoke inv =>
    rcases invoke_cases inv l with ⟨v,hv⟩ | hsame
    · obtain ⟨es,hpage,hbook⟩ := journal hl.state (fun _ _ _ => hl.initialized) hv
      exact Or.inl ⟨inv,v,es,rfl,hv,hpage,hbook⟩
    · refine Or.inr ?_
      change books (invoke inv l) = books l ∧ (invoke inv l).storage = l.storage
      rw [hsame]
      exact ⟨rfl,rfl⟩

theorem step_unfounded {l : Ledger σ} (hu : Unfounded l) (a : Action host) :
    Unfounded (step host a l) ∨
      Live (step host a l).storage ∧ books (step host a l) = Books.empty := by
  cases a with
  | outside c => exact Or.inl ⟨hu.blank,hu.principal,hu.payouts⟩
  | invoke inv =>
    rcases invoke_cases inv l with ⟨v,hv⟩ | hsame
    · exact unfounded_call hu hv
    · refine Or.inl ?_
      change Unfounded (invoke inv l)
      rw [hsame]
      exact hu

theorem step_founded {l : Ledger σ} (hf : Founded l) (a : Action host) :
    Founded (step host a l) := by
  rcases hf with hu | hl
  · exact (step_unfounded hu a).imp_right And.left
  · rcases step_cases hl a with ⟨_,_,_,-,-,-,hbook⟩ | ⟨-,hs⟩
    · exact Or.inr (hl.kept hbook.kept)
    · exact Or.inr (by rw [hs]; exact hl)

theorem unfounded_genesis (chain : σ) : Unfounded (genesis chain) :=
  ⟨⟨rfl,rfl,rfl,rfl,rfl,rfl,rfl,rfl⟩,rfl,rfl⟩

theorem run_founded (acts : List (Action host)) :
    Founded (runFrom host chain acts) := by
  have h0 : Founded (genesis chain) := Or.inl (unfounded_genesis chain)
  have hs : ∀ l a, Founded l → Founded (step host a l) := fun _ a h => step_founded h a
  exact Runs.invariant hs acts h0

/-- One step of the induction for the books: it is enough to look at the pages that
successful guarded calls make in founded ledgers. -/
theorem step_books {P : Books → Prop} {guard : Ledger σ → Action host → Prop}
    (h0 : P Books.empty)
    (hpage : ∀ l inv v es, Live l.storage → guard l (.invoke inv) → P (books l) →
      (dispatch inv.env inv.call).run l = .ok v (step host (.invoke inv) l) →
      Page l.storage inv.call es → Booked l (step host (.invoke inv) l) es →
      P (Books.postAll es (books l)))
    {l : Ledger σ} {a : Action host} (hf : Founded l) (hP : P (books l)) (hg : guard l a) :
    P (books (step host a l)) := by
  rcases hf with hu | hl
  · rcases step_unfounded hu a with hu' | ⟨-,hb⟩
    · rw [hu'.books]
      exact h0
    · rw [hb]
      exact h0
  · rcases step_cases hl a with ⟨inv,v,es,rfl,hv,hpg,hbook⟩ | ⟨hb,-⟩
    · rw [hbook.posted]
      exact hpage l inv v es hl hg hP hv hpg hbook
    · rw [hb]
      exact hP

/-- The induction rule for the books along a guarded run. -/
theorem run_books {P : Books → Prop} {guard : Ledger σ → Action host → Prop}
    (h0 : P Books.empty)
    (hpage : ∀ l inv v es, Live l.storage → guard l (.invoke inv) → P (books l) →
      (dispatch inv.env inv.call).run l = .ok v (step host (.invoke inv) l) →
      Page l.storage inv.call es → Booked l (step host (.invoke inv) l) es →
      P (Books.postAll es (books l)))
    {acts : List (Action host)} (ha : Runs.Along (step host) guard (genesis chain) acts) :
    P (books (runFrom host chain acts)) := by
  have hinv : ∀ l a, Founded l ∧ P (books l) → guard l a →
      Founded (step host a l) ∧ P (books (step host a l)) :=
    fun _ a hi hg => ⟨step_founded hi.1 a,step_books h0 hpage hi.1 hi.2 hg⟩
  have hu := unfounded_genesis chain
  have hstart : P (books (genesis chain)) := by
    rw [hu.books]
    exact h0
  exact (ha.invariant hinv ⟨Or.inl hu,hstart⟩).2

/-- What every valid entry preserves holds of the books of every reachable ledger. -/
theorem reachable_books {P : Books → Prop} (h0 : P Books.empty)
    (hpost : ∀ b e, P b → b.Valid e → P (Books.post e b)) {l : Ledger σ}
    (hl : Reachable host l) : P (books l) := by
  obtain ⟨chain,acts,rfl⟩ := hl
  have ha : Runs.Along (step host) (fun _ _ => True) (genesis chain) acts := by
    generalize genesis chain = s
    induction acts generalizing s with
    | nil => trivial
    | cons a as ih => exact ⟨trivial,ih _⟩
  refine run_books h0 ?_ ha
  intro l inv v es _ _ hP _ _ hbook
  exact hbook.valid.invariant hpost hP

theorem run_token {l : Ledger σ} (hl : Live l.storage) {acts : List (Action host)} :
    (Runs.run (step host) acts l).storage.tokenAsset = l.storage.tokenAsset := by
  have hinv : ∀ m a, Live m.storage ∧ m.storage.tokenAsset = l.storage.tokenAsset →
      Live (step host a m).storage ∧
        (step host a m).storage.tokenAsset = l.storage.tokenAsset := by
    rintro m a ⟨hm,htoken⟩
    rcases step_cases hm a with ⟨_,_,_,-,-,-,hbook⟩ | ⟨-,hs⟩
    · exact ⟨hm.kept hbook.kept,hbook.kept.token.trans htoken⟩
    · exact ⟨by rw [hs]; exact hm,by rw [hs]; exact htoken⟩
  exact (Runs.invariant hinv acts ⟨hl,rfl⟩).2

theorem reachable_founded {l : Ledger σ} (hl : Reachable host l) : Founded l := by
  obtain ⟨chain,acts,rfl⟩ := hl
  exact run_founded acts

theorem Reachable.step {l : Ledger σ} (hl : Reachable host l) (a : Action host) :
    Reachable host (step host a l) := by
  obtain ⟨chain,acts,rfl⟩ := hl
  exact ⟨chain,acts ++ [a],(Runs.run_concat _ _ _ _).symm⟩

end Rules

end YieldVault
