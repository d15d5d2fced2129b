import YieldVault.Founding
import YieldVault.SimpleHost

/-! A batch is a sequence of deposits. The batch keeps the state record in memory and
stores it once at the end; storing it after every entry instead would give the ledger
that single deposits give, of which those that return an error are rolled back. -/
namespace YieldVault

open FixedWidth Contract

variable {σ : Type} {host : Host σ} {env : Env σ} {l t : Ledger σ}

def depositOf (env : Env σ) (entry : DepositEntry) : VaultM σ ℤ :=
  deposit { env with auth := fun a => decide (a = entry.user) } entry.user entry.amount

/-- The entries deposited one after the other; a deposit that fails leaves nothing behind. -/
def depositSequence (env : Env σ) : List DepositEntry → Ledger σ → Ledger σ
  | [], l => l
  | entry::entries, l => depositSequence env entries (settle l ((depositOf env entry).run l))

/-- The result that a batch should record for the outcome of a single deposit. -/
def resultOf (user : Address) : Outcome (Ledger σ) VaultError ℤ → Option DepositResult
  | .ok shares _ => some ⟨user,shares,true,0⟩
  | .err e _ => some ⟨user,0,false,e.code⟩
  | .panic _ => none

def depositResults (env : Env σ) : List DepositEntry → Ledger σ → List (Option DepositResult)
  | [], _ => []
  | entry::entries, l => resultOf entry.user ((depositOf env entry).run l) ::
    depositResults env entries (settle l ((depositOf env entry).run l))

section Entries

variable {minimum cap : ℤ} {token : Address}

theorem deposit_refused {user : Address} {amount : ℤ} {e : VaultError}
    (hpaused : (getState l.storage).isPaused = false) (hauth : env.auth user = true)
    (htoken : l.storage.tokenAsset = some token)
    (h : DepositRefused (getState l.storage) user amount (minDeposit l.storage)
      (perUserCap l.storage) l.storage e) :
    (deposit env user amount).run l = .err e l := by
  simp [deposit,loadToken,tokenTransfer,creditIdle,hpaused,hauth,htoken]
  rcases h with ⟨hneg,rfl⟩ | ⟨hpos,⟨hmin,rfl⟩ | ⟨hmin,shares,hshares,h⟩⟩
  · exact Or.inr ⟨hneg,rfl⟩
  · exact Or.inl ⟨hpos,Or.inr ⟨hmin,rfl⟩⟩
  · refine Or.inl ⟨hpos,Or.inl ⟨hmin,shares,hshares,?_⟩⟩
    rcases h with ⟨h0,rfl⟩ | ⟨hne,hfit,hcap,rfl⟩
    · exact Or.inl ⟨h0,rfl⟩
    · exact Or.inr ⟨hne,hfit,hcap,rfl⟩

/-- What a batch has in memory and in storage between two entries. -/
structure BatchReady (state : VaultState) (token : Address) (minimum cap : ℤ) (l : Ledger σ) :
    Prop where
  unpaused : state.isPaused = false
  stored : storedTotalShares l.storage = state.totalShares
  token : l.storage.tokenAsset = some token
  minimum : minDeposit l.storage = minimum
  cap : perUserCap l.storage = cap

variable {state state' : VaultState}

/-- An entry that mints does what a deposit does to the flushed ledger. -/
theorem BatchReady.minted {entry : DepositEntry} {shares : ℤ}
    (hr : BatchReady state token minimum cap l)
    (h : (processSingleBatchEntry env state token entry.user entry.amount minimum cap).run l =
      .ok (shares,state') t) :
    (depositOf env entry).run (flushed state l) = .ok shares (flushed state' t) ∧
      BatchReady state' token minimum cap t ∧
      state'.totalShares = state.totalShares+shares := by
  obtain ⟨hpaused,hstored,htoken,hminimum,hcapped⟩ := hr
  obtain ⟨c,hpos,hmin,hshares,hne,hcap,-,htransfer,hfits,rfl,rfl⟩ :=
    processSingleBatchEntry_ok.mp h
  rw [hstored] at hfits
  refine ⟨deposit_ok.mpr ⟨token,c,hpaused,by simp,hpos,?_,htoken,hshares,hne,?_,htransfer,hfits,?_⟩,
    ⟨hpaused,?_,htoken,hminimum,hcapped⟩,rfl⟩
  · exact hminimum.trans_le hmin
  · exact hcap.trans hcapped.ge
  · simp only [flushed,hstored,creditedDeposit,setState,setLastDepositTime,setShareBalance,
      setStoredTotalShares,setIdleAssets,setUserDeposit]
    rfl
  · change storedTotalShares l.storage+shares = _
    rw [hstored]
    rfl

theorem BatchReady.failed {entry : DepositEntry} {e : VaultError}
    (hr : BatchReady state token minimum cap l)
    (h : (processSingleBatchEntry env state token entry.user entry.amount minimum cap).run l =
      .err e t) :
    (depositOf env entry).run (flushed state l) = .err e (flushed state l) ∧ t = l := by
  obtain ⟨hrefused,rfl⟩ := processSingleBatchEntry_err.mp h
  refine ⟨deposit_refused hr.unpaused (by simp) hr.token ?_,rfl⟩
  change DepositRefused state entry.user entry.amount (minDeposit t.storage) (perUserCap t.storage)
    t.storage e
  rw [hr.minimum,hr.cap]
  exact hrefused

/-- The loop of a batch against the sequence of deposits from the flushed ledger. -/
structure Refined (env : Env σ) (entries : List DepositEntry) (batch batch' : BatchState)
    (l t : Ledger σ) : Prop where
  ledger : depositSequence env entries (flushed batch.state l) = flushed batch'.state t
  results : batch'.result.results.map some =
    batch.result.results.map some ++ depositResults env entries (flushed batch.state l)
  minted : batch'.result.totalSharesMinted+(batch.result.results.map DepositResult.sharesMinted).sum =
    batch.result.totalSharesMinted+(batch'.result.results.map DepositResult.sharesMinted).sum
  supply : batch'.state.totalShares+batch.result.totalSharesMinted =
    batch.state.totalShares+batch'.result.totalSharesMinted
  count : batch'.result.successCount+batch'.result.failureCount =
    batch.result.successCount+batch.result.failureCount+entries.length

theorem processEntries_refined {entries : List DepositEntry} {batch batch' : BatchState}
    (hr : BatchReady batch.state token minimum cap l)
    (h : (processEntries env token minimum cap entries batch).run l = .ok batch' t) :
    Refined env entries batch batch' l t := by
  induction entries generalizing batch l with
  | nil =>
    obtain ⟨rfl,rfl⟩ := pure_eq_ok.mp h
    exact ⟨rfl,by simp [depositResults],rfl,rfl,rfl⟩
  | cons entry entries ih =>
    rw [processEntries,attempt_bind_eq_ok] at h
    rcases h with ⟨⟨shares,state⟩,m,hentry,h⟩ | ⟨e,m,hentry,h⟩
    · obtain ⟨next,hnext,h⟩ := trapping_bind_eq_ok.mp h
      obtain ⟨-,-,rfl⟩ := recordEntry_ok.mp hnext
      obtain ⟨hdeposit,hready,hminted⟩ := hr.minted hentry
      obtain ⟨hledger,hresults,hsum,hsupply,hcount⟩ := ih hready h
      dsimp only at hresults hsum hsupply hcount
      refine ⟨?_,?_,?_,?_,?_⟩
      · rw [depositSequence,hdeposit]
        exact hledger
      · rw [depositResults,hdeposit,hresults]
        simp [resultOf,settle]
      · simp only [List.map_append,List.sum_append,List.map_cons,List.map_nil,List.sum_cons,
          List.sum_nil] at hsum
        omega
      · rw [hminted] at hsupply
        omega
      · rw [List.length_cons]
        omega
    · obtain ⟨next,hnext,h⟩ := trapping_bind_eq_ok.mp h
      obtain ⟨-,rfl⟩ := recordEntry_error.mp hnext
      obtain ⟨hdeposit,rfl⟩ := hr.failed hentry
      obtain ⟨hledger,hresults,hsum,hsupply,hcount⟩ := ih (by exact hr) h
      dsimp only at hresults hsum hsupply hcount
      refine ⟨?_,?_,?_,hsupply,?_⟩
      · rw [depositSequence,hdeposit]
        exact hledger
      · rw [depositResults,hdeposit,hresults]
        simp [resultOf,settle]
      · simp only [List.map_append,List.sum_append,List.map_cons,List.map_nil,List.sum_cons,
          List.sum_nil] at hsum
        omega
      · rw [List.length_cons]
        omega

end Entries

theorem depositResults_length (entries : List DepositEntry) :
    (depositResults env entries l).length = entries.length := by
  induction entries generalizing l with
  | nil => rfl
  | cons entry entries ih => simp [depositResults,ih]

theorem flushed_getState (hs : l.storage.state.isSome = true) :
    flushed (getState l.storage) l = l := by
  obtain ⟨storage,chain,log⟩ := l
  obtain ⟨state,hstate⟩ := Option.isSome_iff_exists.mp hs
  have h1 : setState (getState storage) storage = storage := by
    unfold setState getState
    rw [hstate,Option.getD_some,← hstate]
  exact congrArg (fun s => (⟨s,chain,log⟩ : Ledger σ)) h1

/-- A batch that returns leaves the storage and the chain that the single deposits leave,
where those that return an error are rolled back, and its results are theirs in order;
the counts add up to the number of entries and the minted shares to the growth of the
supply. An entry that fails changes nothing. -/
theorem batchDeposit_refines {relayer : Address} {entries : List DepositEntry}
    {result : BatchDepositResult} (hl : Reachable env.host l)
    (h : (batchDeposit env relayer entries).run l = .ok result t) :
    t.storage = (depositSequence env entries l).storage ∧
      t.chain = (depositSequence env entries l).chain ∧
      result.results.map some = depositResults env entries l ∧
      result.results.length = entries.length ∧
      result.successCount+result.failureCount = entries.length ∧
      result.totalSharesMinted = (result.results.map DepositResult.sharesMinted).sum ∧
      (getState t.storage).totalShares =
        (getState l.storage).totalShares+result.totalSharesMinted ∧
      ∀ (state : VaultState) (token user : Address) (amount minimum cap : ℤ) (e : VaultError)
        (m m' : Ledger σ),
        (processSingleBatchEntry env state token user amount minimum cap).run m = .err e m' →
          m' = m := by
  obtain ⟨token,batch,m,hpaused,-,-,-,htoken,hloop,rfl,rfl⟩ := batchDeposit_ok h
  have hlive : Live l.storage := by
    rcases reachable_founded hl with hu | hlive
    · rw [hu.blank.token] at htoken
      exact absurd htoken nofun
    · exact hlive
  have hstored : (books l).Balanced :=
    reachable_books ⟨hasSum_zero,rfl⟩ (fun _ _ hb he => hb.post he) hl
  have hready : BatchReady (getState l.storage) token (minDeposit l.storage)
      (perUserCap l.storage) l := ⟨hpaused,hstored.stored,htoken,rfl,rfl⟩
  obtain ⟨hledger,hresults,hminted,hsupply,hcount⟩ := processEntries_refined hready hloop
  rw [flushed_getState hlive.state] at hledger hresults
  rw [List.map_nil,List.nil_append] at hresults
  have hlength : batch.result.results.length = entries.length := by
    have h1 := congrArg List.length hresults
    rwa [List.length_map,depositResults_length] at h1
  refine ⟨by rw [hledger]; rfl,by rw [hledger]; rfl,hresults,hlength,?_,?_,?_,?_⟩
  · simpa using hcount
  · simpa using hminted
  · simpa using hsupply
  · intro state token user amount minimum cap e m m' hfail
    exact (processSingleBatchEntry_err.mp hfail).2

section Runs

open SimpleHost

def relayedVault : List (Action (simpleHost id 0)) :=
  [signed admin 0 (.initializeVault admin token),
    signed admin 1 (.setting (.relayer relayer true)),
    signed bob 2 (.deposit bob 1000),
    signed admin 3 (.accrueYield 333)]

def batchEnv : Env Bank :=
  ⟨simpleHost id 0,4,4,fun a => decide (a = relayer ∨ a = alice ∨ a = bob)⟩

/-- A repeated user, an invalid amount, and an amount too small for one share. -/
def mixedBatch : List DepositEntry := [⟨alice,500⟩,⟨bob,-3⟩,⟨alice,400⟩,⟨bob,1⟩]

theorem mixedBatch_refines :
    ∃ result t, (batchDeposit batchEnv relayer mixedBatch).run
        (runFrom (simpleHost id 0) bank relayedVault) = .ok result t ∧
      t.storage = (depositSequence batchEnv mixedBatch
        (runFrom (simpleHost id 0) bank relayedVault)).storage := by
  have hok : ((batchDeposit batchEnv relayer mixedBatch).run
      (runFrom (simpleHost id 0) bank relayedVault)).isOk = true := by decide +kernel
  obtain ⟨result,t,h⟩ := Outcome.isOk_iff.mp hok
  have hl : Reachable batchEnv.host (runFrom (simpleHost id 0) bank relayedVault) :=
    ⟨bank,relayedVault,rfl⟩
  exact ⟨result,t,h,(batchDeposit_refines hl h).1⟩

end Runs

end YieldVault
