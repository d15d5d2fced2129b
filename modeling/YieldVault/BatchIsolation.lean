import YieldVault.BatchRefinement

/-! Isolation of the entries of a batch. An entry that is refused is recorded and leaves the
others as they would be without it. But the conversion of an amount, the sums and the token
transfer trap where they fail, and a trap takes the whole batch with it. -/
namespace YieldVault

open FixedWidth Contract

variable {σ : Type} {env : Env σ} {l t m : Ledger σ}

section Loop

variable {token : Address} {minimum cap : ℤ}

theorem processEntries_append (pre post : List DepositEntry) (batch : BatchState) :
    processEntries env token minimum cap (pre ++ post) batch =
      processEntries env token minimum cap pre batch >>=
        processEntries env token minimum cap post := by
  induction pre generalizing batch with
  | nil => rw [List.nil_append,processEntries,pure_bind]
  | cons entry pre ih => simp only [List.cons_append,processEntries,ih,bind_assoc]

/-- The batch with one more failure, recorded at some position. -/
def withFailure (i : ℕ) (own : DepositResult) (result : BatchDepositResult) :
    BatchDepositResult :=
  { result with
    results := result.results.take i ++ own :: result.results.drop i
    failureCount := result.failureCount+1 }

def BatchState.withFailure (i : ℕ) (own : DepositResult) (batch : BatchState) : BatchState :=
  { batch with result := YieldVault.withFailure i own batch.result }

theorem withFailure_results {i : ℕ} {own next : DepositResult} {results : List DepositResult}
    (hi : i ≤ results.length) :
    (results ++ [next]).take i ++ own :: (results ++ [next]).drop i =
      results.take i ++ own :: results.drop i ++ [next] := by
  rw [List.take_append_of_le_length hi,List.drop_append_of_le_length hi]
  simp

theorem recordEntry_withFailure {i : ℕ} {own : DepositResult} {user : Address} {batch : BatchState}
    {outcome : Except VaultError (ℤ × VaultState)} (hi : i ≤ batch.result.results.length)
    (hcount : batch.result.failureCount+2 < 2^32) :
    recordEntry user (batch.withFailure i own) outcome =
      (recordEntry user batch outcome).map (BatchState.withFailure i own) := by
  cases outcome with
  | ok minted =>
    simp only [recordEntry,BatchState.withFailure,withFailure]
    rw [← withFailure_results hi]
    cases checkedAdd 128 batch.result.totalSharesMinted minted.1 with
    | none => rfl
    | some total => cases checkedAddUnsigned 32 batch.result.successCount 1 <;> rfl
  | error e =>
    have h1 : checkedAddUnsigned 32 batch.result.failureCount 1 =
        some (batch.result.failureCount+1) := checkedAddUnsigned_eq_some.mpr ⟨by omega,rfl⟩
    have h2 : checkedAddUnsigned 32 (batch.result.failureCount+1) 1 =
        some (batch.result.failureCount+1+1) := checkedAddUnsigned_eq_some.mpr ⟨by omega,rfl⟩
    simp only [recordEntry,BatchState.withFailure,withFailure,h1,h2]
    rw [← withFailure_results hi]
    rfl

theorem recordEntry_grows {user : Address} {batch next : BatchState}
    {outcome : Except VaultError (ℤ × VaultState)} (h : recordEntry user batch outcome = .ok next) :
    next.result.results.length = batch.result.results.length+1 ∧
      next.result.successCount+next.result.failureCount =
        batch.result.successCount+batch.result.failureCount+1 := by
  cases outcome with
  | ok minted =>
    obtain ⟨-,-,rfl⟩ := recordEntry_ok.mp h
    exact ⟨List.length_append,by dsimp only; omega⟩
  | error e =>
    obtain ⟨-,rfl⟩ := recordEntry_error.mp h
    exact ⟨List.length_append,by dsimp only; omega⟩

theorem processEntries_grows {entries : List DepositEntry} {batch batch' : BatchState}
    (h : (processEntries env token minimum cap entries batch).run l = .ok batch' t) :
    batch'.result.results.length = batch.result.results.length+entries.length ∧
      batch'.result.successCount+batch'.result.failureCount =
        batch.result.successCount+batch.result.failureCount+entries.length := by
  induction entries generalizing batch l with
  | nil =>
    obtain ⟨rfl,-⟩ := pure_eq_ok.mp h
    exact ⟨rfl,rfl⟩
  | cons entry entries ih =>
    obtain ⟨outcome,m,-,h⟩ := bind_eq_ok.mp h
    obtain ⟨next,hnext,h⟩ := trapping_bind_eq_ok.mp h
    obtain ⟨hlength,hcount⟩ := recordEntry_grows hnext
    obtain ⟨hlength',hcount'⟩ := ih h
    rw [List.length_cons]
    omega

theorem processEntries_withFailure {i : ℕ} {own : DepositResult} {entries : List DepositEntry}
    {batch : BatchState} (hi : i ≤ batch.result.results.length)
    (hcount : batch.result.successCount+batch.result.failureCount+entries.length+1 < 2^32) :
    processEntries env token minimum cap entries (batch.withFailure i own) =
      BatchState.withFailure i own <$> processEntries env token minimum cap entries batch := by
  induction entries generalizing batch with
  | nil => rw [processEntries,processEntries,map_pure]
  | cons entry entries ih =>
    rw [List.length_cons] at hcount
    simp only [processEntries,map_bind]
    refine bind_congr fun outcome => ?_
    rw [recordEntry_withFailure hi (by omega)]
    cases hnext : recordEntry entry.user batch outcome with
    | error message => rfl
    | ok next =>
      obtain ⟨hlength,hgrown⟩ := recordEntry_grows hnext
      exact ih (by omega) (by omega)

end Loop

section Turn

variable {relayer : Address} {token : Address}

structure Admitted (env : Env σ) (relayer token : Address) (size : ℕ) (l : Ledger σ) : Prop where
  unpaused : (getState l.storage).isPaused = false
  signed : env.auth relayer = true
  approved : isRelayer l.storage relayer = true
  size : size ≤ maxBatchSize l.storage
  token : l.storage.tokenAsset = some token

def loop (env : Env σ) (token : Address) (entries : List DepositEntry) (l : Ledger σ) :
    Outcome (Ledger σ) VaultError BatchState :=
  (processEntries env token (minDeposit l.storage) (perUserCap l.storage) entries
    ⟨getState l.storage,⟨[],0,0,0⟩⟩).run l

def closed (batch : BatchState) (m : Ledger σ) : Ledger σ :=
  ⟨setState batch.state m.storage,m.chain,
    .event (.batchDeposit batch.result.totalSharesMinted batch.result.successCount
      batch.result.failureCount) :: m.log⟩

theorem Admitted.run {entries : List DepositEntry} (ha : Admitted env relayer token entries.length l) :
    (batchDeposit env relayer entries).run l =
      match loop env token entries l with
      | .ok batch m => .ok batch.result (closed batch m)
      | .err e m => .err e m
      | .panic message => .panic message := by
  obtain ⟨hpaused,hsigned,happroved,hsize,htoken⟩ := ha
  have hexpect (k : Address → VaultM σ BatchDepositResult) :
      ((expect l.storage.tokenAsset unwrapNone : VaultM σ Address) >>= k).run l =
        (k token).run l := by
    rw [run_bind,expect,htoken]
  simp only [batchDeposit,load,requireAuth,loadToken,bind_assoc,read_bind,ensure_bind,demand_bind,
    hpaused,hsigned,happroved,hsize,if_true,hexpect]
  rw [run_bind,loop]
  cases (processEntries env token (minDeposit l.storage) (perUserCap l.storage) entries
    ⟨getState l.storage,⟨[],0,0,0⟩⟩).run l <;> rfl

theorem Admitted.of_ok {entries : List DepositEntry} {result : BatchDepositResult}
    (h : (batchDeposit env relayer entries).run l = .ok result t)
    (htoken : l.storage.tokenAsset = some token) :
    Admitted env relayer token entries.length l ∧ ∃ batch m, loop env token entries l =
      .ok batch m ∧ batch.result = result ∧ t = closed batch m := by
  obtain ⟨other,batch,m,hpaused,hsigned,happroved,hsize,hother,hloop,rfl,rfl⟩ := batchDeposit_ok h
  obtain rfl : token = other := Option.some.inj (htoken.symm.trans hother)
  exact ⟨⟨hpaused,hsigned,happroved,hsize,htoken⟩,batch,m,hloop,rfl,rfl⟩

theorem Admitted.of_le {size size' : ℕ} (ha : Admitted env relayer token size l)
    (h : size' ≤ maxBatchSize l.storage) : Admitted env relayer token size' l :=
  { ha with size := h }

theorem loop_append {pre : List DepositEntry} {batch : BatchState} (post : List DepositEntry)
    (h : loop env token pre l = .ok batch m) :
    loop env token (pre ++ post) l =
      (processEntries env token (minDeposit l.storage) (perUserCap l.storage) post batch).run m := by
  rw [loop,processEntries_append,run_bind]
  rw [loop] at h
  rw [h]

theorem loop_settings {entries : List DepositEntry} {batch : BatchState}
    (h : loop env token entries l = .ok batch m) :
    minDeposit m.storage = minDeposit l.storage ∧ perUserCap m.storage = perUserCap l.storage := by
  refine processEntries_invariant (P := fun _ m => minDeposit m.storage = minDeposit l.storage ∧
    perUserCap m.storage = perUserCap l.storage) ?_ h ⟨rfl,rfl⟩
  intro state state' user amount shares m t hm hone
  obtain ⟨_,-,-,-,-,-,-,-,-,-,rfl⟩ := processSingleBatchEntry_ok.mp hone
  exact hm

/-- The batch up to and including an entry whose outcome can be recorded. -/
theorem loop_entry {pre : List DepositEntry} {entry : DepositEntry} {batch next : BatchState}
    {outcome : Except VaultError (ℤ × VaultState)} (hloop : loop env token pre l = .ok batch m)
    (hentry : (attempt (processSingleBatchEntry env batch.state token entry.user entry.amount
      (minDeposit l.storage) (perUserCap l.storage))).run m = .ok outcome t)
    (hnext : recordEntry entry.user batch outcome = .ok next) :
    loop env token (pre ++ [entry]) l = .ok next t := by
  rw [loop_append _ hloop,processEntries,run_bind,hentry]
  dsimp only
  rw [hnext]
  rfl

/-- The amount of an entry does not trap: it is refused, or it converts without overflow and
then mints no share, or adds up and then exceeds the cap or can be moved and booked. -/
def Processable (env : Env σ) (token : Address) (minted : ℤ) (t : Ledger σ)
    (entry : DepositEntry) : Prop :=
  entry.amount ≤ 0 ∨ entry.amount < minDeposit t.storage ∨
    ∃ shares, assetsToShares entry.amount (getState t.storage).totalShares
        (getState t.storage).totalAssets = .ok shares ∧
      (shares = 0 ∨ I128 (userDeposit t.storage entry.user+entry.amount) ∧
        (perUserCap t.storage < userDeposit t.storage entry.user+entry.amount ∨
          (∃ c, env.host.transfer token entry.user env.host.vault entry.amount t.chain =
            some c) ∧
          DepositFits (getState t.storage) entry.user entry.amount shares
            (storedTotalShares t.storage+shares) t.storage ∧ I128 (minted+shares)))

/-- An entry at its turn is booked or refused exactly where its amount does not trap. -/
theorem processable_iff {entry : DepositEntry} {batch : BatchState}
    (hauth : env.auth entry.user = true) (hsettings : minDeposit m.storage = minDeposit l.storage ∧
      perUserCap m.storage = perUserCap l.storage) :
    Processable env token batch.result.totalSharesMinted (closed batch m) entry ↔
      (∃ shares state t, (processSingleBatchEntry env batch.state token entry.user entry.amount
          (minDeposit l.storage) (perUserCap l.storage)).run m = .ok (shares,state) t ∧
        I128 (batch.result.totalSharesMinted+shares)) ∨
      ∃ e, (processSingleBatchEntry env batch.state token entry.user entry.amount
        (minDeposit l.storage) (perUserCap l.storage)).run m = .err e m := by
  have hmin : minDeposit (closed batch m).storage = minDeposit l.storage := hsettings.1
  have hcap : perUserCap (closed batch m).storage = perUserCap l.storage := hsettings.2
  unfold Processable
  rw [hmin,hcap]
  constructor
  · intro h
    by_cases hpos : entry.amount ≤ 0
    · exact Or.inr ⟨_,processSingleBatchEntry_err.mpr ⟨Or.inl ⟨hpos,rfl⟩,rfl⟩⟩
    by_cases hsmall : entry.amount < minDeposit l.storage
    · exact Or.inr ⟨_,processSingleBatchEntry_err.mpr
        ⟨Or.inr ⟨not_le.mp hpos,Or.inl ⟨hsmall,rfl⟩⟩,rfl⟩⟩
    obtain ⟨shares,hshares,h⟩ := (h.resolve_left hpos).resolve_left hsmall
    have hrefused {e : VaultError} (hwhy : shares = 0 ∧ e = .invalidAmount ∨ shares ≠ 0 ∧
        I128 (userDeposit m.storage entry.user+entry.amount) ∧
        perUserCap l.storage < userDeposit m.storage entry.user+entry.amount ∧
        e = .exceedsUserCap) :
        DepositRefused batch.state entry.user entry.amount (minDeposit l.storage)
          (perUserCap l.storage) m.storage e :=
      Or.inr ⟨not_le.mp hpos,Or.inr ⟨not_lt.mp hsmall,shares,hshares,hwhy⟩⟩
    by_cases hzero : shares = 0
    · exact Or.inr ⟨_,processSingleBatchEntry_err.mpr ⟨hrefused (Or.inl ⟨hzero,rfl⟩),rfl⟩⟩
    obtain ⟨hfits,h⟩ := h.resolve_left hzero
    by_cases hover : perUserCap l.storage < userDeposit m.storage entry.user+entry.amount
    · exact Or.inr ⟨_,processSingleBatchEntry_err.mpr
        ⟨hrefused (Or.inr ⟨hzero,hfits,hover,rfl⟩),rfl⟩⟩
    obtain ⟨⟨c,hmoved⟩,hbooked,htotal⟩ := h.resolve_left hover
    exact Or.inl ⟨shares,_,_,processSingleBatchEntry_ok.mpr ⟨c,not_le.mp hpos,not_lt.mp hsmall,
      hshares,hzero,not_lt.mp hover,hauth,hmoved,hbooked,rfl,rfl⟩,htotal⟩
  · rintro (⟨shares,state,t,hone,htotal⟩ | ⟨e,hone⟩)
    · obtain ⟨c,-,-,hshares,-,-,-,hmoved,hbooked,-,-⟩ := processSingleBatchEntry_ok.mp hone
      exact Or.inr (Or.inr ⟨shares,hshares,Or.inr ⟨hbooked.1,Or.inr ⟨⟨c,hmoved⟩,hbooked,htotal⟩⟩⟩)
    · obtain ⟨hrefused,-⟩ := processSingleBatchEntry_err.mp hone
      rcases hrefused with ⟨hpos,-⟩ | ⟨-,⟨hsmall,-⟩ | ⟨-,shares,hshares,hwhy⟩⟩
      · exact Or.inl hpos
      · exact Or.inr (Or.inl hsmall)
      · rcases hwhy with ⟨hzero,-⟩ | ⟨-,hfits,hover,-⟩
        · exact Or.inr (Or.inr ⟨shares,hshares,Or.inl hzero⟩)
        · exact Or.inr (Or.inr ⟨shares,hshares,Or.inr ⟨hfits,Or.inl hover⟩⟩)

end Turn

section Isolation

variable {relayer : Address} {token : Address}

/-- Two batches that end in the same way but for one failure that is recorded in the second. -/
def SameButFor (i : ℕ) (own : DepositResult) :
    Outcome (Ledger σ) VaultError BatchDepositResult →
      Outcome (Ledger σ) VaultError BatchDepositResult → Prop
  | .ok result t, o => ∃ t', o = .ok (withFailure i own result) t' ∧ t'.storage = t.storage ∧
      t'.chain = t.chain ∧ t'.log.tail = t.log.tail
  | .err e t, o => o = .err e t
  | .panic message, o => o = .panic message

/-- The amount of an entry can be processed: it is positive, not below the minimum, converts to
some shares, and keeps the user within the cap. -/
def Eligible (t : Ledger σ) (entry : DepositEntry) : Prop :=
  0 < entry.amount ∧ minDeposit t.storage ≤ entry.amount ∧
    (∃ shares, assetsToShares entry.amount (getState t.storage).totalShares
      (getState t.storage).totalAssets = .ok shares ∧ shares ≠ 0) ∧
    userDeposit t.storage entry.user+entry.amount ≤ perUserCap t.storage

/-- The batch gets past an entry that meets the ledger `m`, and records a success exactly if the
amount can be processed there; after a failure it is for the others what it is without the
entry. -/
def Isolates (env : Env σ) (relayer : Address) (pre : List DepositEntry) (entry : DepositEntry)
    (post : List DepositEntry) (m l : Ledger σ) : Prop :=
  ∃ result t own, (batchDeposit env relayer (pre ++ [entry])).run l = .ok result t ∧
    result.results[pre.length]? = some own ∧ own.user = entry.user ∧
    (own.success = true ↔ Eligible m entry) ∧
    (own.success = false → SameButFor pre.length own
      ((batchDeposit env relayer (pre ++ post)).run l)
      ((batchDeposit env relayer (pre ++ entry::post)).run l))

/-- The user has signed, and there is an amount that the token would move: if the entry traps,
then because of its own amount. -/
def Able (env : Env σ) (token : Address) (t : Ledger σ) (user : Address) : Prop :=
  env.auth user = true ∧ ∃ amount c, 0 < amount ∧
    env.host.transfer token user env.host.vault amount t.chain = some c

/-- A refused entry is one more failure at its place, for whatever follows. -/
theorem refused_rest {entry : DepositEntry} {post : List DepositEntry} {batch : BatchState}
    {minimum cap : ℤ} {e : VaultError}
    (h : (processSingleBatchEntry env batch.state token entry.user entry.amount minimum cap).run m =
      .err e m)
    (hcount : batch.result.successCount+batch.result.failureCount+post.length+1 < 2^32) :
    (processEntries env token minimum cap (entry::post) batch).run m =
      (BatchState.withFailure batch.result.results.length ⟨entry.user,0,false,e.code⟩ <$>
        processEntries env token minimum cap post batch).run m := by
  have hrecord : recordEntry entry.user batch (.error e) =
      .ok (batch.withFailure batch.result.results.length ⟨entry.user,0,false,e.code⟩) := by
    refine recordEntry_error.mpr ⟨by omega,?_⟩
    simp [BatchState.withFailure,withFailure]
  rw [← processEntries_withFailure le_rfl hcount,processEntries,run_bind]
  simp only [attempt,h]
  rw [hrecord,run_bind]
  rfl

theorem not_eligible_of_refused {entry : DepositEntry} {batch : BatchState} {e : VaultError}
    (h : DepositRefused batch.state entry.user entry.amount (minDeposit m.storage)
      (perUserCap m.storage) m.storage e) : ¬ Eligible (closed batch m) entry := by
  rintro ⟨hpos,hmin,⟨shares,hshares,hne⟩,hcap⟩
  rcases h with ⟨hle,-⟩ | ⟨-,⟨hsmall,-⟩ | ⟨-,other,hother,hwhy⟩⟩
  · exact absurd hpos (not_lt.mpr hle)
  · exact absurd hsmall (not_lt.mpr hmin)
  · obtain rfl : other = shares := Except.ok.inj (hother.symm.trans hshares)
    rcases hwhy with ⟨hzero,-⟩ | ⟨-,-,hover,-⟩
    · exact hne hzero
    · exact absurd hover (not_lt.mpr hcap)

theorem sameButFor_closed {i : ℕ} {own : DepositResult}
    {x : VaultM σ BatchState} {run run' : Outcome (Ledger σ) VaultError BatchDepositResult}
    (hrun : run = match x.run m with
      | .ok batch m => .ok batch.result (closed batch m)
      | .err e m => .err e m
      | .panic message => .panic message)
    (hrun' : run' = match (BatchState.withFailure i own <$> x).run m with
      | .ok batch m => .ok batch.result (closed batch m)
      | .err e m => .err e m
      | .panic message => .panic message) : SameButFor i own run run' := by
  subst hrun hrun'
  rw [map_eq_pure_bind,run_bind]
  cases x.run m with
  | ok batch m => exact ⟨_,rfl,rfl,rfl,rfl⟩
  | err e m => rfl
  | panic message => rfl

/-- A batch gets past an entry, records whether its amount could be processed, and is for the
others what it is without the entry if it could not, exactly where the amount of the entry does
not trap on what the entries before it have left. -/
theorem batch_isolates_iff {pre : List DepositEntry} {entry : DepositEntry}
    {post : List DepositEntry} {result : BatchDepositResult}
    (hword : maxBatchSize l.storage < 2^32)
    (hsize : (pre ++ entry::post).length ≤ maxBatchSize l.storage)
    (htoken : l.storage.tokenAsset = some token)
    (hpre : (batchDeposit env relayer pre).run l = .ok result t)
    (hable : Able env token t entry.user) :
    Isolates env relayer pre entry post t l ↔
      Processable env token result.totalSharesMinted t entry := by
  obtain ⟨hauth,-⟩ := hable
  obtain ⟨hadm,batch,m,hloop,rfl,rfl⟩ := Admitted.of_ok hpre htoken
  obtain ⟨hlength,hcount⟩ := processEntries_grows hloop
  simp only [List.length_append,List.length_cons,List.length_nil,zero_add,add_zero]
    at hsize hlength hcount
  have hone : Admitted env relayer token (pre ++ [entry]).length l :=
    hadm.of_le (by simp; omega)
  have hwith : Admitted env relayer token (pre ++ entry::post).length l :=
    hadm.of_le (by simp; omega)
  have hwithout : Admitted env relayer token (pre ++ post).length l :=
    hadm.of_le (by simp; omega)
  have hsettings := loop_settings hloop
  rw [processable_iff hauth hsettings]
  constructor
  · rintro ⟨result,t,own,hok,-⟩
    rw [hone.run,loop_append _ hloop] at hok
    cases hrun : (processEntries env token (minDeposit l.storage) (perUserCap l.storage) [entry]
        batch).run m with
    | err e m => rw [hrun] at hok; cases hok
    | panic message => rw [hrun] at hok; cases hok
    | ok next m' =>
      rw [processEntries,attempt_bind_eq_ok] at hrun
      rcases hrun with ⟨⟨shares,state⟩,u,hentry,hrun⟩ | ⟨e,u,hentry,-⟩
      · obtain ⟨next,hnext,-⟩ := trapping_bind_eq_ok.mp hrun
        exact Or.inl ⟨shares,state,u,hentry,(recordEntry_ok.mp hnext).1⟩
      · obtain ⟨hrefused,rfl⟩ := processSingleBatchEntry_err.mp hentry
        exact Or.inr ⟨e,hentry⟩
  · rintro (⟨shares,state,u,hentry,htotal⟩ | ⟨e,hentry⟩)
    · have hnext : recordEntry entry.user batch (.ok (shares,state)) = .ok _ :=
        recordEntry_ok.mpr ⟨htotal,by omega,rfl⟩
      have hlast := loop_entry hloop (by simp only [attempt,hentry]; rfl) hnext
      refine ⟨_,_,⟨entry.user,shares,true,0⟩,by rw [hone.run,hlast],?_,rfl,?_,by simp⟩
      · rw [List.getElem?_append_right hlength.le,hlength,Nat.sub_self]
        rfl
      · obtain ⟨_,hpos,hmin,hshares,hne,hcap,-⟩ := processSingleBatchEntry_ok.mp hentry
        rw [← hsettings.1] at hmin
        rw [← hsettings.2] at hcap
        exact iff_of_true rfl ⟨hpos,hmin,⟨shares,hshares,hne⟩,hcap⟩
    · have hnext : recordEntry entry.user batch (.error e) = .ok _ :=
        recordEntry_error.mpr ⟨by omega,rfl⟩
      have hlast := loop_entry hloop (by simp only [attempt,hentry]; rfl) hnext
      refine ⟨_,_,⟨entry.user,0,false,e.code⟩,by rw [hone.run,hlast],?_,rfl,?_,fun _ => ?_⟩
      · rw [List.getElem?_append_right hlength.le,hlength,Nat.sub_self]
        rfl
      · obtain ⟨hrefused,-⟩ := processSingleBatchEntry_err.mp hentry
        rw [← hsettings.1,← hsettings.2] at hrefused
        exact iff_of_false Bool.false_ne_true (not_eligible_of_refused hrefused)
      · refine sameButFor_closed (m := m) (x := processEntries env token (minDeposit l.storage)
          (perUserCap l.storage) post batch) ?_ ?_
        · rw [hwithout.run,loop_append _ hloop]
        · rw [hwith.run,loop_append _ hloop,refused_rest hentry (by omega),hlength]

end Isolation

section Runs

open SimpleHost

theorem relayedVault_alice : ∃ result t, (batchDeposit batchEnv relayer [⟨alice,500⟩]).run
      (runFrom (simpleHost id 0) bank relayedVault) = .ok result t ∧ Able batchEnv token t bob :=
  ⟨_,_,rfl,by decide,1,_,by decide,rfl⟩

/-- A refused entry between two deposits of alice. -/
theorem relayedVault_isolates : ∃ m,
    Isolates batchEnv relayer [⟨alice,500⟩] ⟨bob,0⟩ [⟨alice,400⟩] m
      (runFrom (simpleHost id 0) bank relayedVault) := by
  obtain ⟨result,m,hpre,hable⟩ := relayedVault_alice
  exact ⟨m,(batch_isolates_iff (by decide +kernel) (by decide +kernel) rfl hpre hable).mpr
    (Or.inl le_rfl)⟩

/-- The largest amount does not convert: between the same deposits it aborts the batch. -/
theorem relayedVault_aborts :
    ¬ ∀ (acts : List (Action (simpleHost id 0))) (env : Env Bank) (relayer token : Address)
      (pre : List DepositEntry) (entry : DepositEntry) (post : List DepositEntry)
      (result : BatchDepositResult) (t : Ledger Bank), I128 entry.amount →
      (pre ++ entry::post).length ≤
        maxBatchSize (runFrom (simpleHost id 0) bank acts).storage →
      (runFrom (simpleHost id 0) bank acts).storage.tokenAsset = some token →
      (batchDeposit env relayer pre).run (runFrom (simpleHost id 0) bank acts) = .ok result t →
      Able env token t entry.user →
        Isolates env relayer pre entry post t (runFrom (simpleHost id 0) bank acts) := by
  intro h
  obtain ⟨result,t,hpre,hable⟩ := relayedVault_alice
  obtain ⟨_,_,_,hok,-⟩ := h relayedVault batchEnv relayer token [⟨alice,500⟩] ⟨bob,2^127-1⟩
    [⟨alice,400⟩] result t (by decide) (by decide +kernel) rfl hpre hable
  have hpanic : (batchDeposit batchEnv relayer ([⟨alice,500⟩] ++ [⟨bob,2^127-1⟩])).run
      (runFrom (simpleHost id 0) bank relayedVault) =
        .panic "overflow in assets_to_shares multiplication" := rfl
  rw [hpanic] at hok
  exact nomatch hok

end Runs

end YieldVault
