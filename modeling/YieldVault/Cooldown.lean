import YieldVault.WithdrawalTimelock
import YieldVault.Backing

/-! The cooldown after a deposit. Every deposit of a user, single or in a batch, starts the
user's clock again; a withdrawal looks at the clock, the execution of a deferred one
does not. -/
namespace YieldVault

open FixedWidth Contract

variable {σ : Type} {host : Host σ} {env : Env σ} {chain : σ} {l t : Ledger σ}

section Deposits

def Credits (user : Address) (results : List DepositResult) : Prop :=
  ∃ r ∈ results, r.user = user ∧ r.success = true

/-- The action is a deposit of the user, or a batch with an entry that was carried out. -/
def Deposits (user : Address) (l : Ledger σ) (a : Action host) : Prop :=
  ∃ inv v t, a = .invoke inv ∧ (dispatch inv.env inv.call).run l = .ok v t ∧
    ((∃ amount, inv.call = .deposit user amount) ∨
      ∃ relayer entries result, inv.call = .batchDeposit relayer entries ∧ v = .batch result ∧
        Credits user result.results)

variable {user : Address}

/-- The batch loop starts the clock of everybody whose entry it carries out, and of nobody else. -/
theorem processEntries_times (user : Address) {token : Address} {minimum cap : ℤ}
    {entries : List DepositEntry} {batch batch' : BatchState}
    (h : (processEntries env token minimum cap entries batch).run l = .ok batch' t) :
    ∃ new, batch'.result.results = batch.result.results ++ new ∧
      (Credits user new → t.storage.lastDepositTime user = some env.timestamp) ∧
      (¬ Credits user new → t.storage.lastDepositTime user = l.storage.lastDepositTime user) := by
  induction entries generalizing batch l with
  | nil =>
    obtain ⟨rfl,rfl⟩ := pure_eq_ok.mp h
    exact ⟨[],(List.append_nil _).symm,fun hc => absurd hc (by simp [Credits]),fun _ => rfl⟩
  | cons entry entries ih =>
    rw [processEntries,attempt_bind_eq_ok] at h
    rcases h with ⟨⟨shares,state⟩,m,hentry,h⟩ | ⟨e,m,hentry,h⟩
    · obtain ⟨next,hnext,h⟩ := trapping_bind_eq_ok.mp h
      obtain ⟨new,hnew,hyes,hno⟩ := ih h
      rw [(recordEntry_ok.mp hnext).2.2] at hnew
      obtain ⟨c,-,-,-,-,-,-,-,-,-,rfl⟩ := processSingleBatchEntry_ok.mp hentry
      refine ⟨⟨entry.user,shares,true,0⟩ :: new,by simpa using hnew,?_,?_⟩
      · intro hc
        by_cases hlater : Credits user new
        · exact hyes hlater
        · rw [hno hlater]
          obtain ⟨r,hr,huser,hsuccess⟩ := hc
          rcases List.mem_cons.mp hr with rfl | hr
          · rw [← huser]
            exact Function.update_self _ _ _
          · exact absurd ⟨r,hr,huser,hsuccess⟩ hlater
      · intro hc
        have hlater : ¬ Credits user new := by
          rintro ⟨r,hr,huser,hsuccess⟩
          exact hc ⟨r,List.mem_cons_of_mem _ hr,huser,hsuccess⟩
        have hne : user ≠ entry.user := fun he => hc ⟨_,List.mem_cons_self,he.symm,rfl⟩
        rw [hno hlater]
        exact Function.update_of_ne hne _ _
    · obtain ⟨next,hnext,h⟩ := trapping_bind_eq_ok.mp h
      obtain ⟨new,hnew,hyes,hno⟩ := ih h
      rw [(recordEntry_error.mp hnext).2] at hnew
      rw [(processSingleBatchEntry_err.mp hentry).2] at hno
      have hiff : Credits user (⟨entry.user,0,false,e.code⟩ :: new) ↔ Credits user new := by
        simp [Credits]
      exact ⟨⟨entry.user,0,false,e.code⟩ :: new,by simpa using hnew,
        fun hc => hyes (hiff.mp hc),fun hc => hno fun hn => hc (hiff.mpr hn)⟩

theorem batchDeposit_times {relayer : Address} {entries : List DepositEntry}
    {result : BatchDepositResult} (h : (batchDeposit env relayer entries).run l = .ok result t) :
    (Credits user result.results → t.storage.lastDepositTime user = some env.timestamp) ∧
      (¬ Credits user result.results →
        t.storage.lastDepositTime user = l.storage.lastDepositTime user) := by
  obtain ⟨token,batch,m,-,-,-,-,-,hloop,rfl,rfl⟩ := batchDeposit_ok h
  obtain ⟨new,hnew,hyes,hno⟩ := processEntries_times user hloop
  rw [hnew]
  exact ⟨hyes,hno⟩

theorem Deposits.clock {inv : Invocation host.vault} (h : Deposits user l (.invoke inv)) :
    (step host (.invoke inv) l).storage.lastDepositTime user = some inv.timestamp := by
  obtain ⟨_,v,t,ha,hv,hcall⟩ := h
  obtain rfl := Action.invoke.inj ha
  rw [step_of_ok hv]
  rcases hcall with ⟨amount,hcall⟩ | ⟨relayer,entries,result,hcall,rfl,hcredits⟩
  · rw [hcall] at hv
    obtain ⟨_,hdeposit,-⟩ := map_eq_ok.mp hv
    obtain ⟨token,c,-,-,-,-,-,-,-,-,-,-,rfl⟩ := deposit_ok.mp hdeposit
    exact Function.update_self _ _ _
  · rw [hcall] at hv
    obtain ⟨result',hbatch,hresult⟩ := map_eq_ok.mp hv
    obtain rfl := Value.batch.inj hresult
    exact (batchDeposit_times hbatch).1 hcredits

theorem lastDepositTime_kept {a : Action host} (h : ¬ Deposits user l a) :
    (step host a l).storage.lastDepositTime user = l.storage.lastDepositTime user := by
  rcases step_part .depositTimes a l with hpart | ⟨inv,v,rfl,hw,hv⟩
  · exact read_of_part (f := fun s => s.lastDepositTime user) (fun _ => rfl) hpart
  · have hrun := hv
    generalize hcall : inv.call = call at hw hv
    cases call with
    | deposit user' amount =>
      obtain ⟨_,hdeposit,-⟩ := map_eq_ok.mp hv
      obtain ⟨token,c,-,-,-,-,-,-,-,-,-,-,ht⟩ := deposit_ok.mp hdeposit
      have hne : user ≠ user' := by
        intro he
        exact h ⟨inv,v,_,rfl,hrun,Or.inl ⟨amount,he ▸ hcall⟩⟩
      rw [ht]
      exact Function.update_of_ne hne _ _
    | batchDeposit relayer entries =>
      obtain ⟨result,hbatch,hresult⟩ := map_eq_ok.mp hv
      have hno : ¬ Credits user result.results := by
        intro hc
        exact h ⟨inv,v,_,rfl,hrun,Or.inr ⟨relayer,entries,result,hcall,hresult.symm,hc⟩⟩
      exact (batchDeposit_times hbatch).2 hno
    | setting setting => cases setting <;> simp [Call.writes] at hw
    | _ => simp [Call.writes] at hw

end Deposits

section Redemptions

/-- The action burns shares of the user and pays the user. -/
def Redeems (user : Address) (l : Ledger σ) (a : Action host) : Prop :=
  ∃ inv v t effects, a = .invoke inv ∧ (dispatch inv.env inv.call).run l = .ok v t ∧
    t.log = effects ++ l.log ∧ (∃ payment ∈ payments host.vault effects, payment.2.1 = user) ∧
    balance t.storage user < balance l.storage user

variable {user : Address}

theorem processEntries_pays_nothing {token : Address} {minimum cap : ℤ}
    {entries : List DepositEntry} {batch batch' : BatchState}
    (hv : env.auth env.host.vault = false)
    (h : (processEntries env token minimum cap entries batch).run l = .ok batch' t) :
    ∃ effects, t.log = effects ++ l.log ∧ payments env.host.vault effects = [] := by
  let P : VaultState → Ledger σ → Prop := fun _ m =>
    ∃ effects, m.log = effects ++ l.log ∧ payments env.host.vault effects = []
  have hP : P batch'.state t := by
    refine processEntries_invariant ?_ h ⟨[],rfl,rfl⟩
    rintro state state' user amount shares m m' ⟨effects,hlog,hnone⟩ hentry
    obtain ⟨c,-,-,-,-,-,hauth,-,-,-,rfl⟩ := processSingleBatchEntry_ok.mp hentry
    have hne : user ≠ env.host.vault := signer_ne_vault hv hauth
    refine ⟨.event (.deposit amount shares) ::
      .transfer token user env.host.vault amount :: effects,?_,?_⟩
    · change _ :: _ :: m.log = _
      rw [hlog]
      rfl
    · simp [payments,hne,hnone]
  exact hP

/-- A call that burns shares of a user and pays the user is a withdrawal that has looked at
the clock, or the execution of a deferred one. -/
theorem Redeems.call {inv : Invocation host.vault} (h : Redeems user l (.invoke inv)) :
    (0 < withdrawalCooldown l.storage →
        lastDepositTime l.storage user+withdrawalCooldown l.storage ≤ inv.timestamp) ∨
      inv.call = .executeWithdrawal user ∧ ∃ pending ∈ l.storage.pendingWithdrawal user,
        inv.auth user = true ∧ pending.unlockTimestamp ≤ inv.timestamp := by
  obtain ⟨_,v,t,effects,ha,hv,hlog,⟨payment,hpayment,huser⟩,hburn⟩ := h
  obtain rfl := Action.invoke.inj ha
  have hsame : ∀ effects', t.log = effects' ++ l.log → effects = effects' := fun effects' h' =>
    List.append_cancel_right (hlog.symm.trans h')
  by_cases hw : Part.balances ∈ inv.call.writes
  · generalize hcall : inv.call = call at hw hv
    cases call with
    | deposit user' amount =>
      obtain ⟨_,hdeposit,-⟩ := map_eq_ok.mp hv
      obtain ⟨token,c,-,hauth,-,-,-,-,-,-,-,-,rfl⟩ := deposit_ok.mp hdeposit
      have hne : user' ≠ host.vault := signer_ne_vault inv.unsigned hauth
      have heffects := hsame [.event _,.transfer token user' host.vault amount] rfl
      simp [heffects,payments,hne] at hpayment
    | batchDeposit relayer entries =>
      obtain ⟨_,hbatch,-⟩ := map_eq_ok.mp hv
      obtain ⟨token,batch,m,-,-,-,-,-,hloop,-,rfl⟩ := batchDeposit_ok hbatch
      obtain ⟨effects',hlog',hnone⟩ := processEntries_pays_nothing inv.unsigned hloop
      have hvault : payments host.vault effects' = [] := hnone
      have heffects := hsame (.event _ :: effects') (congrArg (List.cons _) hlog')
      simp [heffects,payments,hvault] at hpayment
    | withdraw user' shares =>
      obtain ⟨_,hwithdraw,-⟩ := map_eq_ok.mp hv
      obtain ⟨hs,paid,-,-,hcool,-,-,⟨-,hdo⟩ | ⟨-,-,-,rfl⟩⟩ := withdraw_ok.mp hwithdraw
      · obtain ⟨token,effects',-,hlog',hpays,-⟩ := doWithdraw_pays hdo
        have hvault : payments host.vault effects' = [(token,user',paid)] := hpays
        rw [hsame effects' hlog',hvault,List.mem_singleton] at hpayment
        rw [hpayment] at huser
        change user' = user at huser
        subst huser
        exact Or.inl fun hpos => (hcool hpos).2
      · exact absurd hburn (lt_irrefl _)
    | executeWithdrawal user' =>
      obtain ⟨_,hexec,-⟩ := map_eq_ok.mp hv
      obtain ⟨pending,paid,hauth,hpending,hunlock,-,hdo⟩ := executeWithdrawal_ok.mp hexec
      obtain ⟨token,effects',-,hlog',hpays,-⟩ := doWithdraw_pays hdo
      have hvault : payments host.vault effects' = [(token,user',paid)] := hpays
      rw [hsame effects' hlog',hvault,List.mem_singleton] at hpayment
      rw [hpayment] at huser
      change user' = user at huser
      subst huser
      exact Or.inr ⟨rfl,pending,hpending,hauth,hunlock⟩
    | setting setting => cases setting <;> simp [Call.writes] at hw
    | _ => simp [Call.writes] at hw
  · have hbal : balance t.storage = balance l.storage :=
      read_of_part (fun _ => rfl) (dispatch_part hw hv)
    rw [hbal] at hburn
    exact absurd hburn (lt_irrefl _)

end Redemptions

def Chronological (acts : List (Action host)) : Prop :=
  (acts.filterMap fun
    | .invoke inv => some inv.timestamp
    | .outside _ => none).Pairwise (· ≤ ·)

/-- A deferred withdrawal that may be executed now is executed after the user's cooldown. -/
def CooledExecution (l : Ledger σ) : Action host → Prop
  | .invoke inv => match inv.call with
    | .executeWithdrawal user => ∀ pending ∈ l.storage.pendingWithdrawal user,
      inv.auth user = true → pending.unlockTimestamp ≤ inv.timestamp →
        lastDepositTime l.storage user+withdrawalCooldown l.storage ≤ inv.timestamp
    | _ => True
  | .outside _ => True

/-- While no deferred withdrawal is executed inside its user's cooldown, nobody is paid for
shares until the cooldown in force has passed since the last deposit, single or batched. -/
theorem withdrawals_cooled {acts : List (Action host)} (ht : Chronological acts)
    (hg : Runs.Along (step host) CooledExecution (genesis chain) acts)
    {before rest : List (Action host)} {inv : Invocation host.vault} {user : Address}
    (hacts : acts = before ++ .invoke inv :: rest)
    (hpaid : Redeems user (runFrom host chain before) (.invoke inv))
    {first mid : List (Action host)} {last : Invocation host.vault}
    (hbefore : before = first ++ .invoke last :: mid)
    (hlast : Deposits user (runFrom host chain first) (.invoke last))
    (hmid : Runs.Along (step host) (fun l a => ¬ Deposits user l a)
      (runFrom host chain (first ++ [.invoke last])) mid) :
    last.timestamp+withdrawalCooldown (runFrom host chain before).storage ≤ inv.timestamp := by
  have hclock : lastDepositTime (runFrom host chain before).storage user = last.timestamp := by
    have hkeep : ∀ (l : Ledger σ) (a : Action host), ¬ Deposits user l a →
        (step host a l).storage.lastDepositTime user = l.storage.lastDepositTime user :=
      fun l a hno => lastDepositTime_kept hno
    have hkept := hmid.kept (fun l => l.storage.lastDepositTime user) hkeep
    have hstart : (runFrom host chain (first ++ [.invoke last])).storage.lastDepositTime user =
        some last.timestamp := by
      rw [runFrom,Runs.run_concat]
      exact hlast.clock
    have hend : (runFrom host chain before).storage.lastDepositTime user = some last.timestamp := by
      rw [← hstart,← hkept,hbefore,runFrom,runFrom,← Runs.run_append]
      simp
    rw [lastDepositTime,hend]
    rfl
  rcases hpaid.call with hcool | ⟨hcall,pending,hpending,hauth,hunlock⟩
  · rcases Nat.eq_zero_or_pos (withdrawalCooldown (runFrom host chain before).storage)
      with hzero | hpos
    · rw [hzero,Nat.add_zero]
      rw [hacts,hbefore] at ht
      simp only [Chronological,List.append_assoc,List.cons_append,List.filterMap_append,
        List.filterMap_cons,List.pairwise_append,List.pairwise_cons] at ht
      exact ht.2.1.1 _ (List.mem_append_right _ List.mem_cons_self)
    · rw [← hclock]
      exact hcool hpos
  · rw [hacts] at hg
    have hguard := (Runs.along_append.mp hg).2.1
    simp only [CooledExecution,hcall] at hguard
    rw [← hclock]
    exact hguard pending hpending hauth hunlock

section Runs

open SimpleHost

/-- Alice's large withdrawal is executed long after her last deposit. -/
def cooledRun : List (Action (simpleHost id 0)) :=
  [signed admin 0 (.initializeVault admin token),
    signed admin 1 (.setting (.largeWithdrawalThreshold 500)),
    signed admin 1 (.setting (.withdrawalCooldown 100)),
    signed alice 2 (.deposit alice 1000),
    signed alice 200 (.withdraw alice 800)]

def cooledExecution : Invocation (simpleHost id 0).vault :=
  signedCall alice 86600 (.executeWithdrawal alice)

/-- Any successful execution redeems shares of its user. -/
theorem redeems_of_isOk {l : Ledger Bank}
    (hok : ((dispatch cooledExecution.env cooledExecution.call).run l).isOk = true) :
    Redeems alice l (.invoke cooledExecution) := by
  obtain ⟨v,t,hv⟩ := Outcome.isOk_iff.mp hok
  obtain ⟨pending,paid,token,effects,-,-,-,hlog,hpays,hbal,-⟩ := executed rfl hv
  refine ⟨cooledExecution,v,t,effects,rfl,hv,hlog,⟨(token,alice,paid),by simp [hpays],rfl⟩,?_⟩
  have hpos := pending.shares_pos
  omega

def aliceDeposit (time : ℕ) (amount : ℤ) : Invocation (simpleHost id 0).vault :=
  signedCall alice time (.deposit alice amount)

theorem deposits_of_isOk {l : Ledger Bank} {time : ℕ} {amount : ℤ}
    (hok : ((dispatch (aliceDeposit time amount).env (aliceDeposit time amount).call).run l).isOk =
      true) : Deposits alice l (.invoke (aliceDeposit time amount)) := by
  obtain ⟨v,t,hv⟩ := Outcome.isOk_iff.mp hok
  exact ⟨_,v,t,rfl,hv,Or.inl ⟨amount,rfl⟩⟩

theorem cooledRun_cooled :
    2+withdrawalCooldown (runFrom (simpleHost id 0) bank cooledRun).storage ≤ 86600 := by
  have ht : Chronological (cooledRun ++ [.invoke cooledExecution]) := by
    simp [Chronological,cooledRun,cooledExecution,signed,signedCall]
  have hg : Runs.Along (step (simpleHost id 0)) CooledExecution (genesis bank)
      (cooledRun ++ [.invoke cooledExecution]) := by
    refine ⟨trivial,trivial,trivial,trivial,trivial,?_,trivial⟩
    rintro pending - - -
    decide
  have hmid : Runs.Along (step (simpleHost id 0)) (fun l a => ¬ Deposits alice l a)
      (runFrom (simpleHost id 0) bank (cooledRun.take 3 ++ [.invoke (aliceDeposit 2 1000)]))
      [signed alice 200 (.withdraw alice 800)] := by
    refine ⟨?_,trivial⟩
    rintro ⟨inv,v,t,ha,-,⟨amount,hcall⟩ | ⟨relayer,entries,result,hcall,-⟩⟩
    · obtain rfl := Action.invoke.inj ha
      cases hcall
    · obtain rfl := Action.invoke.inj ha
      cases hcall
  have hbefore : cooledRun = cooledRun.take 3 ++ .invoke (aliceDeposit 2 1000) ::
      [signed alice 200 (.withdraw alice 800)] := rfl
  exact withdrawals_cooled ht hg rfl (redeems_of_isOk (by decide +kernel)) hbefore
    (deposits_of_isOk (by decide +kernel)) hmid

/-- Between the request and its execution alice deposits again. -/
def hurriedRun : List (Action (simpleHost id 0)) :=
  cooledRun ++ [.invoke (aliceDeposit 86590 10)]

/-- Ten seconds after a deposit alice is paid, while the cooldown is a hundred seconds. -/
theorem hurriedRun_not_cooled :
    ¬ ∀ (before first : List (Action (simpleHost id 0))) (inv last : Invocation (simpleHost id 0).vault)
      (user : Address), Chronological (before ++ [.invoke inv]) →
      Redeems user (runFrom (simpleHost id 0) bank before) (.invoke inv) →
      before = first ++ [.invoke last] →
      Deposits user (runFrom (simpleHost id 0) bank first) (.invoke last) →
      last.timestamp+withdrawalCooldown (runFrom (simpleHost id 0) bank before).storage ≤
        inv.timestamp := by
  intro h
  have ht : Chronological (hurriedRun ++ [.invoke cooledExecution]) := by
    simp [Chronological,hurriedRun,cooledRun,cooledExecution,aliceDeposit,signed,signedCall]
  have h1 := h hurriedRun cooledRun cooledExecution (aliceDeposit 86590 10) alice ht
    (redeems_of_isOk (by decide +kernel)) rfl (deposits_of_isOk (by decide +kernel))
  have h2 : withdrawalCooldown (runFrom (simpleHost id 0) bank hurriedRun).storage = 100 := by
    decide
  rw [h2] at h1
  exact absurd h1 (by decide)

end Runs

end YieldVault
