import YieldVault.StorageParts
import YieldVault.SimpleHost

/-! Large withdrawals. A withdrawal above the threshold is recorded and waits a day; the
record is traced back to the call that made it, and forward to the one call that pays it. -/
namespace YieldVault

open FixedWidth Contract

variable {σ : Type} {host : Host σ} {env : Env σ} {chain : σ} {l t : Ledger σ}

section Payments

/-- What leaves the vault: token, receiver and amount of each transfer it makes. -/
def payments (vault : Address) : List Effect → List (Address × Address × ℤ)
  | [] => []
  | .transfer token sender receiver amount :: rest =>
    if sender = vault then (token,receiver,amount) :: payments vault rest
    else payments vault rest
  | _ :: rest => payments vault rest

theorem payments_append (vault : Address) (later earlier : List Effect) :
    payments vault (later ++ earlier) = payments vault later ++ payments vault earlier := by
  induction later with
  | nil => rfl
  | cons e rest ih =>
    cases e with
    | transfer token sender receiver amount =>
      simp only [List.cons_append,payments,ih]
      split_ifs <;> rfl
    | _ => exact ih

/-- A withdrawal pays once, and burns the shares of the one who is paid. -/
theorem doWithdraw_pays {state : VaultState} {user : Address} {shares paid r : ℤ}
    (h : (doWithdraw env state user shares paid).run l = .ok r t) :
    ∃ token effects, l.storage.tokenAsset = some token ∧ t.log = effects ++ l.log ∧
      payments env.host.vault effects = [(token,user,paid)] ∧
      balance t.storage user = balance l.storage user-shares := by
  obtain ⟨token,m,c,htoken,hcover,-,-,-,rfl⟩ := doWithdraw_ok.mp h
  have hm : ∃ recalls, m.log = recalls ++ l.log ∧ payments env.host.vault recalls = [] ∧
      balance m.storage = balance l.storage := by
    rw [coverShortfall_ok] at hcover
    split_ifs at hcover
    · obtain ⟨strategy,-,c',-,-,-,rfl⟩ := divest_ok.mp hcover.2
      exact ⟨[_],rfl,rfl,by simp [loweredWatermark]⟩
    · exact ⟨[],by rw [hcover,List.nil_append],rfl,by rw [hcover]⟩
  obtain ⟨recalls,hlog,hpaid,hbal⟩ := hm
  refine ⟨token,.event (.withdraw user paid shares) ::
    .transfer token env.host.vault user paid :: recalls,htoken,?_,?_,?_⟩
  · rw [hlog]
    rfl
  · simp [payments,hpaid]
  · simp [debitedWithdrawal,hbal]

end Payments

section Requests

/-- The action is a withdrawal that is too large to be paid at once. -/
def Defers (user : Address) (shares : ℤ) (l : Ledger σ) (a : Action host) : Prop :=
  ∃ inv v t paid, a = .invoke inv ∧ inv.call = .withdraw user shares ∧
    (dispatch inv.env inv.call).run l = .ok v t ∧
    sharesToAssets shares (getState l.storage).totalShares (getState l.storage).totalAssets =
      .ok paid ∧ largeWithdrawalThreshold l.storage < paid

def Executes (user : Address) (l : Ledger σ) (a : Action host) : Prop :=
  ∃ inv v t, a = .invoke inv ∧ inv.call = .executeWithdrawal user ∧
    (dispatch inv.env inv.call).run l = .ok v t

variable {user : Address} {shares : ℤ}

theorem Defers.recorded {inv : Invocation host.vault} (h : Defers user shares l (.invoke inv)) :
    ∃ pending : PendingWithdrawal,
      (step host (.invoke inv) l).storage.pendingWithdrawal user = some pending ∧
      pending.shares = shares ∧ pending.unlockTimestamp = inv.timestamp+86400 := by
  obtain ⟨_,v,t,paid,ha,hcall,hv,hpaid,hlarge⟩ := h
  obtain rfl := Action.invoke.inj ha
  rw [step_of_ok hv]
  rw [hcall] at hv
  obtain ⟨_,hw,-⟩ := map_eq_ok.mp hv
  obtain ⟨hs,paid',-,-,-,-,hpaid',hw⟩ := withdraw_ok.mp hw
  obtain rfl := Except.ok.inj (hpaid.symm.trans hpaid')
  rcases hw with ⟨hsmall,-⟩ | ⟨-,-,-,rfl⟩
  · exact absurd hsmall (not_le.mpr hlarge)
  · exact ⟨_,Function.update_self _ _ _,rfl,rfl⟩

theorem doWithdraw_requests {state : VaultState} {user : Address} {shares paid r : ℤ}
    (h : (doWithdraw env state user shares paid).run l = .ok r t) :
    t.storage.pendingWithdrawal = l.storage.pendingWithdrawal :=
  read_of_part (k := .requests) (fun _ => rfl) (doWithdraw_part (by decide) h)

/-- An execution pays for exactly the recorded shares, and removes the record. -/
theorem executed {inv : Invocation host.vault} {v : Value}
    (hcall : inv.call = .executeWithdrawal user)
    (hv : (dispatch inv.env inv.call).run l = .ok v t) :
    ∃ (pending : PendingWithdrawal) (paid : ℤ) (token : Address) (effects : List Effect),
      l.storage.pendingWithdrawal user = some pending ∧
      pending.unlockTimestamp ≤ inv.timestamp ∧
      sharesToAssets pending.shares (getState l.storage).totalShares
        (getState l.storage).totalAssets = .ok paid ∧
      t.log = effects ++ l.log ∧ payments host.vault effects = [(token,user,paid)] ∧
      balance t.storage user = balance l.storage user-pending.shares ∧
      t.storage.pendingWithdrawal user = none := by
  rw [hcall] at hv
  obtain ⟨_,hexec,-⟩ := map_eq_ok.mp hv
  obtain ⟨pending,paid,-,hpending,hunlock,hpaid,hdo⟩ := executeWithdrawal_ok.mp hexec
  obtain ⟨token,effects,-,hlog,hpays,hbal⟩ := doWithdraw_pays hdo
  refine ⟨pending,paid,token,effects,hpending,hunlock,hpaid,hlog,hpays,?_,?_⟩
  · rw [hbal]
    simp
  · rw [doWithdraw_requests hdo]
    exact Function.update_self _ _ _

theorem Executes.cleared {a : Action host} (h : Executes user l a) :
    (step host a l).storage.pendingWithdrawal user = none := by
  obtain ⟨inv,v,t,rfl,hcall,hv⟩ := h
  obtain ⟨_,_,_,_,-,-,-,-,-,-,hnone⟩ := executed hcall hv
  rwa [step_of_ok hv]

theorem pendingWithdrawal_kept {a : Action host}
    (h : ¬ ((∃ shares, Defers user shares l a) ∨ Executes user l a)) :
    (step host a l).storage.pendingWithdrawal user = l.storage.pendingWithdrawal user := by
  obtain ⟨hdefers,hexecutes⟩ := not_or.mp h
  rcases step_part .requests a l with hpart | ⟨inv,v,rfl,hw,hv⟩
  · exact read_of_part (f := fun s => s.pendingWithdrawal user) (fun _ => rfl) hpart
  · have hrun := hv
    generalize hcall : inv.call = call at hw hv
    cases call with
    | withdraw user' shares =>
      obtain ⟨_,hwithdraw,-⟩ := map_eq_ok.mp hv
      obtain ⟨hs,paid,-,-,-,-,hpaid,⟨-,hdo⟩ | ⟨hlarge,-,-,ht⟩⟩ := withdraw_ok.mp hwithdraw
      · exact congrFun (doWithdraw_requests hdo) user
      · have hne : user ≠ user' := by
          intro he
          exact hdefers ⟨shares,inv,v,_,paid,rfl,he ▸ hcall,hrun,hpaid,hlarge⟩
        rw [ht]
        exact Function.update_of_ne hne _ _
    | executeWithdrawal user' =>
      obtain ⟨_,hexec,-⟩ := map_eq_ok.mp hv
      obtain ⟨pending,paid,-,-,-,-,hdo⟩ := executeWithdrawal_ok.mp hexec
      have hne : user ≠ user' := by
        intro he
        exact hexecutes ⟨inv,v,_,rfl,he ▸ hcall,hrun⟩
      rw [doWithdraw_requests hdo]
      exact Function.update_of_ne hne _ _
    | setting setting => cases setting <;> simp [Call.writes] at hw
    | _ => simp [Call.writes] at hw

/-- A stored request was made by a deferral after which the user has neither made another
one nor been paid. -/
theorem pendingWithdrawal_origin (acts : List (Action host)) {pending : PendingWithdrawal}
    (h : (runFrom host chain acts).storage.pendingWithdrawal user = some pending) :
    ∃ before first rest, acts = before ++ .invoke first :: rest ∧
      Defers user pending.shares (runFrom host chain before) (.invoke first) ∧
      pending.unlockTimestamp = first.timestamp+86400 ∧
      Runs.Along (step host) (fun l a => ¬ ((∃ shares, Defers user shares l a) ∨ Executes user l a))
        (runFrom host chain (before ++ [.invoke first])) rest := by
  have hkeep : ∀ (l : Ledger σ) (a : Action host),
      ¬ ((∃ shares, Defers user shares l a) ∨ Executes user l a) →
      (step host a l).storage.pendingWithdrawal user = l.storage.pendingWithdrawal user :=
    fun l a hno => pendingWithdrawal_kept hno
  rcases Runs.last_writer (step host) (fun l => l.storage.pendingWithdrawal user) hkeep
    (genesis chain) acts with ⟨-,hstart⟩ | ⟨before,a,rest,rfl,hkind,hrest,hlast⟩
  · exact absurd (h.symm.trans hstart) (by simp [genesis])
  · rcases hkind with ⟨shares,hdefers⟩ | hexecutes
    · obtain ⟨inv,v,t,paid,rfl,-⟩ := id hdefers
      obtain ⟨pending',hrecorded,hshares,hunlock⟩ := hdefers.recorded
      have hsame : pending = pending' :=
        Option.some.inj (h.symm.trans (hlast.trans hrecorded))
      subst hsame
      refine ⟨before,inv,rest,rfl,hshares ▸ hdefers,hunlock,?_⟩
      rw [runFrom,Runs.run_concat]
      exact hrest
    · exact absurd (h.symm.trans (hlast.trans hexecutes.cleared)) (by simp)

theorem pendingWithdrawal_none {rest : List (Action host)}
    (h : l.storage.pendingWithdrawal user = none)
    (hno : Runs.Along (step host) (fun l a => ∀ shares, ¬ Defers user shares l a) l rest) :
    (Runs.run (step host) rest l).storage.pendingWithdrawal user = none := by
  let clear : Ledger σ → Prop := fun l => l.storage.pendingWithdrawal user = none
  have hstep : ∀ (l : Ledger σ) (a : Action host), clear l →
      (∀ shares, ¬ Defers user shares l a) → clear (step host a l) := by
    intro l a hl hn
    by_cases he : Executes user l a
    · exact he.cleared
    · have hkind : ¬ ((∃ shares, Defers user shares l a) ∨ Executes user l a) := by
        rintro (⟨shares,hd⟩ | hx)
        · exact hn shares hd
        · exact he hx
      exact (pendingWithdrawal_kept hkind).trans hl
  exact hno.invariant hstep h

end Requests

/-- Large withdrawals wait a day, in every run: what withdraw pays is at most the threshold in
force; an execution pays its user for exactly the shares of the last withdrawal of that user
that was deferred, at least a day before, and not paid since; and once paid, a request is
gone until the user makes another one. -/
theorem withdrawals_timelocked (host : Host σ) (chain : σ) (acts : List (Action host))
    (inv : Invocation host.vault) (v : Value) (t : Ledger σ) :
    let l := runFrom host chain acts
    (dispatch inv.env inv.call).run l = .ok v t →
    (∀ user shares, inv.call = .withdraw user shares →
      ∃ effects, t.log = effects ++ l.log ∧ ∀ payment ∈ payments host.vault effects,
        payment.2.1 = user ∧ payment.2.2 ≤ largeWithdrawalThreshold l.storage) ∧
    ∀ user, inv.call = .executeWithdrawal user →
      (∃ before first rest shares, acts = before ++ .invoke first :: rest ∧
        Defers user shares (runFrom host chain before) (.invoke first) ∧
        first.timestamp+86400 ≤ inv.timestamp ∧
        Runs.Along (step host)
          (fun l a => ¬ ((∃ shares, Defers user shares l a) ∨ Executes user l a))
          (runFrom host chain (before ++ [.invoke first])) rest ∧
        ∃ paid token effects,
          sharesToAssets shares (getState l.storage).totalShares
            (getState l.storage).totalAssets = .ok paid ∧
          t.log = effects ++ l.log ∧ payments host.vault effects = [(token,user,paid)] ∧
          balance t.storage user = balance l.storage user-shares) ∧
      ∀ rest, Runs.Along (step host) (fun l a => ∀ shares, ¬ Defers user shares l a) t rest →
        ∀ again : Invocation host.vault, again.call = .executeWithdrawal user → ∀ v t',
          ¬ (dispatch again.env again.call).run (Runs.run (step host) rest t) = .ok v t' := by
  intro l hv
  constructor
  · intro user shares hcall
    rw [hcall] at hv
    obtain ⟨_,hw,-⟩ := map_eq_ok.mp hv
    obtain ⟨hs,paid,-,-,-,-,hpaid,⟨hsmall,hdo⟩ | ⟨-,-,-,rfl⟩⟩ := withdraw_ok.mp hw
    · obtain ⟨token,effects,-,hlog,hpays,-⟩ := doWithdraw_pays hdo
      refine ⟨effects,hlog,fun payment hmem => ?_⟩
      have hvault : payments host.vault effects = [(token,user,paid)] := hpays
      rw [hvault,List.mem_singleton] at hmem
      rw [hmem]
      exact ⟨rfl,hsmall⟩
    · exact ⟨[_],rfl,by simp [payments]⟩
  · intro user hcall
    obtain ⟨pending,paid,token,effects,hpending,hunlock,hpaid,hlog,hpays,hbal,hnone⟩ :=
      executed hcall hv
    constructor
    · obtain ⟨before,first,rest,hacts,hdefers,htime,hrest⟩ := pendingWithdrawal_origin acts hpending
      exact ⟨before,first,rest,pending.shares,hacts,hdefers,htime ▸ hunlock,hrest,paid,token,
        effects,hpaid,hlog,hpays,hbal⟩
    · intro rest hno again hagain v' t' hv'
      obtain ⟨pending',_,_,_,hpending',-⟩ := executed hagain hv'
      exact absurd (hpending'.symm.trans (pendingWithdrawal_none hnone hno)) (by simp)

section Runs

open SimpleHost

def requestedRun : List (Action (simpleHost id 0)) :=
  [signed admin 0 (.initializeVault admin token),
    signed admin 1 (.setting (.largeWithdrawalThreshold 500)),
    signed alice 2 (.deposit alice 1000),
    signed alice 3 (.withdraw alice 800),
    signed admin 4 (.setting (.largeWithdrawalThreshold 900))]

def aliceExecution : Invocation (simpleHost id 0).vault :=
  signedCall alice 86403 (.executeWithdrawal alice)

theorem requestedRun_timelocked :
    ∃ before first rest shares, requestedRun = before ++ .invoke first :: rest ∧
      Defers alice shares (runFrom (simpleHost id 0) bank before) (.invoke first) ∧
      first.timestamp+86400 ≤ 86403 := by
  have hok : ((dispatch aliceExecution.env aliceExecution.call).run
      (runFrom (simpleHost id 0) bank requestedRun)).isOk = true := by decide +kernel
  obtain ⟨v,t,hv⟩ := Outcome.isOk_iff.mp hok
  obtain ⟨⟨before,first,rest,shares,hacts,hdefers,htime,-⟩,-⟩ :=
    (withdrawals_timelocked (simpleHost id 0) bank requestedRun aliceExecution v t hv).2 alice rfl
  exact ⟨before,first,rest,shares,hacts,hdefers,htime⟩

end Runs

end YieldVault
