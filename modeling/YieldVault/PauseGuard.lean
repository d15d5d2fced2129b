import YieldVault.Founding
import YieldVault.SimpleHost

/-! The emergency stop. A paused vault refuses deposits, batches and withdrawals;
the one call that it does not refuse is the execution of a deferred withdrawal
whose timelock has run out. -/
namespace YieldVault

open FixedWidth Contract

variable {σ : Type} {host : Host σ} {chain : σ} {l t : Ledger σ}

/-- The calls through which users pay in and are paid. -/
def IsUserCall : Call → Prop
  | .deposit _ _ | .batchDeposit _ _ | .withdraw _ _ | .executeWithdrawal _ => True
  | _ => False

/-- The call ends the pause, of the admin's own or by the emergency approvers. -/
def EndsPause (l : Ledger σ) : Call → Prop
  | .unpause => True
  | .confirmEmergencyAction _ id => ∃ p ∈ l.storage.emergencyProposal id, p.kind = .unpause
  | _ => False

/-- The action does not end the pause, as far as it goes through. -/
def KeepsPause (l : Ledger σ) : Action host → Prop
  | .invoke inv => ∀ v t, (dispatch inv.env inv.call).run l = .ok v t → ¬ EndsPause l inv.call
  | .outside _ => True

/-- The action does not execute a deferred withdrawal whose timelock has run out. -/
def NoMaturedExecution (l : Ledger σ) : Action host → Prop
  | .invoke inv => match inv.call with
    | .executeWithdrawal user => ∀ pending ∈ l.storage.pendingWithdrawal user,
      inv.auth user = true → inv.timestamp < pending.unlockTimestamp
    | _ => True
  | .outside _ => True

/-- A user's call returns no value and leaves the whole ledger as it was. -/
def RefusesUsers (l : Ledger σ) : Action host → Prop
  | .invoke inv => IsUserCall inv.call →
    invoke inv l = l ∧ ∀ v t, (dispatch inv.env inv.call).run l ≠ .ok v t
  | .outside _ => True

/-- The entries that leave a paused vault paused and nobody's shares or payouts changed. -/
def Books.Calm : Entry → Prop
  | .mint _ _ _ _ => False
  | .burn _ _ _ => False
  | .setPaused paused => paused = true
  | _ => True

/-- The books agree on the shares, the payouts and the pause. -/
def Books.SameShares (b b' : Books) : Prop :=
  b'.balance = b.balance ∧ b'.supply = b.supply ∧ b'.payouts = b.payouts ∧ b'.paused = b.paused

theorem Books.Calm.post {b : Books} {e : Entry} (he : Books.Calm e) (hb : b.paused = true) :
    Books.SameShares b (Books.post e b) := by
  cases e with
  | mint user amount shares stored => exact absurd he id
  | burn user shares paid => exact absurd he id
  | setPaused paused =>
    have h1 : paused = true := he
    exact ⟨rfl,rfl,rfl,h1.trans hb.symm⟩
  | _ => exact ⟨rfl,rfl,rfl,rfl⟩

theorem calm_postAll {b : Books} {es : List Entry} (he : ∀ e ∈ es, Books.Calm e)
    (hb : b.paused = true) : Books.SameShares b (Books.postAll es b) := by
  induction es generalizing b with
  | nil => exact ⟨rfl,rfl,rfl,rfl⟩
  | cons e es ih =>
    have h1 := (he e List.mem_cons_self).post hb
    have h2 := ih (fun e' he' => he e' (List.mem_cons_of_mem _ he')) (h1.2.2.2.trans hb)
    exact ⟨h2.1.trans h1.1,h2.2.1.trans h1.2.1,h2.2.2.1.trans h1.2.2.1,
      h2.2.2.2.trans h1.2.2.2⟩

theorem calm_singleton {e : Entry} (he : Books.Calm e) : ∀ e' ∈ [e], Books.Calm e' := by
  intro e' he'
  rw [List.mem_singleton.mp he']
  exact he

section Step

variable {inv : Invocation host.vault} {v : Value}

/-- Each of the users' four calls is refused: three by the pause, the fourth by its timelock. -/
theorem paused_refuses {a : Action host} (hp : isPaused l.storage = true)
    (hg : NoMaturedExecution l a) : RefusesUsers l a := by
  cases a with
  | outside c => trivial
  | invoke inv =>
    intro hc
    have hno : ∀ v t, (dispatch inv.env inv.call).run l ≠ .ok v t := by
      intro v t h
      obtain ⟨timestamp,sequence,auth,unsigned,call⟩ := inv
      cases call with
      | deposit user amount =>
        obtain ⟨_,h,-⟩ := map_eq_ok.mp h
        have h1 := (deposit_booked h).1
        rw [isPaused,h1] at hp
        exact absurd hp (by decide)
      | batchDeposit relayer entries =>
        obtain ⟨_,h,-⟩ := map_eq_ok.mp h
        have h1 := (batchDeposit_booked h).1
        rw [isPaused,h1] at hp
        exact absurd hp (by decide)
      | withdraw user shares =>
        obtain ⟨_,h,-⟩ := map_eq_ok.mp h
        have h1 := (withdraw_booked h).1
        rw [isPaused,h1] at hp
        exact absurd hp (by decide)
      | executeWithdrawal user =>
        obtain ⟨_,h,-⟩ := map_eq_ok.mp h
        obtain ⟨pending,_,hauth,hpending,hunlock,-,-⟩ := executeWithdrawal_ok.mp h
        have h1 : timestamp < pending.unlockTimestamp := hg pending hpending hauth
        exact absurd hunlock (not_le.mpr h1)
      | _ => exact absurd hc id
    refine ⟨?_,hno⟩
    rcases invoke_cases inv l with ⟨v,h⟩ | h
    · exact absurd h (hno v _)
    · exact h

theorem page_calm {es : List Entry} (hk : ¬ EndsPause l inv.call)
    (hc : ¬ IsUserCall inv.call) (hpage : Page l.storage inv.call es) :
    ∀ e ∈ es, Books.Calm e := by
  obtain ⟨timestamp,sequence,auth,unsigned,call⟩ := inv
  cases call with
  | deposit user amount => exact absurd trivial hc
  | batchDeposit relayer entries => exact absurd trivial hc
  | withdraw user shares => exact absurd trivial hc
  | executeWithdrawal user => exact absurd trivial hc
  | unpause => exact absurd trivial hk
  | confirmEmergencyAction confirmer id =>
    obtain ⟨proposal,hstored,rfl⟩ := hpage
    have hne : proposal.kind ≠ .unpause := fun h => hk ⟨proposal,hstored,h⟩
    unfold emergencyPage
    cases hkind : proposal.kind with
    | pause => exact calm_singleton rfl
    | unpause => exact absurd hkind hne
    | emergencyDivest => exact calm_singleton trivial
    | forceUpgrade => simp
  | pause reason => exact hpage ▸ calm_singleton rfl
  | invest amount => exact hpage ▸ calm_singleton trivial
  | divest amount => exact hpage ▸ calm_singleton trivial
  | claimFees => exact hpage ▸ calm_singleton trivial
  | rebalance fromStrategy toStrategy amount minDivest minInvest =>
    obtain ⟨_,rfl⟩ := hpage
    exact calm_singleton trivial
  | accrueYield amount =>
    obtain ⟨_,rfl⟩ := hpage
    exact calm_singleton trivial
  | reportBenjiYield strategy amount =>
    obtain ⟨_,rfl⟩ := hpage
    exact calm_singleton trivial
  | accrueKoreanDebtYield =>
    obtain ⟨_,rfl⟩ := hpage
    exact calm_singleton trivial
  | _ =>
    have h0 : es = [] := hpage
    simp [h0]

/-- One step of a paused vault changes nobody's shares, pays nobody and keeps the pause. -/
theorem paused_step {a : Action host} (hl : Live l.storage) (hp : (books l).paused = true)
    (hk : KeepsPause l a) (hg : NoMaturedExecution l a) :
    Live (step host a l).storage ∧ Books.SameShares (books l) (books (step host a l)) := by
  rcases step_cases hl a with ⟨inv,v,es,rfl,hv,hpage,hbook⟩ | ⟨hb,hs⟩
  · have hc : ¬ IsUserCall inv.call := fun hc => (paused_refuses hp hg hc).2 v _ hv
    refine ⟨hl.kept hbook.kept,?_⟩
    rw [hbook.posted]
    exact calm_postAll (page_calm (hk v _ hv) hc hpage) hp
  · refine ⟨by rw [hs]; exact hl,?_⟩
    rw [hb]
    exact ⟨rfl,rfl,rfl,rfl⟩

end Step

/-- In a run that reaches a paused vault and then neither ends the pause nor executes
a matured withdrawal, no share is minted or burned, nobody is paid, and each call of
a user is refused without a trace. -/
theorem paused_run_unchanged {first rest : List (Action host)}
    (hp : isPaused (runFrom host chain first).storage = true)
    (ha : Runs.Along (step host) (fun l a => KeepsPause l a ∧ NoMaturedExecution l a)
      (runFrom host chain first) rest) :
    balance (runFrom host chain (first ++ rest)).storage =
        balance (runFrom host chain first).storage ∧
      (getState (runFrom host chain (first ++ rest)).storage).totalShares =
        (getState (runFrom host chain first).storage).totalShares ∧
      payouts (runFrom host chain (first ++ rest)).log =
        payouts (runFrom host chain first).log ∧
      isPaused (runFrom host chain (first ++ rest)).storage = true ∧
      Runs.Along (step host) RefusesUsers (runFrom host chain first) rest := by
  have hl : Live (runFrom host chain first).storage := by
    have hfounded : Founded (runFrom host chain first) := run_founded first
    rcases hfounded with hu | hl
    · have h1 : (books (runFrom host chain first)).paused = false := by rw [hu.books]; rfl
      exact absurd (hp.symm.trans h1) (by decide)
    · exact hl
  let inv : Ledger σ → Prop := fun l => Live l.storage ∧
    Books.SameShares (books (runFrom host chain first)) (books l)
  have hstep : ∀ l a, inv l → (KeepsPause l a ∧ NoMaturedExecution l a) →
      inv (step host a l) := by
    rintro l a ⟨hlive,hsame⟩ hg
    obtain ⟨hlive',hsame'⟩ := paused_step hlive (hsame.2.2.2.trans hp) hg.1 hg.2
    exact ⟨hlive',hsame'.1.trans hsame.1,hsame'.2.1.trans hsame.2.1,
      hsame'.2.2.1.trans hsame.2.2.1,hsame'.2.2.2.trans hsame.2.2.2⟩
  have h0 : inv (runFrom host chain first) := ⟨hl,rfl,rfl,rfl,rfl⟩
  have hend := ha.invariant hstep h0
  have hrun : Runs.run (step host) rest (runFrom host chain first) =
      runFrom host chain (first ++ rest) := (Runs.run_append _ _ _ _).symm
  rw [hrun] at hend
  refine ⟨hend.2.1,hend.2.2.1,hend.2.2.2.1,hend.2.2.2.2.trans hp,?_⟩
  exact ha.of_invariant hstep (fun l a hi hg => paused_refuses (hi.2.2.2.2.trans hp) hg.2) h0

section Runs

open SimpleHost

def pausedVault : List (Action (simpleHost id 0)) :=
  [signed admin 0 (.initializeVault admin token),
    signed admin 1 (.setting (.largeWithdrawalThreshold 500)),
    signed alice 2 (.deposit alice 1000),
    signed alice 3 (.withdraw alice 1000),
    signed admin 4 (.pause .securityIncident)]

def refusedCalls : List (Action (simpleHost id 0)) :=
  [signed bob 5 (.deposit bob 1000),signed bob 6 .unpause,signed alice 7 (.executeWithdrawal alice)]

theorem pausedVault_unchanged :
    balance (runFrom (simpleHost id 0) bank (pausedVault ++ refusedCalls)).storage =
        balance (runFrom (simpleHost id 0) bank pausedVault).storage ∧
      (getState (runFrom (simpleHost id 0) bank (pausedVault ++ refusedCalls)).storage).totalShares =
        (getState (runFrom (simpleHost id 0) bank pausedVault).storage).totalShares ∧
      payouts (runFrom (simpleHost id 0) bank (pausedVault ++ refusedCalls)).log =
        payouts (runFrom (simpleHost id 0) bank pausedVault).log ∧
      isPaused (runFrom (simpleHost id 0) bank (pausedVault ++ refusedCalls)).storage = true ∧
      Runs.Along (step (simpleHost id 0)) RefusesUsers
        (runFrom (simpleHost id 0) bank pausedVault) refusedCalls := by
  refine paused_run_unchanged (by decide)
    ⟨⟨fun _ _ _ => id,trivial⟩,⟨?_,trivial⟩,⟨fun _ _ _ => id,?_⟩,trivial⟩
  · intro v t h
    obtain ⟨_,h,-⟩ := map_eq_ok.mp h
    obtain ⟨admin',hadmin,hauth,-⟩ := unpause_ok.mp h
    obtain rfl := Option.some.inj hadmin
    exact absurd hauth (by decide)
  · rintro pending hpending -
    obtain rfl := Option.some.inj hpending
    decide

/-- A day after the request the same call goes through, pause or not. -/
theorem paused_execution_pays :
    ¬ ∀ (acts : List (Action (simpleHost id 0))) (user : Address) (timestamp : ℕ),
      isPaused (runFrom (simpleHost id 0) bank acts).storage = true →
        balance (step (simpleHost id 0) (signed user timestamp (.executeWithdrawal user))
          (runFrom (simpleHost id 0) bank acts)).storage =
            balance (runFrom (simpleHost id 0) bank acts).storage := by
  intro h
  have h1 := congrFun (h pausedVault alice 86403 (by decide)) alice
  have h2 : balance (runFrom (simpleHost id 0) bank pausedVault).storage alice = 1000 := by decide
  have h3 : balance (step (simpleHost id 0) (signed alice 86403 (.executeWithdrawal alice))
      (runFrom (simpleHost id 0) bank pausedVault)).storage alice = 0 := by decide
  omega

end Runs

end YieldVault
