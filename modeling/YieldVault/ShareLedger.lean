import YieldVault.Founding
import YieldVault.SimpleHost

/-! The ledger of shares. The balances always sum to the supply, in both places
where the supply is kept. They stay non-negative as long as no deferred
withdrawal burns more than its owner has left. -/
namespace YieldVault

open FixedWidth Contract

variable {σ : Type}

section Conservation

theorem balanced_empty : Books.empty.Balanced := ⟨hasSum_zero,rfl⟩

/-- In every reachable ledger the share balances sum to the supply in the state record,
which is also the supply stored beside it. -/
theorem shareBalance_hasSum (host : Host σ) (chain : σ) (acts : List (Action host)) :
    HasSum (balance (runFrom host chain acts).storage)
        (getState (runFrom host chain acts).storage).totalShares ∧
      storedTotalShares (runFrom host chain acts).storage =
        (getState (runFrom host chain acts).storage).totalShares := by
  have hb : (books (runFrom host chain acts)).Balanced :=
    reachable_books balanced_empty (fun _ _ hb he => hb.post he) ⟨chain,acts,rfl⟩
  exact ⟨hb.sum,hb.stored⟩

end Conservation

section Solvency

variable {host : Host σ} {chain : σ} {l : Ledger σ}

/-- A deferred withdrawal that may be executed now is for shares its owner still has. -/
def CoveredExecution (l : Ledger σ) : Action host → Prop
  | .invoke inv => match inv.call with
    | .executeWithdrawal user => ∀ pending ∈ l.storage.pendingWithdrawal user,
      inv.auth user = true → pending.unlockTimestamp ≤ inv.timestamp →
        pending.shares ≤ balance l.storage user
    | _ => True
  | .outside _ => True

theorem burnPage_covered {b : Books} {idle : ℤ} {user : Address} {shares paid : ℤ}
    (h : shares ≤ b.balance user) :
    Runs.Along Books.post Books.Covered b (burnPage idle user shares paid) := by
  unfold burnPage shortfall
  split_ifs
  · exact ⟨trivial,h,trivial⟩
  · exact ⟨h,trivial⟩

theorem covered_of_no_burn {b : Books} {es : List Entry} (h : ∀ e ∈ es, ¬ IsBurn e) :
    Runs.Along Books.post Books.Covered b es := by
  induction es generalizing b with
  | nil => trivial
  | cons e es ih =>
    refine ⟨?_,ih fun e' he' => h e' (List.mem_cons_of_mem _ he')⟩
    have he := h e List.mem_cons_self
    cases e with
    | burn user shares paid => exact absurd trivial he
    | _ => trivial

theorem page_covered {inv : Invocation host.vault} {v : Value} {t : Ledger σ} {es : List Entry}
    (hg : CoveredExecution l (.invoke inv : Action host))
    (h : (dispatch inv.env inv.call).run l = .ok v t) (hp : Page l.storage inv.call es) :
    Runs.Along Books.post Books.Covered (books l) es := by
  rcases page_burns hp with hno | ⟨user,shares,paid,rfl,hby⟩
  · exact covered_of_no_burn hno
  refine burnPage_covered ?_
  obtain ⟨timestamp,sequence,auth,unsigned,call⟩ := inv
  cases call with
  | withdraw user' shares' => exact hby.2.2
  | executeWithdrawal user' =>
    obtain ⟨rfl,pending,hpending,rfl⟩ := hby
    obtain ⟨_,h,-⟩ := map_eq_ok.mp h
    obtain ⟨pending',_,hauth,hpending',hunlock,-,-⟩ := executeWithdrawal_ok.mp h
    obtain rfl : pending' = pending := Option.some.inj (hpending'.symm.trans hpending)
    exact hg pending' hpending hauth hunlock
  | _ => exact absurd hby id

theorem sound_empty : Books.empty.Sound :=
  ⟨balanced_empty,fun _ => le_rfl,le_rfl,fun h => absurd h (lt_irrefl 0)⟩

theorem run_sound {acts : List (Action host)}
    (ha : Runs.Along (step host) CoveredExecution (genesis chain) acts) :
    (books (runFrom host chain acts)).Sound := by
  refine run_books sound_empty ?_ ha
  intro l inv v es _ hg hP hv hpage hbook
  exact (hbook.valid.and (page_covered hg hv hpage)).invariant
    (fun _ _ hb he => hb.post he.1 he.2) hP

/-- While every deferred withdrawal is covered when it is executed, nobody's balance
and not the supply ever falls below zero. -/
theorem shareBalance_nonneg {acts : List (Action host)}
    (ha : Runs.Along (step host) CoveredExecution (genesis chain) acts) :
    (∀ user, 0 ≤ balance (runFrom host chain acts).storage user) ∧
      0 ≤ (getState (runFrom host chain acts).storage).totalShares :=
  ⟨(run_sound ha).balance,(run_sound ha).supply⟩

open SimpleHost in
/-- Alice waits for a large withdrawal and then completes it. -/
def deferredWithdrawal : List (Action (simpleHost id 0)) :=
  [signed admin 0 (.initializeVault admin token),
    signed admin 1 (.setting (.largeWithdrawalThreshold 500)),
    signed alice 2 (.deposit alice 1000),
    signed alice 3 (.withdraw alice 1000),
    signed alice 86403 (.executeWithdrawal alice)]

theorem deferredWithdrawal_covered :
    Runs.Along (step (simpleHost id 0)) CoveredExecution (genesis SimpleHost.bank)
      deferredWithdrawal := by
  refine ⟨trivial,trivial,trivial,trivial,?_,trivial⟩
  rintro pending hpending - -
  obtain rfl := Option.some.inj hpending
  decide

theorem deferredWithdrawal_nonneg :
    (∀ user, 0 ≤ balance
        (runFrom (simpleHost id 0) SimpleHost.bank deferredWithdrawal).storage user) ∧
      0 ≤ (getState
        (runFrom (simpleHost id 0) SimpleHost.bank deferredWithdrawal).storage).totalShares :=
  shareBalance_nonneg deferredWithdrawal_covered

open SimpleHost in
/-- Alice requests a large withdrawal, withdraws the same shares in small portions,
and then executes the request, which bob's deposit pays for. -/
def doubleBurn : List (Action (simpleHost id 0)) :=
  [signed admin 0 (.initializeVault admin token),
    signed admin 1 (.setting (.largeWithdrawalThreshold 500)),
    signed alice 2 (.deposit alice 1000),
    signed bob 3 (.deposit bob 1000),
    signed alice 4 (.withdraw alice 1000),
    signed alice 5 (.withdraw alice 500),
    signed alice 6 (.withdraw alice 500),
    signed alice 86404 (.executeWithdrawal alice)]

theorem shareBalance_overdrawn :
    ¬ ∀ (acts : List (Action (simpleHost id 0))) (user : Address),
      0 ≤ balance (runFrom (simpleHost id 0) SimpleHost.bank acts).storage user := by
  intro h
  have h1 := h doubleBurn SimpleHost.alice
  have h2 : balance (runFrom (simpleHost id 0) SimpleHost.bank doubleBurn).storage
      SimpleHost.alice = -1000 := by decide
  omega

end Solvency

end YieldVault
