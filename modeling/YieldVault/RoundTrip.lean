import YieldVault.SharePrice
import YieldVault.ShareLedger

/-! Round trips of one user. Between two moments at which a user holds no shares, the
user's own deposits and withdrawals never pay out more than was paid in, provided that
the user does not enter a vault that has assets but no shares. -/
namespace YieldVault

open FixedWidth Contract

variable {σ : Type} {host : Host σ} {env : Env σ} {l t m : Ledger σ}

/-- What the vault has paid to the user, less what the user has paid in. -/
def netPaid (vault user : Address) : List Effect → ℤ
  | [] => 0
  | .transfer _ sender receiver amount :: rest => netPaid vault user rest +
    (if sender = vault ∧ receiver = user then amount else 0) -
    (if sender = user ∧ receiver = vault then amount else 0)
  | _ :: rest => netPaid vault user rest

def OwnCall (user : Address) : Action host → Prop
  | .invoke inv => match inv.call with
    | .deposit who _ | .withdraw who _ | .executeWithdrawal who => who = user
    | _ => False
  | .outside _ => True

/-- What a user's own call does: shares and assets move together with the payments. -/
structure OwnStep (vault user : Address) (l t : Ledger σ) : Prop where
  others : (getState t.storage).totalShares-balance t.storage user =
    (getState l.storage).totalShares-balance l.storage user
  paid : netPaid vault user t.log+(getState t.storage).totalAssets =
    netPaid vault user l.log+(getState l.storage).totalAssets
  held : 0 ≤ (getState l.storage).totalAssets → 0 ≤ (getState l.storage).totalShares →
    0 ≤ balance l.storage user → 0 ≤ balance t.storage user
  assets : 0 ≤ (getState l.storage).totalAssets →
    balance l.storage user ≤ (getState l.storage).totalShares →
      0 ≤ (getState t.storage).totalAssets

theorem OwnStep.refl (vault user : Address) (l : Ledger σ) : OwnStep vault user l l :=
  ⟨rfl,rfl,fun _ _ h => h,fun h _ => h⟩

theorem deposit_ownStep {user : Address} {amount shares : ℤ} (hv : env.auth env.host.vault = false)
    (h : (deposit env user amount).run l = .ok shares t) : OwnStep env.host.vault user l t := by
  obtain ⟨token,c,-,hauth,hpos,-,-,hshares,-,-,-,-,rfl⟩ := deposit_ok.mp h
  have hne : user ≠ env.host.vault := by
    rintro rfl
    exact absurd (hauth.symm.trans hv) (by decide)
  refine ⟨?_,?_,fun hA hS hb => ?_,fun hA _ => ?_⟩
  · simp [creditedDeposit,mintedState]
  · simp [netPaid,mintedState,hne,Ne.symm hne]
  · have hminted : 0 ≤ shares := by
      rcases assetsToShares_portion hpos hS hA hshares with h1 | h1
      · exact h1.1
      · omega
    simp [creditedDeposit]
    omega
  · simp [mintedState]
    omega

theorem coverShortfall_netPaid {user : Address} {paid : ℤ} {u : Unit}
    (h : (coverShortfall env paid).run l = .ok u m) :
    netPaid env.host.vault user m.log = netPaid env.host.vault user l.log := by
  rw [coverShortfall_ok] at h
  split_ifs at h
  · obtain ⟨strategy,-,c,-,-,-,rfl⟩ := divest_ok.mp h.2
    rfl
  · subst h
    rfl

theorem doWithdraw_ownStep {user : Address} {shares paid r : ℤ} (hne : user ≠ env.host.vault)
    (hpos : 0 < shares) (hheld : shares ≤ balance l.storage user)
    (hpaid : sharesToAssets shares (getState l.storage).totalShares
      (getState l.storage).totalAssets = .ok paid)
    (h : (doWithdraw env (getState l.storage) user shares paid).run l = .ok r t) :
    OwnStep env.host.vault user l t := by
  obtain ⟨token,m,c,-,hcover,-,-,-,rfl⟩ := doWithdraw_ok.mp h
  have hc := coverShortfall_covered hcover
  refine ⟨?_,?_,fun _ _ _ => ?_,fun hA hle => ?_⟩
  · simp [debitedWithdrawal,burnedState,hc.balance]
  · have hn : netPaid env.host.vault user m.log = netPaid env.host.vault user l.log :=
      coverShortfall_netPaid hcover
    simp [netPaid,debitedWithdrawal,burnedState,hn,hne]
  · simp [debitedWithdrawal,hc.balance]
    omega
  · have hS : 0 < (getState l.storage).totalShares := by omega
    have hp := sharesToAssets_portion hpos.le hS hA hpaid
    have hleft := ProRata.burn_assets_nonneg hS hA (hheld.trans hle) hp.2.2
    simpa [debitedWithdrawal,burnedState] using hleft

/-- A deferred withdrawal that is paid out is for shares its owner still has. -/
def CoveredPayout (l : Ledger σ) : Action host → Prop
  | .invoke inv => match inv.call with
    | .executeWithdrawal user => ∀ pending ∈ l.storage.pendingWithdrawal user, ∀ r t,
      (executeWithdrawal inv.env user).run l = .ok r t → pending.shares ≤ balance l.storage user
    | _ => True
  | .outside _ => True

theorem invoke_ownStep {user : Address} {a : Action host} (ho : OwnCall user a)
    (hcov : CoveredPayout l a) : OwnStep host.vault user l (step host a l) := by
  cases a with
  | outside c => exact ⟨rfl,rfl,fun _ _ h => h,fun h _ => h⟩
  | invoke inv =>
    change OwnStep host.vault user l (invoke inv l)
    rcases invoke_cases inv l with ⟨v,hv⟩ | hsame
    · generalize invoke inv l = t at hv ⊢
      obtain ⟨timestamp,sequence,auth,unsigned,call⟩ := inv
      have hvault : ∀ {who}, auth who = true → who ≠ host.vault := by
        rintro who hauth rfl
        exact absurd (hauth.symm.trans unsigned) (by decide)
      cases call with
      | deposit who amount =>
        obtain rfl : who = user := ho
        obtain ⟨_,hv,-⟩ := map_eq_ok.mp hv
        exact deposit_ownStep unsigned hv
      | withdraw who shares =>
        obtain rfl : who = user := ho
        obtain ⟨_,hv,-⟩ := map_eq_ok.mp hv
        obtain ⟨hpos,paid,-,hauth,-,hheld,hpaid,⟨-,hv⟩ | ⟨-,-,-,rfl⟩⟩ := withdraw_ok.mp hv
        · exact doWithdraw_ownStep (hvault hauth) hpos hheld hpaid hv
        · exact ⟨rfl,rfl,fun _ _ h => h,fun h _ => h⟩
      | executeWithdrawal who =>
        obtain rfl : who = user := ho
        obtain ⟨_,hv,-⟩ := map_eq_ok.mp hv
        obtain ⟨pending,paid,hauth,hpending,-,hpaid,hpayout⟩ := executeWithdrawal_ok.mp hv
        have hheld : pending.shares ≤ balance l.storage who := hcov pending hpending _ _ hv
        let l' : Ledger σ := ⟨setPendingWithdrawal who none l.storage,l.chain,l.log⟩
        have hstep := doWithdraw_ownStep (l := l') (hvault hauth) pending.shares_pos hheld hpaid hpayout
        exact ⟨hstep.others,hstep.paid,hstep.held,hstep.assets⟩
      | _ => exact absurd ho id
    · rw [hsame]
      exact OwnStep.refl _ _ l

/-- The price after any action, as long as shares are left. -/
theorem step_price {a : Action host} (hsupply : 0 < (getState l.storage).totalShares)
    (hassets : 0 < (getState l.storage).totalAssets)
    (hs : 0 < (getState (step host a l).storage).totalShares) :
    ProRata.PriceLe (getState l.storage).totalAssets (getState l.storage).totalShares
      (getState (step host a l).storage).totalAssets
      (getState (step host a l).storage).totalShares := by
  cases a with
  | outside c => exact ProRata.PriceLe.refl _ _
  | invoke inv =>
    rcases invoke_cases inv l with ⟨v,hv⟩ | hsame
    · exact (dispatch_price hsupply hassets hv hs).2
    · change ProRata.PriceLe _ _ (getState (invoke inv l).storage).totalAssets
        (getState (invoke inv l).storage).totalShares
      rw [hsame]
      exact ProRata.PriceLe.refl _ _

/-- The books of a user who started without shares and is the only one to act. -/
structure Solo (vault user : Address) (start l : Ledger σ) : Prop where
  others : (getState l.storage).totalShares-balance l.storage user =
    (getState start.storage).totalShares
  paid : netPaid vault user l.log+(getState l.storage).totalAssets =
    netPaid vault user start.log+(getState start.storage).totalAssets
  held : 0 ≤ balance l.storage user
  assets : 0 ≤ (getState l.storage).totalAssets
  price : ProRata.PriceLe (getState start.storage).totalAssets
    (getState start.storage).totalShares (getState l.storage).totalAssets
    (getState l.storage).totalShares

/-- A vault that may be entered: it has no assets that belong to nobody. -/
structure Enterable (s : Storage) : Prop where
  supply : 0 ≤ (getState s).totalShares
  assets : 0 ≤ (getState s).totalAssets
  unowned : (getState s).totalShares = 0 → (getState s).totalAssets = 0

theorem Solo.step {user : Address} {start : Ledger σ} {a : Action host}
    (he : Enterable start.storage) (h : Solo host.vault user start l) (ho : OwnCall user a)
    (hcov : CoveredPayout l a) : Solo host.vault user start (step host a l) := by
  have hstep := invoke_ownStep ho hcov
  have hsupply : 0 ≤ (getState l.storage).totalShares := by
    have h1 := h.others
    have h2 := h.held
    have h3 := he.supply
    omega
  have hheld := hstep.held h.assets hsupply h.held
  have hothers := hstep.others.trans h.others
  have hassets : 0 ≤ (getState (YieldVault.step host a l).storage).totalAssets := by
    refine hstep.assets h.assets ?_
    have h1 := h.others
    have h2 := he.supply
    omega
  refine ⟨hothers,hstep.paid.trans h.paid,hheld,hassets,?_⟩
  rcases he.assets.eq_or_lt with h0 | h0
  · unfold ProRata.PriceLe
    rw [← h0,zero_mul]
    exact mul_nonneg hassets he.supply
  · have hstart : 0 < (getState start.storage).totalShares :=
      lt_of_le_of_ne he.supply fun hz => h0.ne' (he.unowned hz.symm)
    have hpos : 0 < (getState l.storage).totalShares := by
      have h1 := h.others
      have h2 := h.held
      omega
    have hnow : 0 < (getState l.storage).totalAssets := by
      have h1 := (mul_pos h0 hpos).trans_le h.price
      exact pos_of_mul_pos_left h1 hstart.le
    have hnext : 0 < (getState (YieldVault.step host a l).storage).totalShares := by omega
    exact h.price.trans hstart.le hpos hnext.le (step_price hpos hnow hnext)

/-- Any sequence of the user's own deposits and withdrawals from a moment without shares to
a moment without shares pays out at most what was paid in, if the vault had no assets
without shares at the start and every deferred withdrawal was covered. -/
theorem roundTrip_no_gain {user : Address} {start : Ledger σ} {acts : List (Action host)}
    (he : Enterable start.storage) (hstart : balance start.storage user = 0)
    (ho : Runs.Along (step host) (fun l a => OwnCall user a ∧ CoveredPayout l a) start acts)
    (hend : balance (Runs.run (step host) acts start).storage user = 0) :
    netPaid host.vault user (Runs.run (step host) acts start).log ≤
      netPaid host.vault user start.log := by
  have h0 : Solo host.vault user start start :=
    ⟨by omega,rfl,hstart.ge,he.assets,ProRata.PriceLe.refl _ _⟩
  have hsolo : Solo host.vault user start (Runs.run (step host) acts start) :=
    ho.invariant (fun l a h hg => Solo.step he h hg.1 hg.2) h0
  have hothers := hsolo.others
  have hpaid := hsolo.paid
  rw [hend,sub_zero] at hothers
  have hgain : (getState start.storage).totalAssets ≤
      (getState (Runs.run (step host) acts start).storage).totalAssets := by
    have hprice := hsolo.price
    rw [hothers] at hprice
    rcases he.supply.eq_or_lt with hz | hz
    · rw [he.unowned hz.symm]
      exact hsolo.assets
    · exact le_of_mul_le_mul_right hprice hz
  omega

section Runs

open SimpleHost

def sharedVault : List (Action (simpleHost id 0)) :=
  [signed admin 0 (.initializeVault admin token),
    signed bob 1 (.deposit bob 1000),
    signed admin 2 (.accrueYield 333)]

def aliceTrip : List (Action (simpleHost id 0)) :=
  [signed alice 3 (.deposit alice 500),signed alice 4 (.withdraw alice 100),
    signed alice 5 (.deposit alice 7),signed alice 6 (.withdraw alice 280)]

theorem aliceTrip_no_gain :
    netPaid ⟨0⟩ alice (Runs.run (step (simpleHost id 0)) aliceTrip
        (runFrom (simpleHost id 0) bank sharedVault)).log ≤
      netPaid ⟨0⟩ alice (runFrom (simpleHost id 0) bank sharedVault).log := by
  have henter : Enterable (runFrom (simpleHost id 0) bank sharedVault).storage :=
    ⟨by decide +kernel,by decide +kernel,by decide +kernel⟩
  have hown : Runs.Along (step (simpleHost id 0))
      (fun l a => OwnCall alice a ∧ CoveredPayout l a)
      (runFrom (simpleHost id 0) bank sharedVault) aliceTrip :=
    ⟨⟨rfl,trivial⟩,⟨rfl,trivial⟩,⟨rfl,trivial⟩,⟨rfl,trivial⟩,trivial⟩
  have hgain := roundTrip_no_gain henter (by decide +kernel) hown (by decide +kernel)
  exact hgain

/-- Yield that was paid into a vault without shares goes to whoever deposits first. -/
theorem firstDeposit_gains :
    ¬ ∀ (first acts : List (Action (simpleHost id 0))) (user : Address),
      (∀ a ∈ acts, OwnCall user a) →
      balance (runFrom (simpleHost id 0) bank first).storage user = 0 →
      (runFrom (simpleHost id 0) bank first).storage.pendingWithdrawal user = none →
      balance (runFrom (simpleHost id 0) bank (first ++ acts)).storage user = 0 →
        netPaid ⟨0⟩ user (runFrom (simpleHost id 0) bank (first ++ acts)).log ≤
          netPaid ⟨0⟩ user (runFrom (simpleHost id 0) bank first).log := by
  intro h
  have h1 := h [signed admin 0 (.initializeVault admin token),signed admin 1 (.accrueYield 500)]
    [signed alice 2 (.deposit alice 1000),signed alice 3 (.withdraw alice 1000)] alice
    (by simp [OwnCall,signed]) (by decide +kernel) (by rfl) (by decide +kernel)
  exact absurd h1 (by decide +kernel)

end Runs

end YieldVault
