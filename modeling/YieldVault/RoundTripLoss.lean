import YieldVault.Splitting

/-! A deposit whose shares are redeemed in the next call. What the shares are worth then is
at most what was paid in, and less only by rounding; nobody else loses anything. -/
namespace YieldVault

open FixedWidth Contract

variable {σ : Type} {env env' : Env σ} {l m t : Ledger σ}

/-- What some shares are worth at the price in the state record, rounded down. -/
def redeemable (s : Storage) (shares : ℤ) : ℤ :=
  shares*(getState s).totalAssets / (getState s).totalShares

/-- Nobody but the user has more or fewer shares, and no holder's shares are worth less. -/
structure OthersKeep (user : Address) (s s' : Storage) : Prop where
  shares : ∀ other, other ≠ user → balance s' other = balance s other
  worth : ∀ other, other ≠ user → 0 ≤ balance s other →
    redeemable s (balance s other) ≤ redeemable s' (balance s' other)

theorem OthersKeep.of_price {user : Address} {s s' : Storage}
    (hbalance : ∀ other, other ≠ user → balance s' other = balance s other)
    (hsupply : 0 < (getState s).totalShares) (hsupply' : 0 < (getState s').totalShares)
    (hprice : ProRata.PriceLe (getState s).totalAssets (getState s).totalShares
      (getState s').totalAssets (getState s').totalShares) : OthersKeep user s s' := by
  refine ⟨hbalance,fun other hne hb => ?_⟩
  rw [hbalance other hne]
  exact ProRata.floor_mono hb hsupply hsupply' hprice

structure Deposited (user : Address) (amount shares : ℤ) (l m : Ledger σ) : Prop where
  paid : 0 < amount
  minted : 0 ≤ shares
  state : getState m.storage = mintedState (getState l.storage) amount shares
  low : shares*(getState l.storage).totalAssets ≤ amount*(getState l.storage).totalShares
  up : amount*(getState l.storage).totalShares < (shares+1)*(getState l.storage).totalAssets
  others : ∀ other, other ≠ user → balance m.storage other = balance l.storage other
  threshold : largeWithdrawalThreshold m.storage = largeWithdrawalThreshold l.storage

theorem deposit_deposited {user : Address} {amount shares : ℤ}
    (hsupply : 0 < (getState l.storage).totalShares)
    (hassets : 0 < (getState l.storage).totalAssets)
    (h : (deposit env user amount).run l = .ok shares m) : Deposited user amount shares l m := by
  obtain ⟨hamount,hstate,hshares⟩ := deposit_minted h
  obtain ⟨-,hnonneg,hlow⟩ := assetsToShares_priced hamount hsupply hassets hshares
  have hup : amount*(getState l.storage).totalShares <
      (shares+1)*(getState l.storage).totalAssets := by
    rw [assetsToShares_eq_ok,if_neg (by omega)] at hshares
    have hp := ProRata.tdiv_portion (mul_nonneg hamount.le hsupply.le) hassets
    rw [hshares.2.2] at hp
    exact hp.2.2.2
  refine ⟨hamount,hnonneg,hstate,hlow,hup,fun other hne => ?_,?_⟩
  · obtain ⟨_,_,-,-,-,-,-,-,-,-,-,-,rfl⟩ := deposit_ok.mp h
    simp [creditedDeposit,hne]
  · obtain ⟨_,_,-,-,-,-,-,-,-,-,-,-,rfl⟩ := deposit_ok.mp h
    rfl

theorem withdraw_others {user : Address} {shares r : ℤ}
    (h : (withdraw env user shares).run l = .ok r t) (other : Address) (hne : other ≠ user) :
    balance t.storage other = balance l.storage other := by
  obtain ⟨_,paid,-,-,-,-,-,⟨-,h⟩ | ⟨-,-,-,rfl⟩⟩ := withdraw_ok.mp h
  · obtain ⟨_,m,c,-,hcover,-,-,-,rfl⟩ := doWithdraw_ok.mp h
    simp [debitedWithdrawal,hne,(coverShortfall_covered hcover).balance]
  · rfl

/-- Above the threshold the shares are put on record, and the time at which they may be paid. -/
theorem withdraw_queued {user : Address} {shares r paid : ℤ}
    (h : (withdraw env user shares).run l = .ok r t)
    (hpaid : sharesToAssets shares (getState l.storage).totalShares
      (getState l.storage).totalAssets = .ok paid) (hlarge : largeWithdrawalThreshold l.storage < paid) :
    ∃ pending, t.storage.pendingWithdrawal user = some pending ∧ pending.shares = shares ∧
      pending.unlockTimestamp = env.timestamp+86400 := by
  obtain ⟨hpos,paid',-,-,-,-,hpaid',⟨hsmall,-⟩ | ⟨-,-,-,rfl⟩⟩ := withdraw_ok.mp h
  · obtain rfl : paid = paid' := Except.ok.inj (hpaid.symm.trans hpaid')
    exact absurd hlarge (not_lt.mpr hsmall)
  · exact ⟨⟨shares,env.timestamp+86400,hpos⟩,Function.update_self _ _ _,rfl,rfl⟩

namespace Deposited

variable {user : Address} {amount shares : ℤ}

theorem supply_pos (h : Deposited user amount shares l m)
    (hsupply : 0 < (getState l.storage).totalShares) : 0 < (getState m.storage).totalShares := by
  have h1 := h.minted
  rw [h.state]
  change 0 < (getState l.storage).totalShares+shares
  omega

theorem assets_pos (h : Deposited user amount shares l m)
    (hassets : 0 < (getState l.storage).totalAssets) : 0 < (getState m.storage).totalAssets := by
  have h1 := h.paid
  rw [h.state]
  change 0 < (getState l.storage).totalAssets+amount
  omega

theorem price (h : Deposited user amount shares l m) :
    ProRata.PriceLe (getState l.storage).totalAssets (getState l.storage).totalShares
      (getState m.storage).totalAssets (getState m.storage).totalShares := by
  rw [h.state]
  exact ProRata.mint_price h.low

/-- The worth of the minted shares right after the deposit. -/
theorem worth_bounds (h : Deposited user amount shares l m)
    (hsupply : 0 < (getState l.storage).totalShares)
    (hassets : 0 < (getState l.storage).totalAssets) :
    redeemable m.storage shares ≤ amount ∧
      (amount-redeemable m.storage shares-1)*(getState l.storage).totalShares <
        (getState l.storage).totalAssets := by
  have hS : 0 < (getState l.storage).totalShares+shares := by
    have h1 := h.minted
    omega
  unfold redeemable
  rw [h.state]
  exact ProRata.roundTrip_bounds hsupply hassets h.minted h.low h.up
    (Int.ediv_mul_le _ hS.ne') (Int.lt_ediv_add_one_mul_self _ hS)

end Deposited

/-- Immediately after the deposit the minted shares are worth at most the amount, and short of
it by less than the price of a share and a unit. A withdrawal of them pays just that, or is queued
for a day; and neither the deposit nor both calls lower the worth of what others hold. -/
theorem roundTrip_loss (hsupply : 0 < (getState l.storage).totalShares)
    (hassets : 0 < (getState l.storage).totalAssets) {user : Address} {amount shares : ℤ}
    (hdeposit : (deposit env user amount).run l = .ok shares m) :
    redeemable m.storage shares ≤ amount ∧
      (amount-redeemable m.storage shares-1)*(getState l.storage).totalShares <
        (getState l.storage).totalAssets ∧
      OthersKeep user l.storage m.storage ∧
      ∀ (env' : Env σ) (r : ℤ) (t : Ledger σ), (withdraw env' user shares).run m = .ok r t →
        (redeemable m.storage shares ≤ largeWithdrawalThreshold l.storage →
          r = redeemable m.storage shares) ∧
        (largeWithdrawalThreshold l.storage < redeemable m.storage shares → r = 0 ∧
          ∃ pending, t.storage.pendingWithdrawal user = some pending ∧ pending.shares = shares ∧
            pending.unlockTimestamp = env'.timestamp+86400) ∧
        OthersKeep user l.storage t.storage := by
  have hd := deposit_deposited hsupply hassets hdeposit
  have hsupply' := hd.supply_pos hsupply
  have hassets' := hd.assets_pos hassets
  obtain ⟨hgain,hloss⟩ := hd.worth_bounds hsupply hassets
  refine ⟨hgain,hloss,OthersKeep.of_price hd.others hsupply hsupply' hd.price,?_⟩
  intro env' r t hwithdraw
  obtain ⟨hpos,worth,hworth,hpaid⟩ := withdraw_paid hwithdraw
  have hp := sharesToAssets_portion hpos.le hsupply' hassets'.le hworth
  obtain rfl : worth = redeemable m.storage shares := hp.1
  have hothers : ∀ other, other ≠ user → balance t.storage other = balance l.storage other :=
    fun other hne => (withdraw_others hwithdraw other hne).trans (hd.others other hne)
  rw [hd.threshold] at hpaid
  rcases hpaid with ⟨hsmall,rfl,hstate⟩ | ⟨hlarge,rfl,hstate⟩
  · -- the supply is the one before the deposit again, with what rounding left behind
    have hback : (getState t.storage).totalShares = (getState l.storage).totalShares := by
      rw [hstate,hd.state]
      exact add_sub_cancel_right _ _
    have hsupplyBack : 0 < (getState t.storage).totalShares := hback ▸ hsupply
    refine ⟨fun _ => rfl,fun h => absurd h (not_lt.mpr hsmall),
      OthersKeep.of_price hothers hsupply hsupplyBack ?_⟩
    refine hd.price.trans hsupply.le hsupply' hsupplyBack.le ?_
    rw [hstate]
    exact ProRata.burn_price hp.2.2
  · rw [← hd.threshold] at hlarge
    refine ⟨fun h => absurd hlarge (not_lt.mpr (hd.threshold ▸ h)),
      fun _ => ⟨rfl,withdraw_queued hwithdraw hworth hlarge⟩,?_⟩
    refine OthersKeep.of_price hothers hsupply (hstate ▸ hsupply') ?_
    rw [hstate]
    exact hd.price

section Runs

open SimpleHost

/-- Bob pays 500 into a vault with 1000 shares of 1.333 assets each, and takes out 499. -/
theorem sharedVault_loss :
    ∃ m t, (deposit bobEnv bob 500).run (runFrom (simpleHost id 0) bank sharedVault) =
        .ok 375 m ∧
      (withdraw bobEnv bob 375).run m = .ok 499 t ∧ (500-499-1)*1000 < 1333 ∧
      OthersKeep bob (runFrom (simpleHost id 0) bank sharedVault).storage t.storage := by
  obtain ⟨m,hdeposit⟩ : ∃ m, (deposit bobEnv bob 500).run
      (runFrom (simpleHost id 0) bank sharedVault) = .ok 375 m := ⟨_,rfl⟩
  obtain ⟨t,hwithdraw⟩ : ∃ t, (settle (runFrom (simpleHost id 0) bank sharedVault)
      ((deposit bobEnv bob 500).run (runFrom (simpleHost id 0) bank sharedVault)) |>
        (withdraw bobEnv bob 375).run) = .ok 499 t := ⟨_,rfl⟩
  rw [hdeposit] at hwithdraw
  obtain ⟨-,-,-,hafter⟩ := roundTrip_loss (by decide +kernel) (by decide +kernel) hdeposit
  exact ⟨m,t,hdeposit,hwithdraw,by decide,(hafter bobEnv 499 t hwithdraw).2.2⟩

/-- A withdrawal above the threshold is queued for a day and pays nothing at first. -/
theorem queued_loss : ¬ ∀ (l m t : Ledger Bank) (amount shares r : ℤ),
    0 < (getState l.storage).totalShares → 0 < (getState l.storage).totalAssets →
    (deposit bobEnv bob amount).run l = .ok shares m →
    (withdraw bobEnv bob shares).run m = .ok r t →
      r ≤ amount ∧ (amount-r-1)*(getState l.storage).totalShares <
        (getState l.storage).totalAssets := by
  intro h
  obtain ⟨m,hdeposit⟩ : ∃ m, (deposit bobEnv bob 2000).run
      (runFrom (simpleHost id 0) bank cautiousVault) = .ok 2000 m := ⟨_,rfl⟩
  obtain ⟨t,hwithdraw⟩ : ∃ t, (settle (runFrom (simpleHost id 0) bank cautiousVault)
      ((deposit bobEnv bob 2000).run (runFrom (simpleHost id 0) bank cautiousVault)) |>
        (withdraw bobEnv bob 2000).run) = .ok 0 t := ⟨_,rfl⟩
  rw [hdeposit] at hwithdraw
  exact absurd (h _ m t 2000 2000 0 (by decide +kernel) (by decide +kernel) hdeposit hwithdraw).2
    (by decide +kernel)

end Runs

end YieldVault
