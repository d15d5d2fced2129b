import YieldVault.Backing
import YieldVault.AssetLedgers
import YieldVault.Ranges
import YieldVault.WithdrawalTimelock

/-! Whether a withdrawal goes through. A shortfall is recalled from the one active
strategy, so a withdrawal succeeds exactly if the payout can be computed and the idle
assets together with what the active strategy holds are enough for it. -/
namespace YieldVault

open FixedWidth Contract Custody

variable {σ : Type} {host : Host σ} {env : Env σ} {l t m : Ledger σ}

section Liquidity

variable {token : Address}

/-- Strategies return exactly what is requested, up to what they hold. -/
structure HonestStrategies (host : Host σ) (token : Address) (holdings : Address → σ → ℤ) :
    Prop where
  exact : ExactRecalls host token
  holdings_le : ∀ strategy c, holdings strategy c ≤ i128Max
  answers : ∀ strategy amount c, 0 < amount → I128 amount →
    ((∃ c', host.withdraw strategy amount c = some c') ↔ amount ≤ holdings strategy c)

/-- The token carries out every transfer that the vault's balance covers. -/
def PaysCovered (host : Host σ) (token : Address) : Prop :=
  ∀ receiver amount c, receiver ≠ host.vault → 0 ≤ amount → I128 amount →
    amount ≤ host.balance token host.vault c →
      ∃ c', host.transfer token host.vault receiver amount c = some c'

def Available (holdings : Address → σ → ℤ) (l : Ledger σ) (paid : ℤ) : Prop :=
  paid ≤ idleAssets l.storage ∨ ∃ strategy, l.storage.strategy = some strategy ∧
    paid-idleAssets l.storage ≤ holdings strategy l.chain

def CooledDown (timestamp : ℕ) (user : Address) (s : Storage) : Prop :=
  0 < withdrawalCooldown s → lastDepositTime s user+withdrawalCooldown s < 2^64 ∧
    lastDepositTime s user+withdrawalCooldown s ≤ timestamp

theorem ExactRecalls.delivers (hx : ExactRecalls host token) (amount : ℤ) :
    Delivers host token l amount := by
  intro strategy hstrategy c hc
  rw [(hx strategy amount _ _ hc).2]
  exact (add_sub_cancel_left _ _).ge

theorem ExactRecalls.fullRecall (hx : ExactRecalls host token) (a : Action host) :
    FullRecall token l a := by
  cases a with
  | outside c => trivial
  | invoke inv =>
    intro v t _
    cases inv.call with
    | divest amount => exact hx.delivers amount
    | withdraw user shares => exact fun paid _ _ _ => hx.delivers _
    | executeWithdrawal user => exact fun pending _ paid _ _ => hx.delivers _
    | confirmEmergencyAction confirmer id => exact fun p _ _ amount _ => hx.delivers amount
    | _ => trivial

/-- With honest strategies a shortfall can be covered exactly if enough is available. -/
theorem coverShortfall_iff {holdings : Address → σ → ℤ} {paid : ℤ}
    (hh : HonestStrategies env.host token holdings) (hr : StoredInRange l.storage)
    (hfit : I128 paid) :
    (∃ m, (coverShortfall env paid).run l = .ok () m) ↔ Available holdings l paid := by
  by_cases hlt : idleAssets l.storage < paid
  · constructor
    · rintro ⟨m,h⟩
      rw [coverShortfall_ok,if_pos hlt] at h
      obtain ⟨strategy,hstrategy,c,hc,-,-,-⟩ := divest_ok.mp h.2
      exact Or.inr ⟨strategy,hstrategy,(hh.answers strategy _ _ (by omega) h.1).mp ⟨c,hc⟩⟩
    · rintro (h | ⟨strategy,hstrategy,hhold⟩)
      · exact absurd h (not_le.mpr hlt)
      · have hmax := hhold.trans (hh.holdings_le strategy l.chain)
        have hshort : I128 (paid-idleAssets l.storage) := by
          constructor
          · omega
          · unfold i128Max maxSigned at hmax
            omega
        obtain ⟨c,hc⟩ := (hh.answers strategy _ l.chain (by omega) hshort).mpr hhold
        have hmark := hr.watermarks strategy
        have hfit' : I128 (idleAssets l.storage+(paid-idleAssets l.storage)) := by
          rwa [add_sub_cancel]
        have hlower : I128 (strategyWatermark l.storage strategy-(paid-idleAssets l.storage)) :=
          hmark.2.sub hshort hmark.1 (by omega)
        have hdivest : (divest env (paid-idleAssets l.storage)).run l = .ok () _ :=
          divest_ok.mpr ⟨strategy,hstrategy,c,hc,fun _ => hlower,hfit',rfl⟩
        exact ⟨_,coverShortfall_ok.mpr (by rw [if_pos hlt]; exact ⟨hshort,hdivest⟩)⟩
  · have hstay : (coverShortfall env paid).run l = .ok () l :=
      coverShortfall_ok.mpr (by rw [if_neg hlt])
    exact ⟨fun _ => Or.inl (not_lt.mp hlt),fun _ => ⟨l,hstay⟩⟩

end Liquidity

section Withdraw

theorem sharesToAssets_iff {shares totalShares totalAssets r : ℤ} (hs : 0 ≤ shares)
    (hS : 0 < totalShares) (hA : 0 ≤ totalAssets) :
    sharesToAssets shares totalShares totalAssets = .ok r ↔
      I128 (shares*totalAssets) ∧ r = shares*totalAssets / totalShares := by
  have hdiv := (ProRata.tdiv_portion (mul_nonneg hs hA) hS).1
  rw [sharesToAssets_eq_ok,if_neg hS.ne',hdiv]
  refine ⟨fun h => ⟨h.1,h.2.2.symm⟩,fun h => ⟨h.1,?_,h.2.symm⟩⟩
  rw [← hdiv]
  exact h.1.tdiv hS

structure Redeeming (l : Ledger σ) (user : Address) (shares : ℤ) : Prop where
  supply : 0 < (getState l.storage).totalShares
  assets : 0 ≤ (getState l.storage).totalAssets
  pos : 0 < shares
  held : shares ≤ balance l.storage user

theorem Redeeming.payout {user : Address} {shares : ℤ} (h : Redeeming l user shares)
    (hfit : I128 (shares*(getState l.storage).totalAssets)) :
    0 ≤ shares*(getState l.storage).totalAssets / (getState l.storage).totalShares ∧
      I128 (shares*(getState l.storage).totalAssets / (getState l.storage).totalShares) := by
  have hp := ProRata.tdiv_portion (mul_nonneg h.pos.le h.assets) h.supply
  rw [← hp.1]
  exact ⟨hp.2.1,hfit.tdiv h.supply⟩

theorem withdrawFits_of_covered {user : Address} {shares paid : ℤ} (hw : Redeeming l user shares)
    (hb : (books l).InRange) (hr : StoredInRange l.storage) (hc : CoveredFor paid l m)
    (hpaid : 0 ≤ paid) (hfit : I128 paid) :
    WithdrawFits (getState l.storage) user shares paid m.storage := by
  have hshares : I128 shares := (fits_zero 128).between (hb.balance user) hw.pos.le hw.held
  have hidle : I128 (idleAssets m.storage) := by
    rw [hc.idle]
    rcases max_choice (idleAssets l.storage) paid with he | he
    · rw [he]
      exact hb.idle
    · rw [he]
      exact hfit
  have hcover : paid ≤ idleAssets m.storage := by
    rw [hc.idle]
    exact le_max_right _ _
  refine ⟨hidle.sub hfit (hpaid.trans hcover) hpaid,?_,?_,?_,?_,fun hlt => ?_⟩
  · rw [hc.state]
    exact Fits.sub hb.supply hshares hw.supply.le hw.pos.le
  · rw [hc.balance]
    exact Fits.sub (hb.balance user) hshares (hw.pos.le.trans hw.held) hw.pos.le
  · exact Fits.sub hb.assets hfit hw.assets hpaid
  · exact Fits.sub hb.supply hshares hw.supply.le hw.pos.le
  · rw [hc.deposits] at hlt ⊢
    exact (hr.deposits user).sub hfit (hpaid.trans hlt.le) hpaid

theorem treasuryBalance_nonneg {l : Ledger σ} (hl : Reachable host l) :
    0 ≤ treasuryBalance l.storage := by
  let P : Books → Prop := fun b => 0 ≤ b.treasury
  have hb : P (books l) :=
    reachable_books (P := P) le_rfl (fun _ _ hb he => Books.treasury_post hb he.admits) hl
  exact hb

theorem books_inRange {l : Ledger σ} (hl : Reachable host l) : (books l).InRange := by
  have hempty : Books.empty.InRange :=
    ⟨fun _ => fits_zero 128,fits_zero 128,fits_zero 128,fits_zero 128,fits_zero 128⟩
  exact reachable_books hempty (fun _ _ hb he => he.inRange hb) hl

variable {token : Address} {allowed : σ → ℤ} {holdings : Address → σ → ℤ}

theorem payment_succeeds {user : Address} {paid : ℤ} (ht : StandardToken env.host token allowed)
    (hb : Backed env.host token allowed l) (hpay : PaysCovered env.host token)
    (hd : idleAssets l.storage < paid → Delivers env.host token l (paid-idleAssets l.storage))
    (huser : user ≠ env.host.vault) (htreasury : 0 ≤ treasuryBalance l.storage)
    (hpaid : 0 ≤ paid) (hfit : I128 paid)
    (hcover : (coverShortfall env paid).run l = .ok () m) :
    ∃ c, env.host.transfer token env.host.vault user paid m.chain = some c := by
  have hm := coverShortfall_backed ht hb hd hcover
  have hc := coverShortfall_covered hcover
  have hbalance := hm.le_balance (ht.allowed_nonneg _)
  have hidle : paid ≤ idleAssets m.storage := by
    rw [hc.idle]
    exact le_max_right _ _
  refine hpay user paid m.chain huser hpaid hfit (le_trans ?_ hbalance)
  rw [owed,hc.treasury]
  omega

/-- A withdrawal below the threshold goes through once its shortfall is covered. -/
theorem withdraw_completes (ht : StandardToken host token allowed) (hpay : PaysCovered host token)
    (hb : Backed host token allowed l) (hl : Reachable host l)
    (htoken : l.storage.tokenAsset = some token) (hpaused : isPaused l.storage = false)
    (inv : Invocation host.vault) {user : Address} {shares : ℤ} (hauth : inv.auth user = true)
    (hcool : CooledDown inv.timestamp user l.storage) (hw : Redeeming l user shares)
    (hlarge : shares*(getState l.storage).totalAssets / (getState l.storage).totalShares ≤
      largeWithdrawalThreshold l.storage)
    (hfit : I128 (shares*(getState l.storage).totalAssets)) {paid : ℤ}
    (he : paid = shares*(getState l.storage).totalAssets / (getState l.storage).totalShares)
    (hd : idleAssets l.storage < paid → Delivers host token l (paid-idleAssets l.storage))
    (hcover : (coverShortfall inv.env paid).run l = .ok () m) :
    ∃ t, (withdraw inv.env user shares).run l = .ok paid t := by
  subst he
  obtain ⟨chain,acts,hrun⟩ := id hl
  have hr : StoredInRange l.storage := hrun ▸ run_inRange chain acts
  obtain ⟨hpaid,hpaidfit⟩ := hw.payout hfit
  have hpayout := (sharesToAssets_iff hw.pos.le hw.supply hw.assets).mpr ⟨hfit,rfl⟩
  have huser : user ≠ inv.env.host.vault := signer_ne_vault inv.unsigned hauth
  obtain ⟨c,hc⟩ : ∃ c, inv.env.host.transfer token inv.env.host.vault user
      (shares*(getState l.storage).totalAssets / (getState l.storage).totalShares) m.chain =
        some c :=
    payment_succeeds ht hb hpay hd huser (treasuryBalance_nonneg hl) hpaid hpaidfit hcover
  have hfits := withdrawFits_of_covered hw (books_inRange hl) hr (coverShortfall_covered hcover)
    hpaid hpaidfit
  exact ⟨_,withdraw_ok.mpr ⟨hw.pos,_,hpaused,hauth,hcool,hw.held,hpayout,
    Or.inl ⟨hlarge,doWithdraw_ok.mpr ⟨token,m,c,htoken,hcover,hc,hfits,rfl,rfl⟩⟩⟩⟩

/-- What a successful withdrawal below the threshold returns, transfers and announces. -/
theorem withdraw_pays {user : Address} {shares r : ℤ} (hw : Redeeming l user shares)
    (hlarge : shares*(getState l.storage).totalAssets / (getState l.storage).totalShares ≤
      largeWithdrawalThreshold l.storage)
    (h : (withdraw env user shares).run l = .ok r t) :
    r = shares*(getState l.storage).totalAssets / (getState l.storage).totalShares ∧
      (∃ token effects, l.storage.tokenAsset = some token ∧ t.log = effects ++ l.log ∧
        payments env.host.vault effects = [(token,user,r)]) ∧
      payouts t.log = (user,r,shares) :: payouts l.log ∧
      I128 (shares*(getState l.storage).totalAssets) ∧
      ∃ m, (coverShortfall env r).run l = .ok () m := by
  obtain ⟨_,paid,-,-,-,-,hpaid,hrun⟩ := withdraw_ok.mp h
  obtain ⟨hfit,rfl⟩ := (sharesToAssets_iff hw.pos.le hw.supply hw.assets).mp hpaid
  rcases hrun with ⟨-,hrun⟩ | ⟨hbig,-,-,-⟩
  · obtain ⟨token,effects,htoken,hlog,hpays,-⟩ := doWithdraw_pays hrun
    obtain ⟨_,m,c,-,hcover,-,-,rfl,rfl⟩ := doWithdraw_ok.mp hrun
    refine ⟨rfl,⟨token,effects,htoken,hlog,hpays⟩,?_,hfit,m,hcover⟩
    change (user,_,shares) :: payouts m.log = _
    rw [(coverShortfall_covered hcover).payouts]
  · exact absurd hlarge (not_le.mpr hbig)

/-- In every reachable vault that is not paused, with honest strategies and neither the
threshold nor the cooldown in the way, a withdrawal succeeds exactly if its payout can be
computed and the idle assets with the active strategy's holdings are enough for it; it
then makes one transfer, of the floor of the shares' part of the assets to the user. -/
theorem withdraw_succeeds_iff {chain : σ} {acts : List (Action host)}
    (ht : StandardToken host token allowed) (hpay : PaysCovered host token)
    (hh : HonestStrategies host token holdings) (hfresh : allowed chain = 0)
    (hbalance : 0 ≤ host.balance token host.vault chain)
    (houtside : Runs.Along (step host) (OutsideDraws token allowed) (genesis chain) acts)
    (htoken : (runFrom host chain acts).storage.tokenAsset = some token)
    (hpaused : isPaused (runFrom host chain acts).storage = false)
    (inv : Invocation host.vault) {user : Address} {shares : ℤ} (hauth : inv.auth user = true)
    (hcool : CooledDown inv.timestamp user (runFrom host chain acts).storage)
    (hw : Redeeming (runFrom host chain acts) user shares)
    (hlarge : shares*(getState (runFrom host chain acts).storage).totalAssets /
        (getState (runFrom host chain acts).storage).totalShares ≤
      largeWithdrawalThreshold (runFrom host chain acts).storage) :
    ((∃ r t, (withdraw inv.env user shares).run (runFrom host chain acts) = .ok r t) ↔
        I128 (shares*(getState (runFrom host chain acts).storage).totalAssets) ∧
        Available holdings (runFrom host chain acts)
          (shares*(getState (runFrom host chain acts).storage).totalAssets /
            (getState (runFrom host chain acts).storage).totalShares)) ∧
      ∀ r t, (withdraw inv.env user shares).run (runFrom host chain acts) = .ok r t →
        r = shares*(getState (runFrom host chain acts).storage).totalAssets /
            (getState (runFrom host chain acts).storage).totalShares ∧
          (∃ effects, t.log = effects ++ (runFrom host chain acts).log ∧
            payments host.vault effects = [(token,user,r)]) ∧
          payouts t.log = (user,r,shares) :: payouts (runFrom host chain acts).log := by
  have hreach : Reachable host (runFrom host chain acts) := ⟨chain,acts,rfl⟩
  have hfull : Runs.Along (step host) (FullRecall token) (genesis chain) acts :=
    houtside.mono fun _ a _ => hh.exact.fullRecall a
  have hb := run_backed ht hfresh hbalance houtside hfull htoken
  have hr := run_inRange chain acts
  generalize runFrom host chain acts = l at *
  have hrecall : ∀ {paid}, I128 paid →
      ((∃ m, (coverShortfall inv.env paid).run l = .ok () m) ↔ Available holdings l paid) :=
    fun hfit => coverShortfall_iff hh hr hfit
  refine ⟨⟨?_,?_⟩,fun r t h => ?_⟩
  · rintro ⟨r,t,h⟩
    obtain ⟨rfl,-,-,hfit,m,hcover⟩ := withdraw_pays hw hlarge h
    exact ⟨hfit,(hrecall (hw.payout hfit).2).mp ⟨m,hcover⟩⟩
  · rintro ⟨hfit,havailable⟩
    obtain ⟨m,hcover⟩ := (hrecall (hw.payout hfit).2).mpr havailable
    exact ⟨_,withdraw_completes ht hpay hb hreach htoken hpaused inv hauth hcool hw hlarge hfit rfl
      (fun _ => hh.exact.delivers _) hcover⟩
  · obtain ⟨hr,⟨other,effects,hother,hlog,hpays⟩,hpaid,-⟩ := withdraw_pays hw hlarge h
    obtain rfl : token = other := Option.some.inj (htoken.symm.trans hother)
    exact ⟨hr,⟨effects,hlog,hpays⟩,hpaid⟩

end Withdraw

section Runs

open SimpleHost

def Bank.holdings (strategy : Address) (bank : Bank) : ℤ :=
  if Bank.IsSpender strategy then min (bank.held strategy) i128Max else 0

theorem honestStrategies_simpleHost (harvest : ℤ) :
    HonestStrategies (simpleHost id harvest) token Bank.holdings where
  exact := exactRecalls_simpleHost harvest
  holdings_le strategy c := by
    unfold Bank.holdings
    split_ifs
    · exact min_le_right _ _
    · decide
  answers strategy amount c hpos hfit := by
    have hmax : amount ≤ i128Max := by
      have h1 := hfit.2
      unfold i128Max maxSigned
      omega
    by_cases hs : Bank.IsSpender strategy
    · simp only [simpleHost,Bank.holdings,if_pos hs,le_min_iff,hmax,and_true,id]
      constructor
      · rintro ⟨c',h⟩
        unfold Bank.move at h
        split_ifs at h with h0
        exact h0.2.1
      · intro hle
        exact ⟨_,if_pos ⟨hpos.le,hle,hfit⟩⟩
    · simp only [simpleHost,Bank.holdings,if_neg hs]
      constructor
      · rintro ⟨c',h⟩
        exact absurd h nofun
      · intro hle
        omega

theorem paysCovered_simpleHost (harvest : ℤ) : PaysCovered (simpleHost id harvest) token := by
  intro receiver amount c _ hpos hfit hle
  exact ⟨_,if_pos ⟨hpos,hle,hfit⟩⟩

/-- Everything is placed with the first strategy, which stays the active one. -/
def investedRun : List (Action (simpleHost id 0)) :=
  [signed admin 0 (.initializeVault admin token),
    signed admin 1 (.setting (.whitelist strategyA true)),
    signed admin 2 (.setting (.whitelist strategyB true)),
    signed admin 3 (.setting (.strategy strategyA)),
    signed alice 4 (.deposit alice 1000),
    signed admin 5 (.invest 900)]

def byAlice : Invocation (simpleHost id 0).vault :=
  ⟨7,7,fun a => decide (a = alice),by decide,.withdraw alice 1000⟩

theorem investedRun_redeems :
    ∃ r t, (withdraw byAlice.env alice 1000).run
        (runFrom (simpleHost id 0) bank investedRun) = .ok r t ∧
      ∃ effects, t.log = effects ++ (runFrom (simpleHost id 0) bank investedRun).log ∧
        payments (simpleHost id 0).vault effects = [(token,alice,r)] := by
  have halong : Runs.Along (step (simpleHost id 0)) (OutsideDraws token Bank.allowed)
      (genesis bank) investedRun :=
    ⟨trivial,trivial,trivial,trivial,trivial,trivial,trivial⟩
  have hw : Redeeming (runFrom (simpleHost id 0) bank investedRun) alice 1000 :=
    ⟨by decide,by decide,by decide,by decide⟩
  obtain ⟨hiff,hpays⟩ := withdraw_succeeds_iff standardToken_simpleHost (paysCovered_simpleHost 0)
    (honestStrategies_simpleHost 0) (by decide) (by decide) halong (by decide) (by decide) byAlice
    (by decide) (fun h => absurd h (by decide)) hw (by decide +kernel)
  obtain ⟨r,t,h⟩ := hiff.mpr ⟨by decide +kernel,Or.inr ⟨strategyA,rfl,by decide +kernel⟩⟩
  exact ⟨r,t,h,(hpays r t h).2.1⟩

/-- Once another strategy is the active one, what the first one holds is out of reach. -/
theorem withdraw_stranded :
    ¬ ∀ (acts : List (Action (simpleHost id 0))) (inv : Invocation (simpleHost id 0).vault)
      (user : Address) (shares : ℤ), inv.auth user = true →
      isPaused (runFrom (simpleHost id 0) bank acts).storage = false →
      withdrawalCooldown (runFrom (simpleHost id 0) bank acts).storage = 0 →
      largeWithdrawalThreshold (runFrom (simpleHost id 0) bank acts).storage = i128Max →
      0 < shares → shares ≤ balance (runFrom (simpleHost id 0) bank acts).storage user →
        ∃ r t, (withdraw inv.env user shares).run (runFrom (simpleHost id 0) bank acts) =
          .ok r t := by
  intro h
  obtain ⟨r,t,ht⟩ := h (investedRun ++ [signed admin 6 (.setting (.strategy strategyB))]) byAlice
    alice 1000 (by decide) (by decide) (by decide) (by decide) (by decide) (by decide)
  have hfail : (withdraw byAlice.env alice 1000).run (runFrom (simpleHost id 0) bank
      (investedRun ++ [signed admin 6 (.setting (.strategy strategyB))])) =
        .panic "contract call failed" := by rfl
  rw [hfail] at ht
  exact absurd ht nofun

end Runs

end YieldVault
