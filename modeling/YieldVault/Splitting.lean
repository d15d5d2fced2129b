import YieldVault.RoundTrip

/-! Splitting never gains. Deposits that follow one another mint no more shares than one
deposit of their sum, and withdrawals that follow one another pay no more than one
withdrawal of their sum, if that one is paid at once and the shares exist. -/
namespace YieldVault

open FixedWidth Contract

variable {σ : Type} {env : Env σ} {l t : Ledger σ}

def depositAll : List (Env σ × Address × ℤ) → VaultM σ (List ℤ)
  | [] => pure []
  | (env,user,amount)::rest => do
    let shares ← deposit env user amount
    let more ← depositAll rest
    pure (shares::more)

def withdrawAll : List (Env σ × Address × ℤ) → VaultM σ (List ℤ)
  | [] => pure []
  | (env,user,shares)::rest => do
    let paid ← withdraw env user shares
    let more ← withdrawAll rest
    pure (paid::more)

def total (pieces : List (Env σ × Address × ℤ)) : ℤ := (pieces.map fun p => p.2.2).sum

@[simp] theorem total_nil : total ([] : List (Env σ × Address × ℤ)) = 0 := rfl

@[simp] theorem total_cons (env : Env σ) (user : Address) (amount : ℤ)
    (rest : List (Env σ × Address × ℤ)) :
    total ((env,user,amount)::rest) = amount+total rest := by
  simp [total]

section Deposits

theorem deposit_minted {user : Address} {amount shares : ℤ}
    (h : (deposit env user amount).run l = .ok shares t) :
    0 < amount ∧ getState t.storage = mintedState (getState l.storage) amount shares ∧
      assetsToShares amount (getState l.storage).totalShares
        (getState l.storage).totalAssets = .ok shares := by
  obtain ⟨_,_,-,-,hpos,-,-,hshares,-,-,-,-,rfl⟩ := deposit_ok.mp h
  exact ⟨hpos,rfl,hshares⟩

theorem assetsToShares_first {amount supply assets shares : ℤ} (hempty : supply = 0)
    (h : assetsToShares amount supply assets = .ok shares) : shares = amount := by
  rw [assetsToShares_eq_ok,if_pos (Or.inr hempty)] at h
  exact h.symm

theorem assetsToShares_priced {amount supply assets shares : ℤ} (hamount : 0 < amount)
    (hsupply : 0 < supply) (hassets : 0 < assets)
    (h : assetsToShares amount supply assets = .ok shares) :
    shares = amount*supply / assets ∧ 0 ≤ shares ∧ shares*assets ≤ amount*supply := by
  rw [assetsToShares_eq_ok,if_neg (by omega)] at h
  have hp := ProRata.tdiv_portion (mul_nonneg hamount.le hsupply.le) hassets
  rw [h.2.2] at hp
  exact ⟨hp.1,hp.2.1,hp.2.2.1⟩

/-- Deposits into a vault with shares mint together no more than the price before the first
of them gives. -/
theorem depositAll_priced {pieces : List (Env σ × Address × ℤ)} {minted : List ℤ}
    (hsupply : 0 < (getState l.storage).totalShares)
    (hassets : 0 < (getState l.storage).totalAssets)
    (h : (depositAll pieces).run l = .ok minted t) :
    0 ≤ minted.sum ∧ minted.sum*(getState l.storage).totalAssets ≤
      total pieces*(getState l.storage).totalShares := by
  induction pieces generalizing l minted with
  | nil =>
    obtain ⟨rfl,-⟩ := pure_eq_ok.mp h
    simp
  | cons piece rest ih =>
    obtain ⟨env,user,amount⟩ := piece
    obtain ⟨shares,m,hone,hrest⟩ := bind_eq_ok.mp h
    obtain ⟨more,u,hmore,hpure⟩ := bind_eq_ok.mp hrest
    obtain ⟨rfl,rfl⟩ := pure_eq_ok.mp hpure
    obtain ⟨hamount,hstate,hshares⟩ := deposit_minted hone
    obtain ⟨-,hminted,hportion⟩ := assetsToShares_priced hamount hsupply hassets hshares
    have hsupply' : 0 < (getState l.storage).totalShares+shares := by omega
    have hassets' : 0 < (getState l.storage).totalAssets+amount := by omega
    have hlater := ih (l := m) (by rw [hstate]; exact hsupply') (by rw [hstate]; exact hassets')
      hmore
    rw [hstate] at hlater
    rw [List.sum_cons,total_cons]
    exact ⟨add_nonneg hminted hlater.1,
      ProRata.mint_split hsupply.le hsupply' hlater.1 hportion hlater.2⟩

/-- The first deposit of a vault without shares is one to one, and the later ones mint no
more than that. -/
theorem depositAll_first {pieces : List (Env σ × Address × ℤ)} {minted : List ℤ}
    (hempty : (getState l.storage).totalShares = 0)
    (hassets : 0 ≤ (getState l.storage).totalAssets)
    (h : (depositAll pieces).run l = .ok minted t) : minted.sum ≤ total pieces := by
  cases pieces with
  | nil =>
    obtain ⟨rfl,-⟩ := pure_eq_ok.mp h
    simp
  | cons piece rest =>
    obtain ⟨env,user,amount⟩ := piece
    obtain ⟨shares,m,hone,hrest⟩ := bind_eq_ok.mp h
    obtain ⟨more,u,hmore,hpure⟩ := bind_eq_ok.mp hrest
    obtain ⟨rfl,rfl⟩ := pure_eq_ok.mp hpure
    obtain ⟨hamount,hstate,hshares⟩ := deposit_minted hone
    obtain rfl : shares = amount := assetsToShares_first hempty hshares
    have hsupply' : (getState m.storage).totalShares = shares := by
      rw [hstate,mintedState,hempty,zero_add]
    have hassets' : (getState m.storage).totalAssets =
        (getState l.storage).totalAssets+shares := by
      rw [hstate,mintedState]
    obtain ⟨hminted,hlater⟩ := depositAll_priced (l := m) (by omega) (by omega) hmore
    rw [hsupply',hassets'] at hlater
    have hle : more.sum ≤ total rest := by
      refine le_of_mul_le_mul_right ?_ hamount
      calc more.sum*shares ≤ more.sum*((getState l.storage).totalAssets+shares) :=
            mul_le_mul_of_nonneg_left (by omega) hminted
        _ ≤ total rest*shares := hlater
    rw [List.sum_cons,total_cons]
    omega

end Deposits

section Withdrawals

theorem withdraw_paid {user : Address} {shares r : ℤ}
    (h : (withdraw env user shares).run l = .ok r t) :
    0 < shares ∧ ∃ paid, sharesToAssets shares (getState l.storage).totalShares
        (getState l.storage).totalAssets = .ok paid ∧
      (paid ≤ largeWithdrawalThreshold l.storage ∧ r = paid ∧
          getState t.storage = burnedState (getState l.storage) shares paid ∨
        largeWithdrawalThreshold l.storage < paid ∧ r = 0 ∧
          getState t.storage = getState l.storage) := by
  obtain ⟨hpos,paid,-,-,-,-,hpaid,h⟩ := withdraw_ok.mp h
  refine ⟨hpos,paid,hpaid,?_⟩
  rcases h with ⟨hsmall,hdo⟩ | ⟨hlarge,hr,-,rfl⟩
  · obtain ⟨_,m,c,-,-,-,-,hr,rfl⟩ := doWithdraw_ok.mp hdo
    refine Or.inl ⟨hsmall,hr,?_⟩
    simp [debitedWithdrawal]
  · exact Or.inr ⟨hlarge,hr,rfl⟩

theorem withdrawAll_total {pieces : List (Env σ × Address × ℤ)} {paids : List ℤ}
    (h : (withdrawAll pieces).run l = .ok paids t) : 0 ≤ total pieces ∧
      (total pieces = 0 → paids.sum = 0) := by
  induction pieces generalizing l paids with
  | nil =>
    obtain ⟨rfl,-⟩ := pure_eq_ok.mp h
    simp
  | cons piece rest ih =>
    obtain ⟨env,user,shares⟩ := piece
    obtain ⟨paid,m,hone,hrest⟩ := bind_eq_ok.mp h
    obtain ⟨more,u,hmore,hpure⟩ := bind_eq_ok.mp hrest
    obtain ⟨rfl,rfl⟩ := pure_eq_ok.mp hpure
    have hpos := (withdraw_paid hone).1
    have hlater := (ih hmore).1
    rw [total_cons]
    constructor
    · omega
    · intro h0
      omega

/-- Withdrawals within the supply pay together no more than the shares are worth before the
first of them. -/
theorem withdrawAll_priced {pieces : List (Env σ × Address × ℤ)} {paids : List ℤ}
    (hassets : 0 ≤ (getState l.storage).totalAssets)
    (hsupply : total pieces ≤ (getState l.storage).totalShares)
    (h : (withdrawAll pieces).run l = .ok paids t) :
    paids.sum*(getState l.storage).totalShares ≤
      total pieces*(getState l.storage).totalAssets := by
  induction pieces generalizing l paids with
  | nil =>
    obtain ⟨rfl,-⟩ := pure_eq_ok.mp h
    simp
  | cons piece rest ih =>
    obtain ⟨env,user,shares⟩ := piece
    obtain ⟨paid,m,hone,hrest⟩ := bind_eq_ok.mp h
    obtain ⟨more,u,hmore,hpure⟩ := bind_eq_ok.mp hrest
    obtain ⟨rfl,rfl⟩ := pure_eq_ok.mp hpure
    obtain ⟨hpos,worth,hworth,hpaid⟩ := withdraw_paid hone
    obtain ⟨hrestTotal,hnone⟩ := withdrawAll_total hmore
    rw [total_cons] at hsupply ⊢
    rw [List.sum_cons]
    have hS : 0 < (getState l.storage).totalShares := by omega
    obtain ⟨-,-,hportion⟩ := sharesToAssets_portion hpos.le hS hassets hworth
    rcases hpaid with ⟨-,rfl,hstate⟩ | ⟨-,rfl,hstate⟩
    · have hassets' : 0 ≤ (getState l.storage).totalAssets-paid :=
        ProRata.burn_assets_nonneg hS hassets (by omega) hportion
      have hsupply' : total rest ≤ (getState l.storage).totalShares-shares := by omega
      have hlater := ih (l := m) (by rw [hstate]; exact hassets') (by rw [hstate]; exact hsupply')
        hmore
      rw [hstate] at hlater
      by_cases hleft : 0 < (getState l.storage).totalShares-shares
      · exact ProRata.burn_split hS.le hleft (by omega) hportion hlater
      · -- the whole supply is burned, so nothing follows
        have h0 : total rest = 0 := by omega
        rw [h0,hnone h0]
        simpa using hportion
    · have hlater := ih (l := m) (by rw [hstate]; exact hassets) (by rw [hstate]; omega) hmore
      rw [hstate] at hlater
      have hqueued : 0 ≤ shares*(getState l.storage).totalAssets := mul_nonneg hpos.le hassets
      linarith

end Withdrawals

section Splitting

/-- Deposits made one after the other mint in total at most what one deposit of their sum
mints from the same state. Withdrawals made one after the other, of shares that exist, pay in
total at most what all these shares are worth there, whoever holds them; and so at most what one
withdrawal of them pays, if their worth is within the threshold above which withdrawals are
queued. -/
theorem splitting_no_gain (hassets : 0 ≤ (getState l.storage).totalAssets)
    (hsupply : 0 ≤ (getState l.storage).totalShares)
    (hpriced : 0 < (getState l.storage).totalShares → 0 < (getState l.storage).totalAssets)
    (env : Env σ) (user : Address) (pieces : List (Env σ × Address × ℤ)) :
    (∀ minted t shares u, (depositAll pieces).run l = .ok minted t →
      (deposit env user (total pieces)).run l = .ok shares u → minted.sum ≤ shares) ∧
    ∀ paids t, (withdrawAll pieces).run l = .ok paids t →
      total pieces ≤ (getState l.storage).totalShares →
      paids.sum ≤ total pieces*(getState l.storage).totalAssets /
          (getState l.storage).totalShares ∧
        ∀ paid u, (withdraw env user (total pieces)).run l = .ok paid u →
          total pieces*(getState l.storage).totalAssets / (getState l.storage).totalShares ≤
            largeWithdrawalThreshold l.storage →
          paid = total pieces*(getState l.storage).totalAssets /
              (getState l.storage).totalShares ∧ paids.sum ≤ paid := by
  constructor
  · intro minted t shares u hall hone
    obtain ⟨hamount,-,hshares⟩ := deposit_minted hone
    rcases hsupply.eq_or_lt with hempty | hpos
    · rw [assetsToShares_first hempty.symm hshares]
      exact depositAll_first hempty.symm hassets hall
    · obtain ⟨hfloor,-,-⟩ := assetsToShares_priced hamount hpos (hpriced hpos) hshares
      rw [hfloor]
      exact Int.le_ediv_of_mul_le (hpriced hpos) (depositAll_priced hpos (hpriced hpos) hall).2
  · intro paids t hall hle
    have hworth : paids.sum ≤ total pieces*(getState l.storage).totalAssets /
        (getState l.storage).totalShares := by
      rcases hsupply.eq_or_lt with hempty | hpos
      · -- no shares, so nothing is withdrawn
        obtain ⟨hnonneg,hnone⟩ := withdrawAll_total hall
        have h0 : total pieces = 0 := by omega
        rw [hnone h0,h0,zero_mul,Int.zero_ediv]
      · exact Int.le_ediv_of_mul_le hpos (withdrawAll_priced hassets hle hall)
    refine ⟨hworth,fun paid u hone hsmall => ?_⟩
    obtain ⟨hshares,worth,hpriced,hpaid⟩ := withdraw_paid hone
    have hpos : 0 < (getState l.storage).totalShares := by omega
    obtain ⟨hfloor,-,-⟩ := sharesToAssets_portion hshares.le hpos hassets hpriced
    rw [← hfloor] at hworth hsmall ⊢
    rcases hpaid with ⟨-,rfl,-⟩ | ⟨hlarge,-,-⟩
    · exact ⟨rfl,hworth⟩
    · exact absurd hlarge (not_lt.mpr hsmall)

end Splitting

section Runs

open SimpleHost

def bobEnv : Env Bank := ⟨simpleHost id 0,9,9,fun a => decide (a = bob)⟩

/-- Bob takes out 300 of his thousand shares, of 1.333 assets each, in three steps. -/
theorem sharedVault_splits :
    ∃ paids t paid u,
      (withdrawAll [(bobEnv,bob,100),(bobEnv,bob,100),(bobEnv,bob,100)]).run
        (runFrom (simpleHost id 0) bank sharedVault) = .ok paids t ∧
      (withdraw bobEnv bob 300).run (runFrom (simpleHost id 0) bank sharedVault) = .ok paid u ∧
      paid = 399 ∧ paids.sum ≤ 399 := by
  have hall : ((withdrawAll [(bobEnv,bob,100),(bobEnv,bob,100),(bobEnv,bob,100)]).run
      (runFrom (simpleHost id 0) bank sharedVault)).isOk = true := by decide +kernel
  have hone : ((withdraw bobEnv bob 300).run
      (runFrom (simpleHost id 0) bank sharedVault)).isOk = true := by decide +kernel
  obtain ⟨paids,t,hall⟩ := Outcome.isOk_iff.mp hall
  obtain ⟨paid,u,hone⟩ := Outcome.isOk_iff.mp hone
  obtain ⟨hworth,hpays⟩ := (splitting_no_gain (by decide +kernel) (by decide +kernel)
    (by decide +kernel) bobEnv bob
      [(bobEnv,bob,100),(bobEnv,bob,100),(bobEnv,bob,100)]).2 paids t hall (by decide +kernel)
  obtain ⟨hpaid,-⟩ := hpays paid u hone (by decide +kernel)
  have hassets : (getState (runFrom (simpleHost id 0) bank sharedVault).storage).totalAssets =
      1333 := by decide +kernel
  have hsupply : (getState (runFrom (simpleHost id 0) bank sharedVault).storage).totalShares =
      1000 := by decide +kernel
  rw [hassets,hsupply] at hworth hpaid
  exact ⟨paids,t,paid,u,hall,hone,hpaid,hworth⟩

/-- Bob holds a thousand shares, and withdrawals of more than 700 are queued. -/
def cautiousVault : List (Action (simpleHost id 0)) :=
  [signed admin 0 (.initializeVault admin token),
    signed bob 1 (.deposit bob 1000),
    signed admin 2 (.setting (.largeWithdrawalThreshold 700))]

/-- A ledger whose record of shares is smaller than bob's balance. -/
def overdrawnVault : Ledger Bank :=
  let l := runFrom (simpleHost id 0) bank
    [signed admin 0 (.initializeVault admin token),signed bob 1 (.deposit bob 20)]
  { l with storage := setState ⟨3,10,false⟩ (setShareBalance bob 5 l.storage) }

/-- A user gains nothing by withdrawing some shares in pieces. -/
def NoGain (l : Ledger Bank) (user : Address) (pieces : List (Env Bank × Address × ℤ)) : Prop :=
  0 ≤ (getState l.storage).totalAssets → 0 ≤ (getState l.storage).totalShares →
    (0 < (getState l.storage).totalShares → 0 < (getState l.storage).totalAssets) →
    (∀ p ∈ pieces, p.2.1 = user) → total pieces ≤ balance l.storage user →
    ∀ env paids t paid u, (withdrawAll pieces).run l = .ok paids t →
      (withdraw env user (total pieces)).run l = .ok paid u → paids.sum ≤ paid

/-- One withdrawal can be queued where its pieces are paid; and where a user holds more shares
than exist, the later pieces are paid from the others' assets. -/
theorem splitting_gains :
    (¬ ∀ l user pieces, total pieces ≤ (getState l.storage).totalShares →
      NoGain l user pieces) ∧
    ¬ ∀ l user pieces, (∀ worth, sharesToAssets (total pieces) (getState l.storage).totalShares
        (getState l.storage).totalAssets = .ok worth →
      worth ≤ largeWithdrawalThreshold l.storage) → NoGain l user pieces := by
  constructor
  · intro h
    obtain ⟨t,hall⟩ : ∃ t, (withdrawAll [(bobEnv,bob,600),(bobEnv,bob,400)]).run
        (runFrom (simpleHost id 0) bank cautiousVault) = .ok [600,400] t := ⟨_,rfl⟩
    obtain ⟨u,hone⟩ : ∃ u, (withdraw bobEnv bob 1000).run
        (runFrom (simpleHost id 0) bank cautiousVault) = .ok 0 u := ⟨_,rfl⟩
    have h1 := h _ bob [(bobEnv,bob,600),(bobEnv,bob,400)] (by decide +kernel) (by decide +kernel)
      (by decide +kernel) (by decide +kernel) (by simp) (by decide +kernel) bobEnv _ _ _ _ hall hone
    exact absurd h1 (by decide)
  · intro h
    obtain ⟨t,hall⟩ : ∃ t, (withdrawAll [(bobEnv,bob,1),(bobEnv,bob,4)]).run overdrawnVault =
        .ok [3,14] t := ⟨_,rfl⟩
    obtain ⟨u,hone⟩ : ∃ u, (withdraw bobEnv bob 5).run overdrawnVault = .ok 16 u := ⟨_,rfl⟩
    have hsmall : ∀ worth, sharesToAssets (total [(bobEnv,bob,1),(bobEnv,bob,4)])
        (getState overdrawnVault.storage).totalShares
        (getState overdrawnVault.storage).totalAssets = .ok worth →
        worth ≤ largeWithdrawalThreshold overdrawnVault.storage := by
      intro worth hworth
      have h16 : sharesToAssets 5 3 10 = .ok 16 := by decide +kernel
      obtain rfl : 16 = worth := Except.ok.inj (h16.symm.trans hworth)
      decide +kernel
    have h1 := h overdrawnVault bob [(bobEnv,bob,1),(bobEnv,bob,4)] hsmall (by decide +kernel)
      (by decide +kernel) (by decide +kernel) (by simp) (by decide +kernel) bobEnv _ _ _ _ hall hone
    exact absurd h1 (by decide)

end Runs

end YieldVault
