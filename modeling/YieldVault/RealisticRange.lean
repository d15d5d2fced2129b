import YieldVault.ArithmeticSafety
import YieldVault.SharePrice

/-! The realistic range: every amount and every total that is reached is at most the limit of a
classic asset. In such runs no arithmetic traps, except that of the running totals and, within
a batch, beyond the limit. -/
namespace YieldVault

open FixedWidth Contract

variable {σ : Type} {host : Host σ} {env : Env σ} {chain : σ} {l t : Ledger σ}

def Call.amounts : Call → List ℤ
  | .deposit _ amount | .accrueYield amount | .reportBenjiYield _ amount => [amount]
  | .batchDeposit _ entries => entries.map DepositEntry.amount
  | _ => []

def Call.offered (call : Call) : ℤ := (call.amounts.map fun amount => max amount 0).sum

/-- An ordinary action whose amounts, and the total that it leaves, are within the limit. -/
def Realistic (l : Ledger σ) : Action host → Prop
  | .invoke inv => (inv.call.isOperation = true ∨ inv.call.isOffice = true) ∧
      (∀ amount ∈ inv.call.amounts, amount ≤ classicLimit) ∧
      (getState (step host (.invoke inv) l).storage).totalAssets ≤ classicLimit
  | .outside _ => True

instance (l : Ledger σ) : (a : Action host) → Decidable (Realistic l a)
  | .invoke _ => inferInstanceAs (Decidable (_ ∧ _))
  | .outside _ => inferInstanceAs (Decidable True)

theorem Realistic.ordinary {a : Action host} (h : Realistic l a) : Ordinary l a := by
  cases a with
  | outside c => trivial
  | invoke inv => exact h.1

/-- The running totals that a call adds to stay within `i128`: what the user has deposited, the
fees in the treasury, what a strategy has reported. -/
def TotalsFit (s : Storage) : Call → Prop
  | .deposit user amount => 0 < amount → userDeposit s user+amount ≤ i128Max
  | .batchDeposit _ entries => ∀ user, userDeposit s user+entered user entries ≤ i128Max
  | .accrueYield amount => 0 < amount →
      treasuryBalance s+(amount*feeBps s).tdiv bpsDenominator ≤ i128Max
  | .reportBenjiYield strategy amount => 0 < amount →
      treasuryBalance s+(amount*feeBps s).tdiv bpsDenominator ≤ i128Max ∧
        strategyWatermark s strategy+amount ≤ i128Max
  | _ => True

/-- What the limit and the clock leave to a call: the record of a batch stays within the limit
up to every entry, and the sum of two times in the check of the cooldown is a `u64`. -/
def Confined (env : Env σ) (l : Ledger σ) : Call → Prop
  | .batchDeposit _ entries => ∀ token, l.storage.tokenAsset = some token →
      InMemory env token (minDeposit l.storage) (perUserCap l.storage) entries
        ⟨getState l.storage,⟨[],0,0,0⟩⟩ l
  | .withdraw user _ => CooldownFits user l.storage
  | _ => True

theorem entered_le_offered (relayer user : Address) (entries : List DepositEntry) :
    entered user entries ≤ (Call.batchDeposit relayer entries).offered := by
  induction entries with
  | nil => exact le_rfl
  | cons entry entries ih =>
    have hmax := le_max_right entry.amount 0
    rw [entered_cons]
    simp only [Call.offered,Call.amounts,List.map_cons,List.sum_cons] at ih ⊢
    split_ifs <;> omega

theorem Totalled.fits (h : Totalled host l) {call : Call}
    (hfits : received host.vault l.log+call.offered ≤ i128Max) : TotalsFit l.storage call := by
  have hfee : ∀ {amount : ℤ}, 0 < amount →
      (amount*feeBps l.storage).tdiv bpsDenominator ≤ amount := fun hpos =>
    (fee_bounds hpos rfl).2
  have htreasury := h.treasury.2
  cases call with
  | deposit user amount =>
    intro hpos
    have huser := (h.deposits user).2
    simp [Call.offered,Call.amounts] at hfits
    omega
  | batchDeposit relayer entries =>
    intro user
    have huser := (h.deposits user).2
    have hentered := entered_le_offered relayer user entries
    omega
  | accrueYield amount =>
    intro hpos
    have hless := hfee hpos
    simp [Call.offered,Call.amounts] at hfits
    omega
  | reportBenjiYield strategy amount =>
    intro hpos
    have hless := hfee hpos
    have hmark := (h.watermarks strategy).2
    simp [Call.offered,Call.amounts] at hfits
    exact ⟨by omega,by omega⟩
  | _ => trivial

theorem Steady.ranged (h : Steady host l)
    (hlimit : (getState l.storage).totalAssets ≤ classicLimit) :
    Ranged (getState l.storage) l.storage :=
  ⟨h.floored.sound.supply,h.floored.floor,hlimit,h.floored.idle,h.floored.sound.balanced.stored,
    fun user => ⟨h.floored.sound.balance user,h.floored.sound.balance_le user⟩,
    fun user => (h.totalled.deposits user).1⟩

/-- A confined operation on a steady ledger does not end in an arithmetic trap. -/
theorem Steady.safe (h : Steady host l) (hstored : StoredInRange l.storage)
    (hlimit : (getState l.storage).totalAssets ≤ classicLimit) {call : Call}
    (hop : call.isOperation = true) (ha : ∀ amount ∈ call.amounts, amount ≤ classicLimit)
    (hc : Confined env l call) (ht : TotalsFit l.storage call) :
    Avoids IsArithmetic (dispatch env call) l := by
  have hr := h.ranged hlimit
  cases call with
  | deposit user amount =>
    exact avoids_map.mpr (deposit_safe hr (ha amount (List.mem_singleton.mpr rfl)) ht)
  | batchDeposit relayer entries =>
    exact avoids_map.mpr (batchDeposit_safe hr h.unlimited.batch
      (fun entry he => ha entry.amount (List.mem_map.mpr ⟨entry,he,rfl⟩)) ht hc)
  | withdraw user shares =>
    exact avoids_map.mpr
      (withdraw_safe hr (hstored.deposits user) h.unlimited.threshold (checkCooldown_safe hc))
  | accrueYield amount =>
    exact avoids_map.mpr (accrueYield_safe hr (ha amount (List.mem_singleton.mpr rfl)) ht
      h.totalled.treasury.1)
  | reportBenjiYield strategy amount =>
    exact avoids_map.mpr (reportBenjiYield_safe hr (ha amount (List.mem_singleton.mpr rfl))
      (fun hpos => (ht hpos).1) h.totalled.treasury.1 (fun hpos => (ht hpos).2)
      (h.totalled.watermarks strategy).1)
  | _ => exact absurd hop Bool.false_ne_true

/-- In every run within the realistic range there are never more shares than assets, the price
can be computed, and no operation ends in an arithmetic trap while the running totals fit; and
these fit as long as what the vault has received and is offered does. -/
theorem realistic_arithmetic {acts : List (Action host)}
    (ha : Runs.Along (step host) Realistic (genesis chain) acts) :
    (getState (runFrom host chain acts).storage).totalShares ≤
        (getState (runFrom host chain acts).storage).totalAssets ∧
      (∃ price, sharePrice (runFrom host chain acts).storage = .ok price) ∧
      ∀ inv : Invocation host.vault, inv.call.isOperation = true →
        (∀ amount ∈ inv.call.amounts, amount ≤ classicLimit) →
        Confined inv.env (runFrom host chain acts) inv.call →
          (TotalsFit (runFrom host chain acts).storage inv.call →
            Avoids IsArithmetic (dispatch inv.env inv.call) (runFrom host chain acts)) ∧
          (received host.vault (runFrom host chain acts).log+inv.call.offered ≤ i128Max →
            TotalsFit (runFrom host chain acts).storage inv.call) := by
  have hsteady : Steady host (runFrom host chain acts) :=
    run_steady (ha.mono fun _ _ h => Realistic.ordinary h)
  have hlimit : (getState (runFrom host chain acts).storage).totalAssets ≤ classicLimit := by
    have hbound : ∀ l a, (getState l.storage).totalAssets ≤ classicLimit → Realistic l a →
        (getState (step host a l).storage).totalAssets ≤ classicLimit := by
      intro l a h hg
      cases a with
      | outside c => exact h
      | invoke inv => exact hg.2.2
    exact ha.invariant hbound (by change 0 ≤ classicLimit; decide)
  have hdouble : classicLimit ≤ 2*classicLimit := by decide
  have hsupply := hsteady.floored.sound.supply
  refine ⟨hsteady.floored.floor,?_,fun inv hop hamounts hc => ⟨fun ht => ?_,fun hfits => ?_⟩⟩
  · unfold sharePrice
    split_ifs with hzero
    · exact ⟨0,rfl⟩
    · exact scaledPrice_total (lt_of_le_of_ne hsupply (Ne.symm hzero)) hsteady.floored.floor
        (hlimit.trans hdouble)
  · exact hsteady.safe (run_inRange chain acts) hlimit hop hamounts hc ht
  · exact hsteady.totalled.fits hfits

section Runs

open SimpleHost

theorem yieldRun_realistic :
    Runs.Along (step (simpleHost id 0)) Realistic (genesis bank) yieldRun :=
  ⟨by decide +kernel,by decide +kernel,by decide +kernel,trivial⟩

def aliceLeaves : Invocation (simpleHost id 0).vault := signedCall alice 3 (.withdraw alice 300)

theorem yieldRun_arithmetic :
    (getState (runFrom (simpleHost id 0) bank yieldRun).storage).totalShares ≤
        (getState (runFrom (simpleHost id 0) bank yieldRun).storage).totalAssets ∧
      Avoids IsArithmetic
        (dispatch aliceLeaves.env aliceLeaves.call) (runFrom (simpleHost id 0) bank yieldRun) := by
  obtain ⟨hfloor,-,hsafe⟩ := realistic_arithmetic yieldRun_realistic
  exact ⟨hfloor,(hsafe aliceLeaves rfl (by decide)
    fun h => absurd h (by decide +kernel)).1 trivial⟩

def richBank : Bank :=
  ⟨fun holder => if holder = admin ∨ holder = alice then 2^100 else 0,fun _ => 0⟩

def relayedRun : List (Action (simpleHost id 0)) :=
  [signed admin 0 (.initializeVault admin token),
    signed admin 1 (.setting (.relayer relayer true))]

/-- Four deposits of alice, each of the limit, that she and the relayer have signed. -/
def largeBatch : Invocation (simpleHost id 0).vault :=
  ⟨2,2,fun a => decide (a = relayer ∨ a = alice),by decide,
    .batchDeposit relayer (List.replicate 4 ⟨alice,classicLimit⟩)⟩

theorem largeBatch_traps :
    (dispatch largeBatch.env largeBatch.call).run (runFrom (simpleHost id 0) richBank relayedRun) =
      .panic "overflow in assets_to_shares multiplication" := rfl

/-- A vault whose whole yield is a fee, and an admin who can pay the yield. -/
structure Earning (earned : ℤ) (l : Ledger Bank) : Prop where
  office : l.storage.proxy.admin = some admin
  asset : l.storage.tokenAsset = some token
  fee : feeBps l.storage = 10000
  state : getState l.storage = ⟨0,0,false⟩
  idle : idleAssets l.storage = 0
  treasury : treasuryBalance l.storage = earned
  purse : l.chain = richBank

def wholeYield : Invocation (simpleHost id 0).vault :=
  signedCall admin 2 (.accrueYield classicLimit)

def treasuryRun : List (Action (simpleHost id 0)) :=
  [signed admin 0 (.initializeVault admin token),signed admin 1 (.setting (.feeBps 10000))]

/-- Yields that go to the treasury, after each of which the issuer claws the tokens back. -/
def clawedYields : ℕ → List (Action (simpleHost id 0))
  | 0 => []
  | n+1 => .invoke wholeYield :: .outside richBank :: clawedYields n

variable {earned : ℤ} {l t : Ledger Bank}

theorem fee_whole : (classicLimit*10000).tdiv bpsDenominator = classicLimit := by decide

/-- The yield is accrued or the sum of the treasury traps. -/
theorem Earning.accrues (h : Earning earned l) :
    (I128 (earned+classicLimit) →
        ∃ t, (accrueYield wholeYield.env classicLimit).run l = .ok () t) ∧
      (¬ I128 (earned+classicLimit) →
        (accrueYield wholeYield.env classicLimit).run l = .panic "overflow") := by
  obtain ⟨c,hpaid⟩ : ∃ c, (simpleHost id 0).transfer token admin ⟨0⟩ classicLimit richBank =
      some c :=
    Option.isSome_iff_exists.mp (by decide)
  have hpos : 0 < classicLimit := by decide
  have hproduct : I128 (classicLimit*10000) := by decide
  have hauth : wholeYield.env.auth admin = true := by decide
  have hhost : wholeYield.env.host = simpleHost id 0 := rfl
  have hvault : (simpleHost id 0).vault = ⟨0⟩ := rfl
  constructor
  · intro hfits
    simp [accrueYield,loadToken_ok,tokenTransfer,creditIdle_ok,creditTreasury_ok,checkPrice_ok,
      priceBefore,h.office,hauth,hpos,h.fee,hproduct,fee_whole,fits_zero,h.asset,h.treasury,
      hfits,h.idle,h.state,hhost,hvault,h.purse,hpaid]
  · intro hfits
    simp [accrueYield,loadToken,tokenTransfer,creditTreasury,h.office,hauth,hpos,h.fee,
      hproduct,fee_whole,h.asset,h.treasury,hhost,hvault,h.purse,hpaid]
    exact ⟨fits_zero 128,Or.inl (Or.inl (if_neg hfits))⟩

theorem Earning.credited (h : Earning earned l)
    (hrun : (accrueYield wholeYield.env classicLimit).run l = .ok () t) :
    Earning (earned+classicLimit) { t with chain := richBank } := by
  obtain ⟨_,_,fee,c,-,-,-,hfee,-,-,-,-,-,rfl⟩ := accrueYield_ok hrun
  rw [h.fee,fee_whole] at hfee
  subst hfee
  have hpos : 0 < classicLimit := by decide
  refine ⟨h.office,h.asset,h.fee,?_,?_,?_,rfl⟩
  · change ({ getState l.storage with totalAssets :=
      (getState l.storage).totalAssets+(classicLimit-classicLimit) } : VaultState) = _
    rw [h.state]
    rfl
  · change idleAssets l.storage+(classicLimit-classicLimit) = 0
    rw [h.idle]
    rfl
  · change (if 0 < classicLimit then some (treasuryBalance l.storage+classicLimit)
      else l.storage.treasuryBalance).getD 0 = _
    rw [if_pos hpos,h.treasury]
    rfl

theorem Earning.round (h : Earning earned l) (hfits : I128 (earned+classicLimit)) :
    Realistic l (.invoke wholeYield : Action (simpleHost id 0)) ∧
      Earning (earned+classicLimit)
        { step (simpleHost id 0) (.invoke wholeYield) l with chain := richBank } := by
  obtain ⟨t,ht⟩ := h.accrues.1 hfits
  have hstep : step (simpleHost id 0) (.invoke wholeYield) l = t := by
    change settle l ((dispatch wholeYield.env (.accrueYield classicLimit)).run l) = t
    rw [dispatch,map_eq_ok.mpr ⟨(),ht,rfl⟩]
    rfl
  have hnext := h.credited ht
  have hassets : (getState t.storage).totalAssets = 0 :=
    congrArg VaultState.totalAssets hnext.state
  refine ⟨⟨Or.inl rfl,fun amount ha => (List.mem_singleton.mp ha).le,?_⟩,?_⟩
  · rw [hstep,hassets]
    decide
  · rw [hstep]
    exact hnext

theorem Earning.rounds (n : ℕ) (h : Earning earned l) (h0 : 0 ≤ earned)
    (hfits : I128 (earned+n*classicLimit)) :
    Runs.Along (step (simpleHost id 0)) Realistic l (clawedYields n) ∧
      Earning (earned+n*classicLimit) (Runs.run (step (simpleHost id 0)) (clawedYields n) l) := by
  have hlimit : 0 ≤ classicLimit := by decide
  induction n generalizing earned l with
  | zero =>
    rw [Nat.cast_zero,zero_mul,add_zero]
    exact ⟨trivial,h⟩
  | succ n ih =>
    have hsum : earned+((n+1 : ℕ) : ℤ)*classicLimit = earned+classicLimit+n*classicLimit := by
      push_cast
      ring
    have hrest : 0 ≤ (n : ℤ)*classicLimit := by positivity
    rw [hsum] at hfits ⊢
    have hfirst : I128 (earned+classicLimit) :=
      (fits_zero 128).between hfits (by omega) (by omega)
    obtain ⟨hreal,hnext⟩ := h.round hfirst
    obtain ⟨halong,hlast⟩ := ih hnext (by omega) hfits
    exact ⟨⟨hreal,trivial,halong⟩,hlast⟩

theorem treasuryRun_earning :
    Runs.Along (step (simpleHost id 0)) Realistic (genesis richBank) treasuryRun ∧
      Earning 0 (Runs.run (step (simpleHost id 0)) treasuryRun (genesis richBank)) :=
  ⟨⟨by decide +kernel,by decide +kernel,trivial⟩,⟨rfl,rfl,rfl,rfl,rfl,rfl,rfl⟩⟩

theorem relayedRun_realistic :
    Runs.Along (step (simpleHost id 0)) Realistic (genesis richBank) relayedRun :=
  ⟨by decide +kernel,by decide +kernel,trivial⟩

/-- Runs within the range in which a batch traps in its conversion, and in which a yield traps
in the sum of the treasury after `2^64+2` earlier ones. -/
theorem realistic_overflows :
    (Runs.Along (step (simpleHost id 0)) Realistic (genesis richBank) relayedRun ∧
      (∀ amount ∈ largeBatch.call.amounts, amount ≤ classicLimit) ∧
      ¬ Avoids IsArithmetic (dispatch largeBatch.env largeBatch.call)
        (runFrom (simpleHost id 0) richBank relayedRun)) ∧
    Runs.Along (step (simpleHost id 0)) Realistic (genesis richBank)
        (treasuryRun ++ clawedYields (2^64+2)) ∧
      (∀ amount ∈ wholeYield.call.amounts, amount ≤ classicLimit) ∧
      ¬ Avoids IsArithmetic (dispatch wholeYield.env wholeYield.call)
        (runFrom (simpleHost id 0) richBank (treasuryRun ++ clawedYields (2^64+2))) := by
  obtain ⟨hearly,hstart⟩ := treasuryRun_earning
  have hmany : ∀ n : ℕ, n = 2^64+2 → I128 (0+(n : ℤ)*classicLimit) ∧
      ¬ I128 (0+(n : ℤ)*classicLimit+classicLimit) := by
    rintro n rfl
    rw [classicLimit]
    norm_num [Fits]
  generalize 2^64+2 = n at hmany ⊢
  obtain ⟨hfits,hover⟩ := hmany n rfl
  obtain ⟨halong,hlast⟩ := hstart.rounds n le_rfl hfits
  refine ⟨⟨relayedRun_realistic,by decide,fun h => ?_⟩,?_,by decide,fun h => ?_⟩
  · exact h _ (by decide) largeBatch_traps
  · exact Runs.along_append.mpr ⟨hearly,halong⟩
  · rw [runFrom,Runs.run_append] at h
    exact avoids_map.mp h "overflow" (by decide) (hlast.accrues.2 hover)

end Runs

end YieldVault
