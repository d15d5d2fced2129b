import YieldVault.Splitting

/-! The two ways in which yield arrives: paid in by the admin, or reported by the BENJI
strategy. Both take the same fee and book the same amounts, and the fees of several yields
fall short of the fee of their sum by rounding only. -/
namespace YieldVault

open FixedWidth Contract

variable {σ : Type} {env env' : Env σ} {l m t t' : Ledger σ}

/-- A yield as it arrives at one of the two entry points. -/
inductive YieldCall
  | accrue (amount : ℤ)
  | benji (strategy : Address) (amount : ℤ)

def YieldCall.amount : YieldCall → ℤ
  | .accrue amount => amount
  | .benji _ amount => amount

def YieldCall.run (env : Env σ) : YieldCall → VaultM σ Unit
  | .accrue amount => accrueYield env amount
  | .benji strategy amount => reportBenjiYield env strategy amount

/-- Yields one after another, with their amounts. Whatever happens between them leaves the rate
of the fee and the treasury alone. -/
inductive Yields : Ledger σ → List ℤ → Ledger σ → Prop
  | done (l : Ledger σ) : Yields l [] l
  | yield {l m t : Ledger σ} {amounts : List ℤ} {env : Env σ} {u : Unit} (call : YieldCall)
      (h : (call.run env).run l = .ok u m) (rest : Yields m amounts t) :
      Yields l (call.amount :: amounts) t
  | between {l m t : Ledger σ} {amounts : List ℤ} (fee : feeBps m.storage = feeBps l.storage)
      (treasury : treasuryBalance m.storage = treasuryBalance l.storage)
      (rest : Yields m amounts t) : Yields l amounts t

def feeOf (amount bps : ℤ) : ℤ := amount*bps / bpsDenominator

/-- What both entry points do to the totals: the fee goes to the treasury, the rest to the
assets that shares are priced with and to the idle balance. -/
structure YieldBooked (amount : ℤ) (s s' : Storage) : Prop where
  positive : 0 < amount
  state : getState s' = { getState s with
    totalAssets := (getState s).totalAssets+(amount-feeOf amount (feeBps s)) }
  idle : idleAssets s' = idleAssets s+(amount-feeOf amount (feeBps s))
  treasury : treasuryBalance s' = treasuryBalance s+feeOf amount (feeBps s)
  stored : storedTotalShares s' = storedTotalShares s
  fee : feeBps s' = feeBps s

theorem eq_feeOf {amount fee : ℤ} {s : Storage} (hpos : 0 < amount)
    (hfee : fee = (amount*feeBps s).tdiv bpsDenominator) :
    fee = feeOf amount (feeBps s) ∧ 0 ≤ fee := by
  refine ⟨hfee.trans ?_,(fee_bounds hpos hfee).1⟩
  exact Int.tdiv_eq_ediv_of_nonneg (mul_nonneg hpos.le (feeBps_nonneg s))

theorem accrueYield_yieldBooked {amount : ℤ} {u : Unit}
    (h : (accrueYield env amount).run l = .ok u t) : YieldBooked amount l.storage t.storage := by
  obtain ⟨_,_,fee,c,-,-,hpos,hfee,-,-,-,-,-,rfl⟩ := accrueYield_ok h
  obtain ⟨rfl,hnonneg⟩ := eq_feeOf hpos hfee
  exact ⟨hpos,rfl,rfl,treasuryBalance_creditedTreasury hnonneg _,rfl,rfl⟩

theorem reportBenjiYield_yieldBooked {strategy : Address} {amount : ℤ} {u : Unit}
    (h : (reportBenjiYield env strategy amount).run l = .ok u t) :
    YieldBooked amount l.storage t.storage := by
  obtain ⟨_,fee,c,-,hpos,-,hfee,-,-,-,-,-,-,rfl⟩ := reportBenjiYield_ok h
  obtain ⟨rfl,hnonneg⟩ := eq_feeOf hpos hfee
  exact ⟨hpos,rfl,rfl,treasuryBalance_creditedTreasury hnonneg _,rfl,rfl⟩

theorem YieldCall.run_booked {call : YieldCall} {u : Unit} (h : (call.run env).run l = .ok u t) :
    YieldBooked call.amount l.storage t.storage := by
  cases call with
  | accrue amount => exact accrueYield_yieldBooked h
  | benji strategy amount => exact reportBenjiYield_yieldBooked h

/-- Several yields add the rounded-down fee of each to the treasury. -/
theorem Yields.treasury_eq {amounts : List ℤ} (h : Yields l amounts t) :
    treasuryBalance t.storage = treasuryBalance l.storage+
      (ProRata.floors amounts (feeBps l.storage) bpsDenominator).sum := by
  induction h with
  | done l => simp [ProRata.floors]
  | yield call hone _ ih =>
    have hbooked := YieldCall.run_booked hone
    rw [hbooked.fee,hbooked.treasury] at ih
    rw [ih]
    simp only [ProRata.floors,List.map_cons,List.sum_cons,feeOf]
    ring
  | between hfee htreasury _ ih => rw [ih,hfee,htreasury]

/-- From one state both entry points book the same amounts, with the fee rounded down and the
rest kept; the storage differs in the watermark of the strategy only, and the tokens come from
different payers. Over `n` yields at one rate the treasury grows by at most the fee on their sum,
rounded down, and falls short of it by less than `n`. -/
theorem yieldPaths_agree :
    (∀ (env env' : Env σ) (l t t' : Ledger σ) (strategy : Address) (amount : ℤ) (u u' : Unit),
      (accrueYield env amount).run l = .ok u t →
      (reportBenjiYield env' strategy amount).run l = .ok u' t' →
        YieldBooked amount l.storage t.storage ∧
        t'.storage = { t.storage with strategyWatermark := t'.storage.strategyWatermark } ∧
        (∀ other, other ≠ strategy →
          strategyWatermark t'.storage other = strategyWatermark t.storage other) ∧
        ∃ admin token, l.storage.proxy.admin = some admin ∧
          l.storage.benjiStrategy = some strategy ∧
          .transfer token admin env.host.vault amount ∈ t.log ∧
          .transfer token strategy env'.host.vault amount ∈ t'.log) ∧
    ∀ (l t : Ledger σ) (amounts : List ℤ), Yields l amounts t →
      let fees := treasuryBalance t.storage-treasuryBalance l.storage
      fees ≤ feeOf amounts.sum (feeBps l.storage) ∧
        (amounts ≠ [] → feeOf amounts.sum (feeBps l.storage)-amounts.length < fees) := by
  constructor
  · intro env env' l t t' strategy amount u u' haccrue hreport
    refine ⟨accrueYield_yieldBooked haccrue,?_⟩
    obtain ⟨admin,token,fee,c,hadmin,-,-,hfee,htoken,-,-,-,-,rfl⟩ := accrueYield_ok haccrue
    obtain ⟨token',fee',c',-,-,hbenji,hfee',htoken',-,-,-,-,-,rfl⟩ := reportBenjiYield_ok hreport
    obtain rfl : fee = fee' := hfee.trans hfee'.symm
    obtain rfl : token = token' := Option.some.inj (htoken.symm.trans htoken')
    refine ⟨rfl,fun other hne => ?_,admin,token,hadmin,hbenji,?_,?_⟩
    · unfold raisedWatermark strategyWatermark
      split_ifs <;> simp [creditedYield,setState,setIdleAssets,creditedTreasury,hne]
    · exact List.mem_append_right _ List.mem_cons_self
    · exact List.mem_append_right _ List.mem_cons_self
  · intro l t amounts h fees
    have hpos : 0 < bpsDenominator := by decide
    have hfees : fees = (ProRata.floors amounts (feeBps l.storage) bpsDenominator).sum := by
      have hgrowth := h.treasury_eq
      omega
    rw [hfees]
    refine ⟨Int.le_ediv_of_mul_le hpos (ProRata.floors_sum_mul_le hpos),fun hne => ?_⟩
    have hup := ProRata.lt_floors_sum_mul (A := feeBps l.storage) hpos hne
    exact sub_lt_iff_lt_add.mpr (Int.ediv_lt_of_lt_mul hpos hup)

section Runs

open SimpleHost

/-- A vault with a fee of 3.33%, where the DAO has chosen bob as the BENJI strategy. -/
def feeVault : List (Action (simpleHost id 0)) :=
  [signed admin 0 (.initializeVault admin token),
    signed admin 1 (.setting (.feeBps 333)),
    signed alice 2 (.createStrategyProposal alice bob),
    signed alice 3 (.voteOnProposal alice 1 true 12),
    signed alice 4 (.executeStrategyProposal 1),
    signed alice 5 (.deposit alice 1000)]

def adminEnv : Env Bank := ⟨simpleHost id 0,9,9,fun a => decide (a = admin)⟩

/-- A hundred arrive at either entry point, and a hundred and then fifty at both. -/
theorem feeVault_yields :
    ∃ t t' t'',
      (accrueYield adminEnv 100).run (runFrom (simpleHost id 0) bank feeVault) = .ok () t ∧
      (reportBenjiYield bobEnv bob 100).run (runFrom (simpleHost id 0) bank feeVault) =
        .ok () t' ∧
      (reportBenjiYield bobEnv bob 50).run t = .ok () t'' ∧
      t'.storage = { t.storage with strategyWatermark := t'.storage.strategyWatermark } ∧
      treasuryBalance t''.storage-treasuryBalance
        (runFrom (simpleHost id 0) bank feeVault).storage ≤ feeOf 150 333 := by
  have haccrue : ((accrueYield adminEnv 100).run
      (runFrom (simpleHost id 0) bank feeVault)).isOk = true := by decide +kernel
  have hreport : ((reportBenjiYield bobEnv bob 100).run
      (runFrom (simpleHost id 0) bank feeVault)).isOk = true := by decide +kernel
  have hboth : (settle (runFrom (simpleHost id 0) bank feeVault)
      ((accrueYield adminEnv 100).run (runFrom (simpleHost id 0) bank feeVault)) |>
        (reportBenjiYield bobEnv bob 50).run).isOk = true := by decide +kernel
  obtain ⟨u,t,haccrue⟩ := Outcome.isOk_iff.mp haccrue
  obtain ⟨u',t',hreport⟩ := Outcome.isOk_iff.mp hreport
  rw [haccrue] at hboth
  obtain ⟨u'',t'',hboth⟩ := Outcome.isOk_iff.mp hboth
  have hyields : Yields (runFrom (simpleHost id 0) bank feeVault) [100,50] t'' :=
    .yield (.accrue 100) haccrue (.yield (.benji bob 50) hboth (.done _))
  exact ⟨t,t',t'',haccrue,hreport,hboth,
    (yieldPaths_agree.1 adminEnv bobEnv _ t t' bob 100 u u' haccrue hreport).2.1,
    (yieldPaths_agree.2 _ t'' _ hyields).1⟩

/-- Without any yield the treasury does not grow, and so not by more than nothing. -/
theorem noYields_growth : ¬ ∀ (l t : Ledger Bank) (amounts : List ℤ), Yields l amounts t →
    feeOf amounts.sum (feeBps l.storage)-amounts.length <
      treasuryBalance t.storage-treasuryBalance l.storage := by
  intro h
  have h1 := h (genesis bank) (genesis bank) [] (.done _)
  exact absurd h1 (by decide)

end Runs

end YieldVault
