import YieldVault.Storage
import YieldVault.ProRata

/-! Conversion between assets and shares, and the protocol fee. -/
namespace YieldVault

open FixedWidth

def unwrap {α : Type} (o : Option α) (message : String) : Except String α :=
  match o with
  | some a => .ok a
  | none => .error message

@[simp] theorem unwrap_eq_ok {α : Type} {o : Option α} {m : String} {a : α} :
    unwrap o m = .ok a ↔ o = some a := by
  cases o <;> simp [unwrap]

/-- Shares for an asset amount, rounded down; the first deposit is one to one. -/
def assetsToShares (assets totalShares totalAssets : ℤ) : Except String ℤ :=
  if totalAssets = 0 ∨ totalShares = 0 then .ok assets
  else do
    let product ← unwrap (checkedMul 128 assets totalShares)
      "overflow in assets_to_shares multiplication"
    unwrap (checkedDiv 128 product totalAssets) "division by zero in assets_to_shares"

def sharesToAssets (shares totalShares totalAssets : ℤ) : Except String ℤ :=
  if totalShares = 0 then .ok 0
  else do
    let product ← unwrap (checkedMul 128 shares totalAssets)
      "overflow in shares_to_assets multiplication"
    unwrap (checkedDiv 128 product totalShares) "division by zero in shares_to_assets"

def bpsDenominator : ℤ := 10000

def require (c : Prop) [Decidable c] (message : String) : Except String Unit :=
  if c then .ok () else .error message

def calculateProtocolFee (amount feeBps : ℤ) : Except String (ℤ × ℤ) := do
  require (0 ≤ amount) "amount must be non-negative"
  require (0 ≤ feeBps ∧ feeBps ≤ bpsDenominator) "fee_bps out of range"
  if amount = 0 ∨ feeBps = 0 then .ok (0,amount)
  else do
    let product ← unwrap (checkedMul 128 amount feeBps) "fee overflow"
    let feeAmount := product.tdiv bpsDenominator
    let netAmount ← unwrap (checkedSub 128 amount feeAmount) "attempt to subtract with overflow"
    .ok (feeAmount,netAmount)

theorem except_bind_eq_ok {α β : Type} {x : Except String α} {f : α → Except String β} {b : β} :
    (x >>= f) = .ok b ↔ ∃ a, x = .ok a ∧ f a = .ok b := by
  cases x <;> simp [bind,Except.bind]

@[simp] theorem require_eq_ok {c : Prop} [Decidable c] {m : String} {u : Unit} :
    require c m = .ok u ↔ c := by
  by_cases h : c <;> simp [require,h]

theorem assetsToShares_eq_ok {assets totalShares totalAssets m : ℤ} :
    assetsToShares assets totalShares totalAssets = .ok m ↔
      if totalAssets = 0 ∨ totalShares = 0 then assets = m
      else I128 (assets*totalShares) ∧ I128 ((assets*totalShares).tdiv totalAssets) ∧
        (assets*totalShares).tdiv totalAssets = m := by
  unfold assetsToShares
  split_ifs with h
  · simp
  · have hA : totalAssets ≠ 0 := fun he => h (Or.inl he)
    simp [except_bind_eq_ok,hA,and_assoc]

theorem sharesToAssets_eq_ok {shares totalShares totalAssets r : ℤ} :
    sharesToAssets shares totalShares totalAssets = .ok r ↔
      if totalShares = 0 then r = 0
      else I128 (shares*totalAssets) ∧ I128 ((shares*totalAssets).tdiv totalShares) ∧
        (shares*totalAssets).tdiv totalShares = r := by
  unfold sharesToAssets
  split_ifs with h
  · simp [eq_comm]
  · simp [except_bind_eq_ok,h,and_assoc]

/-- Shares are minted for at most what the assets are worth. -/
theorem assetsToShares_portion {assets totalShares totalAssets m : ℤ} (ha : 0 < assets)
    (hS : 0 ≤ totalShares) (hA : 0 ≤ totalAssets)
    (h : assetsToShares assets totalShares totalAssets = .ok m) :
    0 ≤ m ∧ m*totalAssets ≤ assets*totalShares ∨ (totalShares = 0 ∨ totalAssets = 0) ∧ m = assets := by
  rw [assetsToShares_eq_ok] at h
  split_ifs at h with h0
  · exact Or.inr ⟨h0.symm,h.symm⟩
  · have hApos : 0 < totalAssets := lt_of_le_of_ne hA (fun he => h0 (Or.inl he.symm))
    have hp := ProRata.tdiv_portion (mul_nonneg ha.le hS) hApos
    rw [h.2.2] at hp
    exact Or.inl ⟨hp.2.1,hp.2.2.1⟩

theorem sharesToAssets_portion {shares totalShares totalAssets r : ℤ} (hs : 0 ≤ shares)
    (hS : 0 < totalShares) (hA : 0 ≤ totalAssets)
    (h : sharesToAssets shares totalShares totalAssets = .ok r) :
    r = shares*totalAssets / totalShares ∧ 0 ≤ r ∧ r*totalShares ≤ shares*totalAssets := by
  rw [sharesToAssets_eq_ok,if_neg hS.ne'] at h
  have hp := ProRata.tdiv_portion (mul_nonneg hs hA) hS
  rw [h.2.2] at hp
  exact ⟨hp.1,hp.2.1,hp.2.2.1⟩

/-- The floor of a fee of at most 100%: fee and net are parts of the amount. -/
theorem fee_split {amount bps : ℤ} (ha : 0 ≤ amount) (hb : 0 ≤ bps) (hm : bps ≤ 10000) :
    0 ≤ (amount*bps).tdiv bpsDenominator ∧ (amount*bps).tdiv bpsDenominator ≤ amount := by
  have hp := ProRata.tdiv_portion (S := bpsDenominator) (mul_nonneg ha hb) (by decide)
  have hd : bpsDenominator = 10000 := rfl
  refine ⟨hp.2.1,?_⟩
  rw [hd] at hp ⊢
  nlinarith [hp.2.2.1,mul_le_mul_of_nonneg_left hm ha]

theorem calculateProtocolFee_eq_ok {amount feeBps fee net : ℤ}
    (h : calculateProtocolFee amount feeBps = .ok (fee,net)) :
    fee = (amount*feeBps).tdiv bpsDenominator ∧ net = amount-fee ∧ 0 ≤ fee ∧ 0 ≤ net := by
  simp only [calculateProtocolFee,except_bind_eq_ok,require_eq_ok] at h
  obtain ⟨_,ha,_,hb,h⟩ := h
  have hf := fee_split ha hb.1 hb.2
  split_ifs at h with h0
  · simp only [Except.ok.injEq,Prod.mk.injEq] at h
    obtain ⟨rfl,rfl⟩ := h
    rcases h0 with rfl | rfl <;> simp [ha]
  · simp only [except_bind_eq_ok,unwrap_eq_ok,checkedMul_eq_some,checkedSub_eq_some,
      Except.ok.injEq,Prod.mk.injEq] at h
    obtain ⟨_,⟨_,rfl⟩,_,⟨_,rfl⟩,rfl,rfl⟩ := h
    exact ⟨rfl,rfl,hf.1,by omega⟩

end YieldVault
