import YieldVault.ShareMath
import YieldVault.Runs
import Mathlib.Topology.Algebra.InfiniteSum.Group
import Mathlib.Topology.Algebra.InfiniteSum.Order
import Mathlib.Topology.Instances.Int

/-! What the vault is for, without storage slots, tokens or callers: books that
say who owns how many shares of which assets, and the entries that may be made
in them. The sum over all holders is an infinite sum of integers, so it says
that only finitely many hold anything. -/
namespace YieldVault

structure Books where
  balance : Address → ℤ
  supply : ℤ
  storedSupply : ℤ
  assets : ℤ
  idle : ℤ
  treasury : ℤ
  /-- What was placed with strategies, less what was recalled from them. -/
  principal : ℤ
  paused : Bool
  /-- Who was paid how much for how many shares, newest first. -/
  payouts : List (Address × ℤ × ℤ)

inductive Entry
  | mint (user : Address) (amount shares stored : ℤ)
  | burn (user : Address) (shares paid : ℤ)
  | yield (net fee : ℤ)
  | harvest (amount : ℤ)
  | invest (amount : ℤ)
  | divest (amount : ℤ)
  | rebalance (recalled placed : ℤ)
  | claim
  | setPaused (paused : Bool)

namespace Books

def post : Entry → Books → Books
  | .mint user amount shares stored, b => { b with
      balance := Function.update b.balance user (b.balance user+shares)
      supply := b.supply+shares, storedSupply := stored
      assets := b.assets+amount, idle := b.idle+amount }
  | .burn user shares paid, b => { b with
      balance := Function.update b.balance user (b.balance user-shares)
      supply := b.supply-shares, storedSupply := b.supply-shares
      assets := b.assets-paid, idle := b.idle-paid
      payouts := (user,paid,shares) :: b.payouts }
  | .yield net fee, b => { b with
      assets := b.assets+net, idle := b.idle+net, treasury := b.treasury+fee }
  | .harvest amount, b => { b with assets := b.assets+amount }
  | .invest amount, b => { b with idle := b.idle-amount, principal := b.principal+amount }
  | .divest amount, b => { b with idle := b.idle+amount, principal := b.principal-amount }
  | .rebalance recalled placed, b => { b with principal := b.principal-recalled+placed }
  | .claim, b => { b with treasury := 0 }
  | .setPaused paused, b => { b with paused := paused }

def Admits (b : Books) : Entry → Prop
  | .mint _ amount shares stored => b.paused = false ∧ 0 < amount ∧ shares ≠ 0 ∧
      assetsToShares amount b.supply b.assets = .ok shares ∧
      (stored = b.supply+shares ∨ stored = b.storedSupply+shares)
  | .burn _ shares paid => 0 < shares ∧ sharesToAssets shares b.supply b.assets = .ok paid
  | .yield net fee => 0 ≤ net ∧ 0 ≤ fee
  | .harvest amount => 0 < amount
  | .invest amount => 0 < amount ∧ amount ≤ b.idle
  | .divest _ => True
  | .rebalance recalled _ => 0 < recalled
  | .claim => b.treasury ≠ 0
  | .setPaused _ => True

structure InRange (b : Books) : Prop where
  balance : ∀ user, I128 (b.balance user)
  supply : I128 b.supply
  assets : I128 b.assets
  idle : I128 b.idle
  treasury : I128 b.treasury

structure Valid (b : Books) (e : Entry) : Prop where
  admits : b.Admits e
  inRange : InRange b → InRange (post e b)

/-- A page of entries, each valid where it is made. -/
abbrev ValidPage (es : List Entry) (b : Books) : Prop := Runs.Along post Valid b es

abbrev postAll (es : List Entry) (b : Books) : Books := Runs.run post es b

section Supply

/-- The supply is the sum of the balances, in both places where it is kept. -/
structure Balanced (b : Books) : Prop where
  sum : HasSum b.balance b.supply
  stored : b.storedSupply = b.supply

theorem Balanced.post {b : Books} {e : Entry} (hb : Balanced b) (he : Valid b e) :
    Balanced (post e b) := by
  cases e with
  | mint user amount shares stored =>
    have h1 := hb.sum.update user (b.balance user+shares)
    have h2 : b.balance user+shares-b.balance user+b.supply = b.supply+shares := by ring
    rw [h2] at h1
    refine ⟨h1,?_⟩
    rcases he.admits.2.2.2.2 with h | h
    · exact h
    · change stored = b.supply+shares
      rw [h,hb.stored]
  | burn user shares paid =>
    have h1 := hb.sum.update user (b.balance user-shares)
    have h2 : b.balance user-shares-b.balance user+b.supply = b.supply-shares := by ring
    rw [h2] at h1
    exact ⟨h1,rfl⟩
  | yield net fee => exact ⟨hb.sum,hb.stored⟩
  | harvest amount => exact ⟨hb.sum,hb.stored⟩
  | invest amount => exact ⟨hb.sum,hb.stored⟩
  | divest amount => exact ⟨hb.sum,hb.stored⟩
  | rebalance recalled placed => exact ⟨hb.sum,hb.stored⟩
  | claim => exact ⟨hb.sum,hb.stored⟩
  | setPaused paused => exact ⟨hb.sum,hb.stored⟩

end Supply

section Price

/-- Shares are outstanding only against assets. -/
structure Priced (b : Books) : Prop where
  supply : 0 ≤ b.supply
  assets : 0 ≤ b.assets
  backed : 0 < b.supply → 0 < b.assets

theorem Priced.mint_pos {b : Books} (hb : Priced b) {user : Address}
    {amount shares stored : ℤ} (he : b.Admits (.mint user amount shares stored)) :
    0 < shares := by
  obtain ⟨-,hpos,hne,hshares,-⟩ := he
  rcases assetsToShares_portion hpos hb.supply hb.assets hshares with h | h
  · have h1 := h.1
    omega
  · rw [h.2]
    exact hpos

/-- Every entry that does not overdraw the supply keeps shares backed. -/
theorem Priced.post {b : Books} {e : Entry} (hb : Priced b) (he : b.Admits e)
    (hs : 0 ≤ (post e b).supply) : Priced (post e b) := by
  cases e with
  | mint user amount shares stored =>
    have h1 := hb.assets
    have h2 := he.2.1
    exact ⟨hs,by change 0 ≤ b.assets+amount; omega,fun _ => by change 0 < b.assets+amount; omega⟩
  | burn user shares paid =>
    obtain ⟨hpos,hpaid⟩ := he
    change 0 ≤ b.supply-shares at hs
    have hsupply : 0 < b.supply := by omega
    have hassets := hb.backed hsupply
    have hp := sharesToAssets_portion hpos.le hsupply hb.assets hpaid
    refine ⟨hs,ProRata.burn_assets_nonneg hsupply hb.assets (by omega) hp.2.2,fun h => ?_⟩
    change 0 < b.supply-shares at h
    exact ProRata.burn_assets_pos hsupply hassets (by omega) hp.2.2
  | yield net fee =>
    have h1 := he.1
    have h2 := hb.assets
    refine ⟨hs,by change 0 ≤ b.assets+net; omega,fun h => ?_⟩
    have h3 := hb.backed h
    change 0 < b.assets+net
    omega
  | harvest amount =>
    have h1 : 0 < amount := he
    have h2 := hb.assets
    exact ⟨hs,by change 0 ≤ b.assets+amount; omega,fun _ => by change 0 < b.assets+amount; omega⟩
  | invest amount => exact ⟨hs,hb.assets,hb.backed⟩
  | divest amount => exact ⟨hs,hb.assets,hb.backed⟩
  | rebalance recalled placed => exact ⟨hs,hb.assets,hb.backed⟩
  | claim => exact ⟨hs,hb.assets,hb.backed⟩
  | setPaused paused => exact ⟨hs,hb.assets,hb.backed⟩

/-- No entry lowers the price of a share, as long as shares are left. -/
theorem price_post {b : Books} {e : Entry} (hsupply : 0 < b.supply) (hassets : 0 < b.assets)
    (he : b.Admits e) (hs : 0 < (post e b).supply) :
    0 < (post e b).assets ∧
      ProRata.PriceLe b.assets b.supply (post e b).assets (post e b).supply := by
  have hb : Priced b := ⟨hsupply.le,hassets.le,fun _ => hassets⟩
  refine ⟨(hb.post he hs.le).backed hs,?_⟩
  cases e with
  | mint user amount shares stored =>
    obtain ⟨-,hpos,-,hshares,-⟩ := he
    rcases assetsToShares_portion hpos hsupply.le hassets.le hshares with h | h
    · exact ProRata.mint_price h.2
    · omega
  | burn user shares paid =>
    exact ProRata.burn_price (sharesToAssets_portion he.1.le hsupply hassets.le he.2).2.2
  | yield net fee => exact ProRata.gain_price he.1 hsupply.le
  | harvest amount => exact ProRata.gain_price (le_of_lt he) hsupply.le
  | invest amount => exact ProRata.PriceLe.refl _ _
  | divest amount => exact ProRata.PriceLe.refl _ _
  | rebalance recalled placed => exact ProRata.PriceLe.refl _ _
  | claim => exact ProRata.PriceLe.refl _ _
  | setPaused paused => exact ProRata.PriceLe.refl _ _

end Price

section Solvency

def Covered (b : Books) : Entry → Prop
  | .burn user shares _ => shares ≤ b.balance user
  | _ => True

/-- Nobody owes shares, and shares are backed. -/
structure Sound (b : Books) : Prop where
  balanced : Balanced b
  balance : ∀ user, 0 ≤ b.balance user
  assets : 0 ≤ b.assets
  backed : 0 < b.supply → 0 < b.assets

theorem Sound.supply {b : Books} (hb : Sound b) : 0 ≤ b.supply :=
  hb.balanced.sum.nonneg hb.balance

theorem Sound.priced {b : Books} (hb : Sound b) : Priced b := ⟨hb.supply,hb.assets,hb.backed⟩

theorem Sound.balance_le {b : Books} (hb : Sound b) (user : Address) :
    b.balance user ≤ b.supply :=
  le_hasSum hb.balanced.sum user fun other _ => hb.balance other

theorem update_nonneg {f : Address → ℤ} (hf : ∀ user, 0 ≤ f user) {user : Address} {v : ℤ}
    (hv : 0 ≤ v) (other : Address) : 0 ≤ Function.update f user v other := by
  by_cases h : other = user
  · simpa [h] using hv
  · simpa [h] using hf other

theorem Sound.post {b : Books} {e : Entry} (hb : Sound b) (he : Valid b e) (hc : Covered b e) :
    Sound (post e b) := by
  have hbal := hb.balanced.post he
  cases e with
  | mint user amount shares stored =>
    have hm := hb.priced.mint_pos he.admits
    have h1 := hb.balance user
    have hs : 0 ≤ b.supply+shares := add_nonneg hb.supply hm.le
    have hp := hb.priced.post he.admits hs
    exact ⟨hbal,update_nonneg hb.balance (by omega),hp.assets,hp.backed⟩
  | burn user shares paid =>
    have h1 : shares ≤ b.balance user := hc
    have h2 := hb.balance_le user
    have hs : 0 ≤ b.supply-shares := by omega
    have hp := hb.priced.post he.admits hs
    exact ⟨hbal,update_nonneg hb.balance (by omega),hp.assets,hp.backed⟩
  | yield net fee =>
    have hp := hb.priced.post he.admits hb.supply
    exact ⟨hbal,hb.balance,hp.assets,hp.backed⟩
  | harvest amount =>
    have hp := hb.priced.post he.admits hb.supply
    exact ⟨hbal,hb.balance,hp.assets,hp.backed⟩
  | invest amount => exact ⟨hbal,hb.balance,hb.assets,hb.backed⟩
  | divest amount => exact ⟨hbal,hb.balance,hb.assets,hb.backed⟩
  | rebalance recalled placed => exact ⟨hbal,hb.balance,hb.assets,hb.backed⟩
  | claim => exact ⟨hbal,hb.balance,hb.assets,hb.backed⟩
  | setPaused paused => exact ⟨hbal,hb.balance,hb.assets,hb.backed⟩

end Solvency

section Treasury

/-- Fees are only added, and a claim empties the treasury. -/
theorem treasury_post {b : Books} {e : Entry} (hb : 0 ≤ b.treasury) (he : b.Admits e) :
    0 ≤ (post e b).treasury := by
  cases e with
  | yield net fee => exact add_nonneg hb he.2
  | claim => exact le_rfl
  | _ => exact hb

end Treasury

section Placement

/-- How far the assets that shares are priced with exceed what is idle or placed. -/
def drift (b : Books) : ℤ := b.assets-(b.idle+b.principal)

/-- The entries that move one of the two asset records without the other. -/
def driftOf : Entry → ℤ
  | .harvest amount => amount
  | .rebalance recalled placed => recalled-placed
  | _ => 0

theorem drift_post (b : Books) (e : Entry) : drift (post e b) = drift b+driftOf e := by
  unfold drift
  cases e with
  | mint user amount shares stored => simp only [post,driftOf]; omega
  | burn user shares paid => simp only [post,driftOf]; omega
  | yield net fee => simp only [post,driftOf]; omega
  | harvest amount => simp only [post,driftOf]; omega
  | invest amount => simp only [post,driftOf]; omega
  | divest amount => simp only [post,driftOf]; omega
  | rebalance recalled placed => simp only [post,driftOf]; omega
  | claim => simp only [post,driftOf]; omega
  | setPaused paused => simp only [post,driftOf]; omega

theorem drift_postAll (es : List Entry) (b : Books) :
    drift (postAll es b) = drift b+(es.map driftOf).sum := by
  induction es generalizing b with
  | nil => simp [postAll]
  | cons e es ih =>
    have h1 := ih (post e b)
    have h2 := drift_post b e
    simp only [postAll,Runs.run_cons,List.map_cons,List.sum_cons] at h1 ⊢
    omega

end Placement

end Books

end YieldVault
