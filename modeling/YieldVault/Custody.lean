import Mathlib.Tactic

/-! An account at a token contract, seen by its owner. Others may draw on what the
owner has approved for them and may pay in; everything else is moved by the owner.
An amount is covered when it is still there after every approval has been drawn. -/
namespace Custody

structure Account (σ : Type*) where
  balance : σ → ℤ
  /-- What the owner has approved for others and they have not drawn yet. -/
  allowed : σ → ℤ

variable {σ : Type*} {acc : Account σ} {c c' : σ} {owed amount : ℤ}

namespace Account

def Covers (acc : Account σ) (owed : ℤ) (c : σ) : Prop := owed+acc.allowed c ≤ acc.balance c

/-- What others can do: draw on an approval, or pay in. -/
structure Draws (acc : Account σ) (c c' : σ) : Prop where
  allowed : acc.allowed c' ≤ acc.allowed c
  balance : acc.balance c-acc.balance c' ≤ acc.allowed c-acc.allowed c'

structure Pays (acc : Account σ) (amount : ℤ) (c c' : σ) : Prop where
  nonneg : 0 ≤ amount
  allowed : acc.allowed c' = acc.allowed c
  balance : acc.balance c' = acc.balance c-amount

structure Receives (acc : Account σ) (amount : ℤ) (c c' : σ) : Prop where
  nonneg : 0 ≤ amount
  allowed : acc.allowed c' = acc.allowed c
  balance : acc.balance c' = acc.balance c+amount

structure Approves (acc : Account σ) (amount : ℤ) (c c' : σ) : Prop where
  allowed : acc.allowed c' ≤ acc.allowed c+amount
  balance : acc.balance c' = acc.balance c

end Account

open Account

theorem Account.Draws.refl (c : σ) : acc.Draws c c := ⟨le_rfl,by simp⟩

theorem Account.Covers.le_balance (h : acc.Covers owed c) (ha : 0 ≤ acc.allowed c) :
    owed ≤ acc.balance c := by
  unfold Covers at h
  omega

theorem Account.Covers.mono {owed' : ℤ} (h : acc.Covers owed c) (hle : owed' ≤ owed) :
    acc.Covers owed' c := by
  unfold Covers at *
  omega

theorem Account.Draws.covers (hd : acc.Draws c c') (h : acc.Covers owed c) :
    acc.Covers owed c' := by
  have h1 := hd.balance
  unfold Covers at *
  omega

theorem Account.Pays.covers (hp : acc.Pays amount c c') (h : acc.Covers owed c) :
    acc.Covers (owed-amount) c' := by
  have h1 := hp.balance
  have h2 := hp.allowed
  unfold Covers at *
  omega

theorem Account.Receives.covers (hr : acc.Receives amount c c') (h : acc.Covers owed c) :
    acc.Covers (owed+amount) c' := by
  have h1 := hr.balance
  have h2 := hr.allowed
  unfold Covers at *
  omega

theorem Account.Approves.covers (ha : acc.Approves amount c c') (h : acc.Covers owed c) :
    acc.Covers (owed-amount) c' := by
  have h1 := ha.balance
  have h2 := ha.allowed
  unfold Covers at *
  omega

/-- Whatever others do meanwhile, an amount that measurably arrives is covered too. -/
theorem Account.Draws.covers_arrival (hd : acc.Draws c c') (h : acc.Covers owed c)
    (ha : amount ≤ acc.balance c'-acc.balance c) : acc.Covers (owed+amount) c' := by
  have h1 := hd.allowed
  unfold Covers at *
  omega

end Custody
