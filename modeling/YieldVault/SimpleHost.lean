import YieldVault.EntryPoints

/-! A small chain to run the vault on: one token with balances and allowances, and
two strategies that draw what they were approved for. What a strategy delivers for
a requested amount and what a harvest reports are parameters. -/
namespace YieldVault

open FixedWidth

/-- Token balances, and what each strategy may still draw from the vault. -/
structure Bank where
  held : Address → ℤ
  allowance : Address → ℕ

namespace SimpleHost

def admin : Address := ⟨1⟩
def alice : Address := ⟨2⟩
def bob : Address := ⟨3⟩
def relayer : Address := ⟨4⟩
def strategyA : Address := ⟨5⟩
def strategyB : Address := ⟨6⟩
def token : Address := ⟨7⟩

/-- Everybody starts with ten thousand tokens, except the vault and the strategies. -/
def bank : Bank := ⟨fun holder => if 1 ≤ holder.id ∧ holder.id ≤ 4 then 10000 else 0,fun _ => 0⟩

end SimpleHost

namespace Bank

def move (sender receiver : Address) (amount : ℤ) (bank : Bank) : Option Bank :=
  if 0 ≤ amount ∧ amount ≤ bank.held sender ∧ I128 amount then
    let debited := Function.update bank.held sender (bank.held sender-amount)
    some { bank with held := Function.update debited receiver (debited receiver+amount) }
  else none

abbrev IsSpender (who : Address) : Prop := who = SimpleHost.strategyA ∨ who = SimpleHost.strategyB

def approve (spender : Address) (amount : ℤ) (bank : Bank) : Option Bank :=
  if 0 ≤ amount ∧ IsSpender spender then
    some { bank with allowance := Function.update bank.allowance spender amount.toNat }
  else none

def draw (spender : Address) (amount : ℤ) (bank : Bank) : Option Bank :=
  if 0 ≤ amount ∧ amount ≤ bank.allowance spender ∧ IsSpender spender then
    move ⟨0⟩ spender amount { bank with
      allowance := Function.update bank.allowance spender
        (bank.allowance spender-amount.toNat) }
  else none

end Bank

def simpleHost (deliver : ℤ → ℤ) (harvest : ℤ) : Host Bank where
  vault := ⟨0⟩
  balance _ holder bank := bank.held holder
  transfer _ sender receiver amount bank := bank.move sender receiver amount
  approve _ _ spender amount _ bank := bank.approve spender amount
  deposit strategy amount bank := bank.draw strategy amount
  withdraw strategy amount bank :=
    if Bank.IsSpender strategy then bank.move strategy ⟨0⟩ (deliver amount) else none
  totalValue strategy bank :=
    if I128 (bank.held strategy) then some (bank.held strategy,bank) else none
  harvestYield _ bank := some (harvest,bank)
  updateWasm _ bank := some bank
  totalValue_fits := by
    intro strategy c v c' h
    split_ifs at h with hfit
    obtain rfl := (Prod.mk.inj (Option.some.inj h)).1
    exact hfit

variable {deliver : ℤ → ℤ} {harvest : ℤ}

def signedCall (who : Address) (timestamp : ℕ) (call : Call) :
    Invocation (simpleHost deliver harvest).vault :=
  ⟨timestamp,timestamp,fun a => decide (a = who ∧ a ≠ ⟨0⟩),by simp [simpleHost],call⟩

def signed (who : Address) (timestamp : ℕ) (call : Call) : Action (simpleHost deliver harvest) :=
  .invoke ⟨timestamp,timestamp,fun a => decide (a = who ∧ a ≠ ⟨0⟩),by simp [simpleHost],call⟩

theorem Bank.move_held {sender receiver : Address} {amount : ℤ} {bank bank' : Bank}
    (h : bank.move sender receiver amount = some bank') :
    (0 ≤ amount ∧ I128 amount) ∧ bank'.allowance = bank.allowance ∧ ∀ holder,
      bank'.held holder = bank.held holder - (if holder = sender then amount else 0) +
        (if holder = receiver then amount else 0) := by
  unfold Bank.move at h
  split_ifs at h with h0
  obtain rfl := Option.some.inj h
  refine ⟨⟨h0.1,h0.2.2⟩,rfl,fun holder => ?_⟩
  by_cases h1 : holder = receiver
  · subst h1
    by_cases h2 : holder = sender <;> simp [h2]
  · by_cases h2 : holder = sender
    · subst h2
      simp [h1]
    · simp [h1,h2]

theorem Bank.IsSpender.ne_vault {who : Address} (h : Bank.IsSpender who) : ¬ (⟨0⟩ : Address) = who := by
  rcases h with rfl | rfl <;> decide

theorem simpleHost_withdraw {strategy : Address} {amount : ℤ} {bank bank' : Bank}
    (h : (simpleHost deliver harvest).withdraw strategy amount bank = some bank') :
    bank.move strategy ⟨0⟩ (deliver amount) = some bank' ∧
      bank'.held ⟨0⟩ = bank.held ⟨0⟩+deliver amount := by
  simp only [simpleHost] at h
  split_ifs at h with hspender
  refine ⟨h,?_⟩
  have hheld := (Bank.move_held h).2.2 ⟨0⟩
  rw [if_neg hspender.ne_vault,if_pos rfl,sub_zero] at hheld
  exact hheld

end YieldVault
