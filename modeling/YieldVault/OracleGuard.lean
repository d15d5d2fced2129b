import YieldVault.EntryPoints
import YieldVault.Oracle
import YieldVault.SimpleHost

/-! Where the vault reads what a strategy is worth. The configuration of the oracle is
stored and never looked at again: no call asks the validator, so a call that reads the
value of a strategy goes through whatever the oracle says. -/
namespace YieldVault

open FixedWidth Contract

variable {σ : Type} {host : Host σ} {env : Env σ} {chain : σ} {l t : Ledger σ}

/-- The same contracts, except that no strategy reports its value. -/
def Host.silenced (host : Host σ) : Host σ :=
  { host with
    totalValue := fun _ _ => none
    totalValue_fits := fun h => nomatch h }

def Env.silenced (env : Env σ) : Env σ := { env with host := env.host.silenced }

/-- The call goes through, and would not if the strategies reported nothing. -/
def ReadsValue (env : Env σ) (call : Call) (l : Ledger σ) : Prop :=
  (∃ v t, (dispatch env call).run l = .ok v t) ∧
    ∀ v t, (dispatch env.silenced call).run l ≠ .ok v t

def readsStrategyValue (s : Storage) : Call → Bool
  | .totalAssets => s.strategy.isSome
  | .invest _ | .rebalance _ _ _ _ _ => true
  | _ => false

theorem processEntries_silenced {token : Address} {minimum cap : ℤ} (entries : List DepositEntry)
    (batch : BatchState) : processEntries env.silenced token minimum cap entries batch =
      processEntries env token minimum cap entries batch := by
  induction entries generalizing batch with
  | nil => rfl
  | cons entry entries ih =>
    rw [processEntries,processEntries]
    simp only [ih]
    rfl

theorem batchDeposit_silenced {relayer : Address} {entries : List DepositEntry} :
    batchDeposit env.silenced relayer entries = batchDeposit env relayer entries := by
  unfold batchDeposit
  simp only [processEntries_silenced]
  rfl

theorem withdraw_silenced {user : Address} {shares : ℤ} :
    withdraw env.silenced user shares = withdraw env user shares := by
  have hauth : requireAuth env.silenced user = requireAuth env user := rfl
  have hcool : checkCooldown env.silenced user = checkCooldown env user := rfl
  have htime : env.silenced.timestamp = env.timestamp := rfl
  have hpay : ∀ state paid, doWithdraw env.silenced state user shares paid =
      doWithdraw env state user shares paid := fun _ _ => rfl
  unfold withdraw
  refine bind_congr fun state => bind_congr fun _ => ?_
  rw [hauth]
  refine bind_congr fun _ => ?_
  split
  · rw [hcool]
    refine bind_congr fun _ => bind_congr fun _ => bind_congr fun _ => bind_congr fun _ =>
      bind_congr fun _ => ?_
    rw [htime,hpay]
  · rfl

theorem totalAssets_silenced (hnone : l.storage.strategy = none) :
    (totalAssets env.silenced).run l = (totalAssets env).run l := by
  unfold totalAssets
  rw [load_bind,load_bind,load_bind,load_bind,hnone]
  rfl

/-- The other calls answer the same whatever the strategies report. -/
theorem dispatch_silenced {call : Call} (hno : readsStrategyValue l.storage call = false) :
    (dispatch env.silenced call).run l = (dispatch env call).run l := by
  cases call with
  | totalAssets =>
    have hnone : l.storage.strategy = none := by
      simpa [readsStrategyValue] using hno
    change (totalAssets env.silenced >>= _).run l = (totalAssets env >>= _).run l
    rw [run_bind,run_bind,totalAssets_silenced hnone]
  | invest amount => exact absurd hno.symm Bool.false_ne_true
  | rebalance fromStrategy toStrategy amount minDivest minInvest =>
    exact absurd hno.symm Bool.false_ne_true
  | batchDeposit relayer entries => rw [dispatch,dispatch,batchDeposit_silenced]
  | withdraw user shares => rw [dispatch,dispatch,withdraw_silenced]
  | _ => rfl

theorem silenced_totalValue {strategy : Address} {c c' : σ} {v : ℤ} :
    env.silenced.host.totalValue strategy c ≠ some (v,c') := fun h => nomatch h

theorem silenced_fails {call : Call} (hreads : readsStrategyValue l.storage call = true) (v : Value)
    (t : Ledger σ) : (dispatch env.silenced call).run l ≠ .ok v t := by
  intro h
  cases call with
  | totalAssets =>
    obtain ⟨_,h,-⟩ := map_eq_ok.mp h
    obtain ⟨_,c,hreport,-⟩ := totalAssets_ok.mp h
    cases hs : l.storage.strategy with
    | none => simp [readsStrategyValue,hs] at hreads
    | some strategy =>
      rw [hs] at hreport
      exact silenced_totalValue hreport
  | invest amount =>
    obtain ⟨_,h,-⟩ := map_eq_ok.mp h
    obtain ⟨_,_,_,_,_,_,_,_,_,-,-,-,-,-,hreport,-⟩ := invest_ok h
    exact silenced_totalValue hreport
  | rebalance fromStrategy toStrategy amount minDivest minInvest =>
    obtain ⟨_,h,-⟩ := map_eq_ok.mp h
    obtain ⟨_,_,_,_,_,_,_,_,_,_,-,-,-,-,-,-,-,hreport,-⟩ := rebalance_ok h
    exact silenced_totalValue hreport
  | _ => exact Bool.false_ne_true hreads

theorem readsValue_iff {call : Call} {v : Value} (h : (dispatch env call).run l = .ok v t) :
    ReadsValue env call l ↔ readsStrategyValue l.storage call = true := by
  constructor
  · rintro ⟨-,hsilent⟩
    by_contra hno
    rw [Bool.not_eq_true] at hno
    exact hsilent v t ((dispatch_silenced hno).trans h)
  · exact fun hreads => ⟨⟨v,t,h⟩,silenced_fails hreads⟩

/-- The validator returns `Ok`, with the heartbeat in force and the documented limit. -/
def accepted (now : ℕ) (s : Storage) (data : PriceData) (last : Option PriceData) : Bool :=
  ((validatePriceData now data (oracleHeartbeat s) (some maxPriceDeviationBps) last).run ()).isOk

/-- The oracle guards the call: with a price that the validator refuses, a call that reads
the value of a strategy does not go through and changes nothing. -/
structure Guarded (data : PriceData) (last : Option PriceData) (l : Ledger σ)
    (inv : Invocation host.vault) : Prop where
  validated : OracleActive l.storage → ReadsValue (inv.env : Env σ) inv.call l →
    accepted inv.timestamp l.storage data last = true
  reverted : OracleActive l.storage → readsStrategyValue l.storage inv.call = true →
    accepted inv.timestamp l.storage data last = false → step host (.invoke inv) l = l

/-- Whatever the oracle says, the call is guarded. -/
def GuardedAlways (l : Ledger σ) : Action host → Prop
  | .invoke inv => ∀ data last, Guarded data last l inv
  | .outside _ => True

/-- The oracle is not active, or the call reads no strategy's value. -/
def Unaffected (l : Ledger σ) : Action host → Prop
  | .invoke inv => ¬ (OracleActive l.storage ∧ readsStrategyValue l.storage inv.call = true)
  | .outside _ => True

instance (l : Ledger σ) : (a : Action host) → Decidable (Unaffected l a)
  | .invoke _ => inferInstanceAs (Decidable (¬ (_ ∧ _)))
  | .outside _ => inferInstanceAs (Decidable True)

def futurePrice (now : ℕ) : PriceData := ⟨1,now+1,18,by decide⟩

theorem futurePrice_refused (now : ℕ) (s : Storage) (last : Option PriceData) :
    accepted now s (futurePrice now) last = false := by
  rw [← Bool.not_eq_true,accepted,Outcome.isOk_iff]
  rintro ⟨p,t,h⟩
  exact absurd (validatePriceData_ok h).1 (Nat.not_succ_le_self now)

theorem Unaffected.guarded {a : Action host} (h : Unaffected l a) : GuardedAlways l a := by
  cases a with
  | outside c => trivial
  | invoke inv =>
    refine fun data last => ⟨fun hactive hreads => absurd ?_ h,fun hactive hreads => absurd ⟨hactive,hreads⟩ h⟩
    obtain ⟨v,t,hv⟩ := hreads.1
    exact ⟨hactive,(readsValue_iff hv).mp hreads⟩

/-- A call that goes through is guarded only where there is nothing to guard. -/
theorem guarded_iff {inv : Invocation host.vault} {v : Value}
    (h : (dispatch inv.env inv.call).run l = .ok v t) :
    GuardedAlways l (.invoke inv : Action host) ↔ Unaffected l (.invoke inv : Action host) := by
  refine ⟨?_,Unaffected.guarded⟩
  rintro hguarded ⟨hactive,hreads⟩
  have haccepted := (hguarded (futurePrice inv.timestamp) none).validated hactive
    ((readsValue_iff h).mpr hreads)
  rw [futurePrice_refused] at haccepted
  exact Bool.false_ne_true haccepted

/-- In every run whose calls read no value of a strategy while the oracle is active, each
call is guarded; a call that does so and goes through is not, and a call that does not go
through changes nothing. -/
theorem oracle_guards_values (acts : List (Action host)) :
    (Runs.Along (step host) Unaffected (genesis chain) acts →
      Runs.Along (step host) GuardedAlways (genesis chain) acts) ∧
    ∀ inv : Invocation host.vault,
      (∀ v t, (dispatch inv.env inv.call).run (runFrom host chain acts) = .ok v t →
        (GuardedAlways (runFrom host chain acts) (.invoke inv : Action host) ↔
          Unaffected (runFrom host chain acts) (.invoke inv : Action host))) ∧
      ((∀ v t, (dispatch inv.env inv.call).run (runFrom host chain acts) ≠ .ok v t) →
        step host (.invoke inv) (runFrom host chain acts) = runFrom host chain acts) := by
  refine ⟨Runs.Along.mono fun _ _ => Unaffected.guarded,fun inv => ⟨fun v t h => guarded_iff h,?_⟩⟩
  intro hno
  rcases invoke_or_refused inv (runFrom host chain acts) with ⟨v,hv⟩ | ⟨-,hsame⟩
  · exact absurd hv (hno v _)
  · exact hsame

section Runs

open SimpleHost

def watchedRun : List (Action (simpleHost id 0)) :=
  [signed admin 0 (.initializeVault admin token),signed admin 0 (.setting (.priceOracle bob)),
    signed admin 0 (.setting (.oracleEnabled true)),signed alice 1 (.deposit alice 1000),
    signed admin 2 .totalAssets]

theorem watchedRun_guarded :
    Runs.Along (step (simpleHost id 0)) GuardedAlways (genesis bank) watchedRun :=
  (oracle_guards_values watchedRun).1
    ⟨by decide,by decide,by decide,by decide,by decide,trivial⟩

/-- The oracle is switched on, and strategy A is active and holds a part of the deposits. -/
def trustingRun : List (Action (simpleHost id 0)) :=
  [signed admin 0 (.initializeVault admin token),signed admin 0 (.setting (.priceOracle bob)),
    signed admin 0 (.setting (.oracleEnabled true)),
    signed admin 0 (.setting (.whitelist strategyA true)),
    signed admin 0 (.setting (.strategy strategyA)),signed alice 1 (.deposit alice 1000),
    signed admin 2 (.invest 600)]

def lateReading : Invocation (simpleHost id 0).vault := signedCall bob 100000 .totalAssets

def stalePrice : PriceData := ⟨1,2,18,by decide⟩

/-- The total is read a day later, with the price of a day before. -/
theorem lateReading_unguarded : ¬ ∀ (acts : List (Action (simpleHost id 0)))
    (inv : Invocation (simpleHost id 0).vault) (data : PriceData) (last : Option PriceData),
    Guarded data last (runFrom (simpleHost id 0) bank acts) inv := by
  intro h
  have hok : ((dispatch lateReading.env lateReading.call).run
      (runFrom (simpleHost id 0) bank trustingRun)).isOk = true := by decide
  obtain ⟨v,t,hv⟩ := Outcome.isOk_iff.mp hok
  have haccepted := (h trustingRun lateReading stalePrice none).validated (by decide)
    ((readsValue_iff hv).mpr (by decide))
  exact absurd haccepted (by decide)

end Runs

end YieldVault
