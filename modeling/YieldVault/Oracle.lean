import YieldVault.Environment
import YieldVault.FixedWidth

/-! The validator of oracle prices: a price is accepted if it is neither from the future
nor stale, positive, of at most thirty decimals, and near the last validated price. -/
namespace YieldVault

open FixedWidth Contract

variable {S σ : Type}

/-- A price, the time it was published at, and the number of its decimals. -/
structure PriceData where
  price : ℤ
  timestamp : ℕ
  decimals : ℕ
  price_fits : I128 price

inductive OracleError
  | priceNotFound | priceStale | priceZero | priceNegative | priceOverflow | priceUnderflow
  | invalidDecimals | timestampInFuture | heartbeatExceeded | priceDeviationExceeded | oracleNotSet
  deriving DecidableEq

def defaultHeartbeatSeconds : ℕ := 3600

def maxPriceDeviationBps : ℤ := 5000

def overflowTrap : String := "attempt to multiply with overflow"

def powTen (n : ℕ) : Contract S OracleError ℤ := expect (narrow 128 (10^n)) overflowTrap

def priceDataScaledPrice (data : PriceData) : Contract S OracleError ℤ :=
  if 18 < data.decimals then do
    let scale ← powTen (data.decimals-18)
    pure (data.price.tdiv scale)
  else if data.decimals < 18 then do
    let scale ← powTen (18-data.decimals)
    expect (checkedMul 128 data.price scale) overflowTrap
  else pure data.price

def validateNotFuture (data : PriceData) (currentTime : ℕ) : Contract S OracleError Unit :=
  ensure (data.timestamp ≤ currentTime) .timestampInFuture

def validateFreshness (data : PriceData) (currentTime maxAgeSeconds : ℕ) :
    Contract S OracleError Unit :=
  -- `saturating_sub` is the subtraction of natural numbers
  ensure (currentTime-data.timestamp ≤ maxAgeSeconds) .heartbeatExceeded

def validatePriceValue (data : PriceData) : Contract S OracleError Unit := do
  ensure (data.decimals ≤ 30) .invalidDecimals
  ensure (0 < data.price) .priceZero
  -- no price reaches this check: a negative one has failed the check before
  ensure (0 ≤ data.price) .priceNegative
  let scaleFactor ← if 18 < data.decimals then powTen (data.decimals-18) else pure 1
  ensure (data.price ≤ (maxSigned 128).tdiv scaleFactor) .priceOverflow

/-- `x.unsigned_abs() as i128`; the cast wraps around for the least `i128`. -/
def unsignedAbsAsSigned (x : ℤ) : ℤ := if |x| ≤ maxSigned 128 then |x| else |x|-2^128

def validateDeviation (current last : PriceData) (maxDeviationBps : ℤ) :
    Contract S OracleError Unit :=
  if last.price = 0 then pure () else do
    let currentScaled ← priceDataScaledPrice current
    let lastScaled ← priceDataScaledPrice last
    let difference ← expect (checkedSub 128 currentScaled lastScaled)
      "attempt to subtract with overflow"
    let scaled ← okOr (checkedMul 128 (unsignedAbsAsSigned difference) 10000) .priceOverflow
    let deviation ← okOr (checkedDiv 128 scaled lastScaled) .priceUnderflow
    ensure (deviation ≤ maxDeviationBps) .priceDeviationExceeded

/-- `OracleValidator::validate_price_data`, with the ledger's time for its environment. -/
def validatePriceData (currentTime : ℕ) (data : PriceData) (maxAgeSeconds : ℕ)
    (maxDeviationBps : Option ℤ) (lastPrice : Option PriceData) : Contract S OracleError ℤ := do
  validateNotFuture data currentTime
  validateFreshness data currentTime maxAgeSeconds
  validatePriceValue data
  match lastPrice, maxDeviationBps with
  | some last, some maxDev => validateDeviation data last maxDev
  | _, _ => pure ()
  priceDataScaledPrice data

section Settings

variable (s : Storage)

def isOracleEnabled : Bool := s.oracleEnabled.getD false

def oracleHeartbeat : ℕ := s.oracleHeartbeat.getD defaultHeartbeatSeconds

def OracleActive : Prop := isOracleEnabled s = true ∧ s.priceOracle.isSome = true

instance : Decidable (OracleActive s) := inferInstanceAs (Decidable (_ ∧ _))

end Settings

section Outcomes

variable {currentTime maxAge : ℕ} {data : PriceData} {maxDev : Option ℤ} {last : Option PriceData}
  {p : ℤ} {s t : S}

/-- What every accepted price has. -/
theorem validatePriceData_ok
    (h : (validatePriceData currentTime data maxAge maxDev last).run s = .ok p t) :
    data.timestamp ≤ currentTime ∧ currentTime-data.timestamp ≤ maxAge ∧ 0 < data.price ∧
      data.decimals ≤ 30 := by
  obtain ⟨_,_,hfuture,h⟩ := bind_eq_ok.mp h
  obtain ⟨_,_,hfresh,h⟩ := bind_eq_ok.mp h
  obtain ⟨_,_,hvalue,-⟩ := bind_eq_ok.mp h
  obtain ⟨_,_,hdecimals,hvalue⟩ := bind_eq_ok.mp hvalue
  obtain ⟨_,_,hpositive,-⟩ := bind_eq_ok.mp hvalue
  exact ⟨(ensure_eq_ok.mp hfuture).1,(ensure_eq_ok.mp hfresh).1,(ensure_eq_ok.mp hpositive).1,
    (ensure_eq_ok.mp hdecimals).1⟩

end Outcomes

end YieldVault
