import YieldVault.Oracle
import YieldVault.ProRata
import YieldVault.Traps

/-! What the validator answers: with which prices it traps instead of returning an error, and
what an accepted price is worth. -/
namespace YieldVault

open FixedWidth Contract

namespace PriceData

def rescaled (data : PriceData) : ℤ := (data.price*10^18).tdiv (10^data.decimals)

/-- The rescaling fits: the power of ten for more than eighteen decimals, the product for fewer. -/
def Scalable (data : PriceData) : Prop :=
  (18 < data.decimals → data.decimals ≤ 56) ∧
    (data.decimals ≤ 18 → Fits 128 (data.price*10^(18-data.decimals)))

instance (data : PriceData) : Decidable data.Scalable := inferInstanceAs (Decidable (_ ∧ _))

variable {data : PriceData}

theorem price_le : data.price ≤ maxSigned 128 := by
  have hlt := data.price_fits.2
  unfold maxSigned
  omega

theorem rescaled_of_le (h : data.decimals ≤ 18) :
    data.rescaled = data.price*10^(18-data.decimals) := by
  have hsplit : (10 : ℤ)^18 = 10^(18-data.decimals)*10^data.decimals := by
    rw [← pow_add,Nat.sub_add_cancel h]
  rw [rescaled,hsplit,← mul_assoc]
  exact Int.mul_tdiv_cancel _ (by positivity)

theorem rescaled_of_lt (h : 18 < data.decimals) :
    data.rescaled = data.price.tdiv (10^(data.decimals-18)) := by
  have hsplit : (10 : ℤ)^data.decimals = 10^(data.decimals-18)*10^18 := by
    rw [← pow_add,Nat.sub_add_cancel h.le]
  rw [rescaled,hsplit]
  exact Int.mul_tdiv_mul_of_pos_left _ _ (by positivity)

theorem rescaled_eq_floor (h : 0 ≤ data.price) :
    data.rescaled = data.price*10^18 / 10^data.decimals :=
  Int.tdiv_eq_ediv_of_nonneg (by positivity)

theorem rescaled_nonneg (h : 0 ≤ data.price) : 0 ≤ data.rescaled :=
  Int.tdiv_nonneg (by positivity) (by positivity)

/-- The only positive prices that are nothing with eighteen decimals have more of them. -/
theorem rescaled_pos_iff (h : 0 < data.price) :
    0 < data.rescaled ↔ 10^(data.decimals-18) ≤ data.price := by
  rcases le_or_gt data.decimals 18 with hle | hlt
  · rw [rescaled_of_le hle,Nat.sub_eq_zero_of_le hle,pow_zero]
    exact ⟨fun _ => h,fun _ => by positivity⟩
  · have hscale : (0 : ℤ) < 10^(data.decimals-18) := by positivity
    rw [rescaled_of_lt hlt,Int.tdiv_eq_ediv_of_nonneg h.le]
    have hone : 1 ≤ data.price / 10^(data.decimals-18) ↔ 10^(data.decimals-18) ≤ data.price := by
      rw [Int.le_ediv_iff_mul_le hscale,one_mul]
    exact hone

theorem Scalable.rescaled_fits (h : data.Scalable) : Fits 128 data.rescaled := by
  rcases le_or_gt data.decimals 18 with hle | hlt
  · rw [rescaled_of_le hle]
    exact h.2 hle
  · rw [rescaled_of_lt hlt]
    exact data.price_fits.tdiv (by positivity)

end PriceData

variable {S : Type} {s t : S} {m : String} {p : ℤ} {data last : PriceData} {currentTime maxAge : ℕ}
  {maxDev : Option ℤ} {lastPrice : Option PriceData} {limit : ℤ}

section Rescaling

variable {bad : String → Prop} {n : ℕ} {v : ℤ}

theorem fits_powTen (h : n ≤ 38) : Fits 128 (10^n) := by
  have hpow : (10 : ℤ)^n ≤ 10^38 := pow_le_pow_right₀ (by norm_num) h
  have hfits : Fits 128 ((10 : ℤ)^38) := by decide
  exact (fits_zero 128).between hfits (by positivity) hpow

theorem le_of_fits_powTen (h : Fits 128 (10^n)) : n ≤ 38 := by
  by_contra hn
  have hpow : (10 : ℤ)^39 ≤ 10^n := pow_le_pow_right₀ (by norm_num) (by omega)
  have hno : ¬ Fits 128 ((10 : ℤ)^39) := by decide
  exact hno ((fits_zero 128).between h (by positivity) hpow)

@[simp] theorem powTen_eq_ok : (powTen n : Contract S OracleError ℤ).run s = .ok v t ↔
    n ≤ 38 ∧ 10^n = v ∧ s = t := by
  rw [powTen,expect_eq_ok,narrow_eq_some,and_assoc]
  exact and_congr_left fun _ => ⟨le_of_fits_powTen,fits_powTen⟩

theorem avoids_powTen (hbad : bad overflowTrap) :
    Avoids bad (powTen n : Contract S OracleError ℤ) s ↔ n ≤ 38 := by
  rw [powTen,avoids_expect,narrow_isSome]
  exact ⟨fun h => le_of_fits_powTen (h hbad),fun h _ => fits_powTen h⟩

/-- The rescaling of the code: it succeeds with the price of eighteen decimals, or it traps. -/
theorem priceDataScaledPrice_ok :
    (priceDataScaledPrice data : Contract S OracleError ℤ).run s = .ok v t ↔
      data.Scalable ∧ data.rescaled = v ∧ s = t := by
  unfold priceDataScaledPrice PriceData.Scalable
  rcases lt_trichotomy 18 data.decimals with hlt | heq | hgt
  · have hpow : data.decimals-18 ≤ 38 ↔ data.decimals ≤ 56 := by omega
    rw [if_pos hlt,PriceData.rescaled_of_lt hlt]
    simp [hlt,hlt.not_ge,hpow,and_assoc]
    exact fun _ => and_comm
  · have hfits : Fits 128 (data.price*10^(18-data.decimals)) := by
      simpa [← heq] using data.price_fits
    rw [PriceData.rescaled_of_le heq.ge]
    simp [← heq] at hfits ⊢
    simp [hfits]
  · have hpow : 18-data.decimals ≤ 38 := by omega
    rw [if_neg hgt.not_gt,if_pos hgt,PriceData.rescaled_of_le hgt.le]
    simp [hgt.not_gt,hgt.le,hpow,and_assoc]

theorem avoids_priceDataScaledPrice (hbad : bad overflowTrap) :
    Avoids bad (priceDataScaledPrice data : Contract S OracleError ℤ) s ↔ data.Scalable := by
  unfold priceDataScaledPrice PriceData.Scalable
  rcases lt_trichotomy 18 data.decimals with hlt | heq | hgt
  · rw [if_pos hlt,avoids_bind,avoids_powTen hbad]
    simp [hlt,hlt.not_ge]
  · have hfits : Fits 128 (data.price*10^(18-data.decimals)) := by
      simpa [← heq] using data.price_fits
    simp [← heq] at hfits ⊢
    exact hfits
  · have hpow : 18-data.decimals ≤ 38 := by omega
    rw [if_neg hgt.not_gt,if_pos hgt,avoids_bind,avoids_powTen hbad]
    simp [hgt.not_gt,hgt.le,hpow,hbad]

end Rescaling

section Traps

def Refused (currentTime maxAge : ℕ) (data : PriceData) : Prop :=
  currentTime < data.timestamp ∨ maxAge < currentTime-data.timestamp ∨ 30 < data.decimals ∨
    data.price ≤ 0 ∨
      18 < data.decimals ∧ (maxSigned 128).tdiv (10^(data.decimals-18)) < data.price

/-- A last price that is compared with can be rescaled, and the difference fits. -/
def Comparable (data last : PriceData) : Prop :=
  last.price ≠ 0 → last.Scalable ∧ Fits 128 (data.rescaled-last.rescaled)

variable {u : Unit} {bad : String → Prop}

theorem scaleFactor_bind_ok {k : ℤ → Contract S OracleError Unit} (h : data.decimals ≤ 30) :
    (if 18 < data.decimals then powTen (data.decimals-18) >>= k else pure 1 >>= k).run s = .ok u t ↔
      (k (if 18 < data.decimals then 10^(data.decimals-18) else 1)).run s = .ok u t := by
  have hpow : data.decimals-18 ≤ 38 := by omega
  by_cases hlt : 18 < data.decimals <;> simp [hlt,hpow]

theorem validatePriceValue_ok :
    (validatePriceValue data : Contract S OracleError Unit).run s = .ok u t ↔
      (data.decimals ≤ 30 ∧ 0 < data.price ∧ (18 < data.decimals →
        data.price ≤ (maxSigned 128).tdiv (10^(data.decimals-18)))) ∧ s = t := by
  have hmax := data.price_le
  unfold validatePriceValue
  generalize maxSigned 128 = most at hmax ⊢
  rw [ensure_bind,ensure_bind,ensure_bind]
  by_cases hdecimals : data.decimals ≤ 30
  · by_cases hprice : 0 < data.price
    · rw [if_pos hdecimals,if_pos hprice,if_pos hprice.le]
      refine (scaleFactor_bind_ok hdecimals).trans (ensure_eq_ok.trans (and_congr_left fun _ => ?_))
      by_cases hlt : 18 < data.decimals
      · simp [hdecimals,hprice,hlt]
      · simp [hdecimals,hprice,hlt,hmax]
    · rw [if_pos hdecimals,if_neg hprice]
      exact ⟨fun h => (by cases h),fun h => absurd h.1.2.1 hprice⟩
  · rw [if_neg hdecimals]
    exact ⟨fun h => (by cases h),fun h => absurd h.1.1 hdecimals⟩

theorem avoids_validatePriceValue (hbad : bad overflowTrap) :
    Avoids bad (validatePriceValue data : Contract S OracleError Unit) s := by
  unfold validatePriceValue
  generalize maxSigned 128 = most
  refine avoids_ensure_bind.mpr fun hdecimals => avoids_ensure_bind.mpr fun _ =>
    avoids_ensure_bind.mpr fun _ => avoids_ite.mpr ⟨fun _ => ?_,fun _ => ?_⟩
  · exact avoids_bind.mpr ⟨(avoids_powTen hbad).mpr (by omega),fun _ _ _ => avoids_ensure⟩
  · exact avoids_bind.mpr ⟨avoids_pure,fun _ _ _ => avoids_ensure⟩

theorem avoids_validateDeviation (hs : data.Scalable) (hmul : bad overflowTrap)
    (hsub : bad "attempt to subtract with overflow") :
    Avoids bad (validateDeviation data last limit : Contract S OracleError Unit) s ↔
      Comparable data last := by
  unfold validateDeviation Comparable
  by_cases hzero : last.price = 0
  · simp [hzero]
  · simp [hzero,avoids_bind,avoids_priceDataScaledPrice hmul,priceDataScaledPrice_ok,hs,hsub]
    exact Or.inl

def checkDeviation (data : PriceData) : Option PriceData → Option ℤ → Contract S OracleError Unit
  | some last, some limit => validateDeviation data last limit
  | _, _ => pure ()

theorem validatePriceData_eq : (validatePriceData currentTime data maxAge maxDev lastPrice :
    Contract S OracleError ℤ) = (do
      validateNotFuture data currentTime
      validateFreshness data currentTime maxAge
      validatePriceValue data
      checkDeviation data lastPrice maxDev
      priceDataScaledPrice data) := by
  unfold validatePriceData
  cases lastPrice <;> cases maxDev <;> rfl

/-- A price that cannot be rescaled traps, in the deviation check or after it. -/
theorem scalable_of_avoids (hbad : bad overflowTrap)
    (h : Avoids bad (checkDeviation data lastPrice maxDev >>= fun _ => priceDataScaledPrice data) s) :
    data.Scalable := by
  obtain ⟨hcheck,hrest⟩ := avoids_bind.mp h
  have hpassed : (checkDeviation data lastPrice maxDev : Contract S OracleError Unit).run s =
      .ok () s → data.Scalable := fun hok => (avoids_priceDataScaledPrice hbad).mp (hrest () s hok)
  cases lastPrice with
  | none => exact hpassed rfl
  | some last =>
    cases maxDev with
    | none => exact hpassed rfl
    | some limit =>
      change Avoids bad (validateDeviation data last limit) s at hcheck
      change (validateDeviation data last limit).run s = _ → _ at hpassed
      by_cases hzero : last.price = 0
      · rw [validateDeviation,if_pos hzero] at hpassed
        exact hpassed rfl
      · rw [validateDeviation,if_neg hzero] at hcheck
        exact (avoids_priceDataScaledPrice hbad).mp (avoids_bind.mp hcheck).1

theorem avoids_checkDeviation (hs : data.Scalable) (hmul : bad overflowTrap)
    (hsub : bad "attempt to subtract with overflow") :
    Avoids bad (checkDeviation data lastPrice maxDev : Contract S OracleError Unit) s ↔
      ∀ last ∈ lastPrice, maxDev.isSome = true → Comparable data last := by
  cases lastPrice with
  | none => simp [checkDeviation]
  | some last =>
    cases maxDev with
    | none => simp [checkDeviation]
    | some limit => simpa [checkDeviation] using avoids_validateDeviation hs hmul hsub

theorem refused_iff : Refused currentTime maxAge data ↔
    ¬ (data.timestamp ≤ currentTime ∧ currentTime-data.timestamp ≤ maxAge ∧
      data.decimals ≤ 30 ∧ 0 < data.price ∧ (18 < data.decimals →
        data.price ≤ (maxSigned 128).tdiv (10^(data.decimals-18)))) := by
  unfold Refused
  generalize maxSigned 128 = most
  simp only [not_and_or,not_le,not_lt,Classical.not_imp]

/-- Every input but some is answered, with a price or an error: those refused before anything
is rescaled, and those whose price can be rescaled and compared with the last one. -/
theorem validatePriceData_answers (currentTime maxAge : ℕ) (data : PriceData) (maxDev : Option ℤ)
    (lastPrice : Option PriceData) (s : S) :
    (∀ m, (validatePriceData currentTime data maxAge maxDev lastPrice).run s ≠ .panic m) ↔
      Refused currentTime maxAge data ∨ data.Scalable ∧
        ∀ last ∈ lastPrice, maxDev.isSome = true → Comparable data last := by
  have hall : (∀ m, (validatePriceData currentTime data maxAge maxDev lastPrice).run s ≠ .panic m) ↔
      Avoids (fun _ => True) (validatePriceData currentTime data maxAge maxDev lastPrice) s :=
    forall_congr' fun m => true_imp_iff.symm
  have hrescaled : Avoids (fun _ => True) (checkDeviation data lastPrice maxDev >>= fun _ =>
      priceDataScaledPrice data) s ↔ data.Scalable ∧
        ∀ last ∈ lastPrice, maxDev.isSome = true → Comparable data last := by
    constructor
    · intro h
      have hs := scalable_of_avoids trivial h
      exact ⟨hs,(avoids_checkDeviation hs trivial trivial).mp (avoids_bind.mp h).1⟩
    · rintro ⟨hs,hlast⟩
      exact avoids_bind.mpr ⟨(avoids_checkDeviation hs trivial trivial).mpr hlast,
        fun _ _ _ => (avoids_priceDataScaledPrice trivial).mpr hs⟩
  rw [hall,refused_iff,validatePriceData_eq,← hrescaled,← imp_iff_not_or]
  constructor
  · rintro h ⟨hfuture,hfresh,hvalue⟩
    have hrest := avoids_ensure_bind.mp (avoids_ensure_bind.mp h hfuture) hfresh
    exact (avoids_bind.mp hrest).2 () s (validatePriceValue_ok.mpr ⟨hvalue,rfl⟩)
  · intro h
    refine avoids_ensure_bind.mpr fun hfuture => avoids_ensure_bind.mpr fun hfresh => ?_
    refine avoids_bind.mpr ⟨avoids_validatePriceValue trivial,fun _ _ hok => ?_⟩
    obtain ⟨hvalue,rfl⟩ := validatePriceValue_ok.mp hok
    exact h ⟨hfuture,hfresh,hvalue⟩

def wholePrice : PriceData := ⟨maxSigned 128,0,0,by decide⟩

/-- The guard against overflow lets a price of no decimals through, and its rescaling traps. -/
theorem wholePrice_traps : ¬ ∀ (currentTime maxAge : ℕ) (data : PriceData) (maxDev : Option ℤ)
    (lastPrice : Option PriceData) (m : String),
    (validatePriceData currentTime data maxAge maxDev lastPrice).run () ≠ .panic m := by
  intro h
  exact h 0 0 wholePrice none none overflowTrap rfl

end Traps

section Acceptance

/-- What an accepted price should be: of the present, positive, rounded down to eighteen
decimals, and within the limit of the last price. -/
structure Usable (currentTime maxAge : ℕ) (data : PriceData) (maxDev : Option ℤ)
    (lastPrice : Option PriceData) (p : ℤ) : Prop where
  notFuture : data.timestamp ≤ currentTime
  fresh : currentTime-data.timestamp ≤ maxAge
  positive : 0 < p
  roundedDown : p = data.price*10^18 / 10^data.decimals
  near : ∀ last ∈ lastPrice, ∀ limit ∈ maxDev, 0 < last.rescaled →
    |p-last.rescaled| * 10000 ≤ limit*last.rescaled

/-- The deviation in whole basis points is not the limit merely by rounding down. -/
def ExactDeviation (data last : PriceData) (limit : ℤ) : Prop :=
  |data.rescaled-last.rescaled| * 10000 / last.rescaled = limit →
    last.rescaled ∣ |data.rescaled-last.rescaled| * 10000

variable {u : Unit}

theorem unsignedAbsAsSigned_sub {a b : ℤ} (ha : Fits 128 a) (hb : Fits 128 b) (ha0 : 0 ≤ a)
    (hb0 : 0 ≤ b) : unsignedAbsAsSigned (a-b) = |a-b| := by
  refine if_pos (abs_le.mpr ?_)
  have ha2 := ha.2
  have hb2 := hb.2
  unfold maxSigned
  omega

theorem validateDeviation_ok (hdata : 0 ≤ data.price) (hlast : 0 < last.rescaled)
    (h : (validateDeviation data last limit : Contract S OracleError Unit).run s = .ok u t) :
    |data.rescaled-last.rescaled| * 10000 / last.rescaled ≤ limit := by
  have hne : last.price ≠ 0 := by
    intro hzero
    simp [PriceData.rescaled,hzero] at hlast
  rw [validateDeviation,if_neg hne] at h
  obtain ⟨_,_,hcurrent,h⟩ := bind_eq_ok.mp h
  obtain ⟨hs,rfl,rfl⟩ := priceDataScaledPrice_ok.mp hcurrent
  obtain ⟨_,_,hprevious,h⟩ := bind_eq_ok.mp h
  obtain ⟨hs',rfl,rfl⟩ := priceDataScaledPrice_ok.mp hprevious
  obtain ⟨_,hdifference,h⟩ := expect_bind_eq_ok.mp h
  obtain ⟨-,rfl⟩ := checkedSub_eq_some.mp hdifference
  obtain ⟨_,hscaled,h⟩ := okOr_bind_eq_ok.mp h
  obtain ⟨-,rfl⟩ := checkedMul_eq_some.mp hscaled
  obtain ⟨_,hdeviation,h⟩ := okOr_bind_eq_ok.mp h
  obtain ⟨-,-,rfl⟩ := checkedDiv_eq_some.mp hdeviation
  have hle := (ensure_eq_ok.mp h).1
  rw [unsignedAbsAsSigned_sub hs.rescaled_fits hs'.rescaled_fits
    (PriceData.rescaled_nonneg hdata) hlast.le] at hle
  rwa [Int.tdiv_eq_ediv_of_nonneg (by positivity)] at hle

/-- What an accepted price is: usable, but for a positive price that is nothing with eighteen
decimals and a deviation that is the limit only after rounding down. -/
theorem accepted_usable_iff
    (h : (validatePriceData currentTime data maxAge maxDev lastPrice).run s = .ok p t) :
    Usable currentTime maxAge data maxDev lastPrice p ↔
      10^(data.decimals-18) ≤ data.price ∧ ∀ last ∈ lastPrice, ∀ limit ∈ maxDev,
        0 < last.rescaled → ExactDeviation data last limit := by
  obtain ⟨hfuture,hfresh,hprice,-⟩ := validatePriceData_ok h
  rw [validatePriceData_eq] at h
  obtain ⟨_,_,-,h⟩ := bind_eq_ok.mp h
  obtain ⟨_,_,-,h⟩ := bind_eq_ok.mp h
  obtain ⟨_,_,-,h⟩ := bind_eq_ok.mp h
  obtain ⟨_,_,hcheck,h⟩ := bind_eq_ok.mp h
  obtain ⟨-,rfl,rfl⟩ := priceDataScaledPrice_ok.mp h
  have hnear : ∀ last ∈ lastPrice, ∀ limit ∈ maxDev, 0 < last.rescaled →
      (|data.rescaled-last.rescaled| * 10000 ≤ limit*last.rescaled ↔
        ExactDeviation data last limit) := by
    intro last hlast limit hlimit hpos
    obtain rfl := Option.mem_def.mp hlast
    obtain rfl := Option.mem_def.mp hlimit
    exact ProRata.le_mul_iff_of_floor hpos (validateDeviation_ok hprice.le hpos hcheck)
  rw [← PriceData.rescaled_pos_iff hprice]
  constructor
  · exact fun hu => ⟨hu.positive,fun last hlast limit hlimit hpos =>
      (hnear last hlast limit hlimit hpos).mp (hu.near last hlast limit hlimit hpos)⟩
  · rintro ⟨hpositive,hexact⟩
    exact ⟨hfuture,hfresh,hpositive,PriceData.rescaled_eq_floor hprice.le,
      fun last hlast limit hlimit hpos =>
        (hnear last hlast limit hlimit hpos).mpr (hexact last hlast limit hlimit hpos)⟩

def tenDollars : PriceData := ⟨10,100,0,by decide⟩

def twelveDollars : PriceData := ⟨1200,200,2,by decide⟩

theorem twelveDollars_usable :
    Usable 300 3600 twelveDollars (some 5000) (some tenDollars) (12*10^18) :=
  (accepted_usable_iff (s := ()) (t := ()) rfl).mpr ⟨by decide,by
    rintro last hlast limit hlimit -
    obtain rfl := Option.some.inj hlast
    obtain rfl := Option.some.inj hlimit
    exact fun _ => by decide⟩

def dustPrice : PriceData := ⟨9,0,30,by decide⟩

/-- A positive price below the eighteenth decimal is accepted as zero. -/
theorem dustPrice_accepted : ¬ ∀ (currentTime maxAge : ℕ) (data : PriceData) (maxDev : Option ℤ)
    (lastPrice : Option PriceData) (p : ℤ),
    (validatePriceData currentTime data maxAge maxDev lastPrice).run () = .ok p () →
      Usable currentTime maxAge data maxDev lastPrice p := by
  intro h
  exact lt_irrefl 0 (h 0 0 dustPrice none none 0 rfl).positive

end Acceptance

end YieldVault
