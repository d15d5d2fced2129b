import Mathlib.Tactic

/-! What a holder of shares gains from the price. Trades are amounts of money, positive for a
purchase and negative for a sale, at the price that was quoted last; who sells more than is held
is left with nothing. -/
namespace Holdings

structure Quote (T K : Type*) where
  time : T
  price : K

structure Trade (T K : Type*) where
  time : T
  amount : K

variable {T K : Type*}

section Prices

def latest (unquoted : K) (quotes : List (Quote T K)) : K :=
  (quotes.getLast?.map Quote.price).getD unquoted

def first (unquoted : K) (quotes : List (Quote T K)) : K :=
  (quotes.head?.map Quote.price).getD unquoted

theorem latest_cons (unquoted unquoted' : K) (q : Quote T K) (quotes : List (Quote T K)) :
    latest unquoted (q :: quotes) = latest unquoted' (q :: quotes) := by
  simp [latest,List.getLast?_eq_some_getLast]

theorem latest_cons_cons (unquoted : K) (q q' : Quote T K) (quotes : List (Quote T K)) :
    latest unquoted (q :: q' :: quotes) = latest unquoted (q' :: quotes) := by
  simp [latest]

variable [LinearOrder T]

/-- The price at a moment; before the first quote it is the first price. -/
def priceAt (unquoted : K) (quotes : List (Quote T K)) (t : T) : K :=
  latest (first unquoted quotes) (quotes.filter fun q => q.time ≤ t)

variable {unquoted : K} {quotes : List (Quote T K)} {t : T}

theorem priceAt_of_all_later {q : Quote T K} (h : ∀ q' ∈ quotes, t < q'.time) :
    priceAt unquoted (q :: quotes) t = q.price := by
  have hfilter : quotes.filter (fun q => decide (q.time ≤ t)) = [] := by
    refine List.filter_eq_nil_iff.mpr fun q' hq' => ?_
    simpa using h q' hq'
  by_cases hq : q.time ≤ t
  · simp [priceAt,hfilter,hq,latest]
  · simp [priceAt,hfilter,hq,latest,first]

theorem priceAt_tail {q q' : Quote T K} (h : q'.time ≤ t) :
    priceAt unquoted (q :: q' :: quotes) t = priceAt unquoted (q' :: quotes) t := by
  have htail : (q' :: quotes).filter (fun q => decide (q.time ≤ t)) =
      q' :: quotes.filter fun q => decide (q.time ≤ t) := by simp [h]
  by_cases hq : q.time ≤ t
  · rw [priceAt,priceAt,List.filter_cons_of_pos (by simpa using hq),htail,latest_cons_cons]
    exact latest_cons _ _ _ _
  · rw [priceAt,priceAt,List.filter_cons_of_neg (by simpa using hq),htail]
    exact latest_cons _ _ _ _

end Prices

section Gains

variable [CommRing K]

/-- The sum over consecutive quotes of the shares that are held until the second one, times the
change of the price. -/
def gainsOver (shares : T → K) : List (Quote T K) → K
  | q :: q' :: quotes => shares q'.time*(q'.price-q.price)+gainsOver shares (q' :: quotes)
  | [_] => 0
  | [] => 0

variable {quotes : List (Quote T K)}

theorem gainsOver_add (f g : T → K) (quotes : List (Quote T K)) :
    gainsOver (fun t => f t+g t) quotes = gainsOver f quotes+gainsOver g quotes := by
  induction quotes with
  | nil => simp [gainsOver]
  | cons q quotes ih =>
    cases quotes with
    | nil => simp [gainsOver]
    | cons q' quotes =>
      rw [gainsOver,gainsOver,gainsOver,ih]
      ring

theorem gainsOver_zero (quotes : List (Quote T K)) : gainsOver (fun _ => 0) quotes = 0 := by
  induction quotes with
  | nil => rfl
  | cons q quotes ih =>
    cases quotes with
    | nil => rfl
    | cons q' quotes => rw [gainsOver,ih,zero_mul,add_zero]

theorem gainsOver_of_constant (shares : T → K) {price : K} (h : ∀ q ∈ quotes, q.price = price) :
    gainsOver shares quotes = 0 := by
  induction quotes with
  | nil => rfl
  | cons q quotes ih =>
    cases quotes with
    | nil => rfl
    | cons q' quotes =>
      obtain ⟨hq,hquotes⟩ := List.forall_mem_cons.mp h
      rw [gainsOver,ih hquotes,hq,hquotes q' List.mem_cons_self,sub_self,mul_zero,add_zero]

variable [LinearOrder T] {unquoted : K} {t : T}

theorem gainsOver_of_all_later (c : K) {q : Quote T K} (h : ∀ q' ∈ quotes, t < q'.time) :
    gainsOver (fun t' => if t < t' then c else 0) (q :: quotes) =
      c*(latest unquoted (q :: quotes)-q.price) := by
  induction quotes generalizing q with
  | nil => simp [gainsOver,latest]
  | cons q' quotes ih =>
    obtain ⟨hq,hquotes⟩ := List.forall_mem_cons.mp h
    rw [gainsOver,if_pos hq,ih hquotes,latest_cons_cons]
    ring

/-- Shares that are held from some moment on gain the change of the price since then. -/
theorem gainsOver_from (hsorted : quotes.Pairwise fun q q' => q.time ≤ q'.time) (c : K) (t : T) :
    gainsOver (fun t' => if t < t' then c else 0) quotes =
      c*(latest unquoted quotes-priceAt unquoted quotes t) := by
  induction quotes with
  | nil => simp [gainsOver,latest,priceAt,first]
  | cons q quotes ih =>
    obtain ⟨-,htail⟩ := List.pairwise_cons.mp hsorted
    cases quotes with
    | nil =>
      rw [priceAt_of_all_later (by simp),gainsOver]
      simp [latest]
    | cons q' quotes =>
      by_cases h : t < q'.time
      · have hall : ∀ r ∈ q' :: quotes, t < r.time := by
          refine List.forall_mem_cons.mpr ⟨h,fun r hr => ?_⟩
          exact h.trans_le ((List.pairwise_cons.mp htail).1 r hr)
        rw [gainsOver_of_all_later c hall,priceAt_of_all_later hall]
      · rw [gainsOver,if_neg h,ih htail,priceAt_tail (not_lt.mp h),latest_cons_cons]
        ring

end Gains

section Accounts

variable [LinearOrder T] [Field K] [LinearOrder K] (unquoted : K) (quotes : List (Quote T K))

def moved (trade : Trade T K) : K := trade.amount/priceAt unquoted quotes trade.time

/-- The shares that are held, and the worth at their sales of all that were sold without being
held. -/
def settle (account : K × K) (trade : Trade T K) : K × K :=
  (max 0 (account.1+moved unquoted quotes trade),
    account.2+max 0 (-(account.1+moved unquoted quotes trade))*
      priceAt unquoted quotes trade.time)

def account (trades : List (Trade T K)) : K × K := trades.foldl (settle unquoted quotes) (0,0)

def held (trades : List (Trade T K)) : K := (account unquoted quotes trades).1

def excess (trades : List (Trade T K)) : K := (account unquoted quotes trades).2

def heldUntil (trades : List (Trade T K)) (t : T) : K :=
  held unquoted quotes (trades.filter fun trade => trade.time < t)

def gains (trades : List (Trade T K)) : K :=
  gainsOver (heldUntil unquoted quotes trades) quotes

/-- No sale takes more than what the trades up to it have left. -/
def Covered (trades : List (Trade T K)) : Prop :=
  ∀ before, before <+: trades → 0 ≤ (before.map (moved unquoted quotes)).sum

variable {unquoted quotes} {trades : List (Trade T K)} {trade : Trade T K}

theorem held_concat : held unquoted quotes (trades ++ [trade]) =
    max 0 (held unquoted quotes trades+moved unquoted quotes trade) := by
  simp [held,account,settle]

theorem excess_concat : excess unquoted quotes (trades ++ [trade]) =
    excess unquoted quotes trades+
      max 0 (-(held unquoted quotes trades+moved unquoted quotes trade))*
        priceAt unquoted quotes trade.time := by
  simp [excess,held,account,settle]

theorem held_nonneg : 0 ≤ held unquoted quotes trades := by
  induction trades using List.reverseRecOn with
  | nil => exact le_rfl
  | append_singleton trades trade ih =>
    rw [held_concat]
    exact le_max_left _ _

/-- The last trade changes what is held at all later moments by the same number of shares. -/
theorem heldUntil_concat (hlast : ∀ other ∈ trades, other.time ≤ trade.time) (t : T) :
    heldUntil unquoted quotes (trades ++ [trade]) t = heldUntil unquoted quotes trades t+
      if trade.time < t then held unquoted quotes (trades ++ [trade])-held unquoted quotes trades
      else 0 := by
  rw [heldUntil,heldUntil,List.filter_append]
  split_ifs with h
  · have hall : trades.filter (fun other => decide (other.time < t)) = trades := by
      refine List.filter_eq_self.mpr fun other hother => ?_
      simpa using (hlast other hother).trans_lt h
    have hone : [trade].filter (fun other => decide (other.time < t)) = [trade] := by simp [h]
    rw [hall,hone,add_sub_cancel]
  · have hnone : [trade].filter (fun other => decide (other.time < t)) = [] := by simpa using h
    rw [hnone,List.append_nil,add_zero]

theorem gains_nil : gains unquoted quotes ([] : List (Trade T K)) = 0 := by
  have hzero : heldUntil unquoted quotes [] = fun _ : T => (0 : K) := by
    funext t
    simp [heldUntil,held,account]
  rw [gains,hzero,gainsOver_zero]

theorem gains_concat (hquotes : quotes.Pairwise fun q q' => q.time ≤ q'.time)
    (hlast : ∀ other ∈ trades, other.time ≤ trade.time) :
    gains unquoted quotes (trades ++ [trade]) = gains unquoted quotes trades+
      (held unquoted quotes (trades ++ [trade])-held unquoted quotes trades)*
        (latest unquoted quotes-priceAt unquoted quotes trade.time) := by
  rw [gains,funext (heldUntil_concat hlast),gainsOver_add,gainsOver_from hquotes]
  rfl

theorem covered_nil : Covered unquoted quotes ([] : List (Trade T K)) := by
  intro before hbefore
  rw [List.prefix_nil.mp hbefore]
  rfl

theorem covered_concat : Covered unquoted quotes (trades ++ [trade]) ↔
    Covered unquoted quotes trades ∧
      0 ≤ (trades.map (moved unquoted quotes)).sum+moved unquoted quotes trade := by
  simp only [Covered,List.prefix_concat_iff,forall_eq_or_imp,List.map_append,List.sum_append,
    List.map_singleton,List.sum_singleton]
  exact and_comm

theorem held_of_covered (h : Covered unquoted quotes trades) :
    held unquoted quotes trades = (trades.map (moved unquoted quotes)).sum := by
  induction trades using List.reverseRecOn with
  | nil => simp [held,account]
  | append_singleton trades trade ih =>
    obtain ⟨hbefore,hlast⟩ := covered_concat.mp h
    rw [held_concat,ih hbefore,max_eq_right hlast]
    simp

variable [IsStrictOrderedRing K]

/-- What the holdings are worth beyond what was paid for them: the gains from the price, and what
was sold without being held. -/
theorem worth_eq (hquotes : quotes.Pairwise fun q q' => q.time ≤ q'.time)
    (hprices : ∀ t, 0 < priceAt unquoted quotes t)
    (htrades : trades.Pairwise fun trade trade' => trade.time ≤ trade'.time) :
    held unquoted quotes trades*latest unquoted quotes-(trades.map Trade.amount).sum =
      gains unquoted quotes trades+excess unquoted quotes trades := by
  induction trades using List.reverseRecOn with
  | nil => simp [held,account,excess,gains_nil]
  | append_singleton trades trade ih =>
    obtain ⟨hbefore,-,hlast⟩ := List.pairwise_append.mp htrades
    rw [gains_concat hquotes fun other hother => hlast other hother trade (List.mem_singleton_self _),
      excess_concat,held_concat,List.map_append,List.sum_append,List.map_singleton,
      List.sum_singleton]
    have hmoved : trade.amount = moved unquoted quotes trade*priceAt unquoted quotes trade.time :=
      (div_mul_cancel₀ _ (hprices _).ne').symm
    have hparts := max_zero_sub_max_neg_zero_eq_self
      (held unquoted quotes trades+moved unquoted quotes trade)
    rw [max_comm _ 0,max_comm _ 0] at hparts
    linear_combination ih hbefore-hmoved+priceAt unquoted quotes trade.time*hparts

theorem excess_nonneg (hprices : ∀ t, 0 < priceAt unquoted quotes t) :
    0 ≤ excess unquoted quotes trades := by
  induction trades using List.reverseRecOn with
  | nil => exact le_rfl
  | append_singleton trades trade ih =>
    rw [excess_concat]
    exact add_nonneg ih (mul_nonneg (le_max_left _ _) (hprices _).le)

theorem excess_eq_zero_iff (hprices : ∀ t, 0 < priceAt unquoted quotes t) :
    excess unquoted quotes trades = 0 ↔ Covered unquoted quotes trades := by
  induction trades using List.reverseRecOn with
  | nil => exact iff_of_true rfl covered_nil
  | append_singleton trades trade ih =>
    have hworth : 0 ≤ max 0 (-(held unquoted quotes trades+moved unquoted quotes trade))*
        priceAt unquoted quotes trade.time := mul_nonneg (le_max_left _ _) (hprices _).le
    rw [excess_concat,add_eq_zero_iff_of_nonneg (excess_nonneg hprices) hworth,ih,covered_concat]
    refine and_congr_right fun hcovered => ?_
    rw [held_of_covered hcovered,mul_eq_zero_iff_right (hprices _).ne',max_eq_left_iff,neg_nonpos]

end Accounts

end Holdings
