import Mathlib.Data.Prod.Lex
import Mathlib.Data.String.Basic
import YieldVault.Holdings
import YieldVault.Rounding
import YieldVault.Backend.Referrals

/-! The yield of a wallet, from which its referrer is paid: the transactions that the books hold
for it, at the prices of the snapshots. -/
namespace YieldVault.Backend

open Holdings Rounding

namespace ReferralYield

structure StoredTransaction where
  id : String
  user : String
  amount : String
  type : String
  status : Option String
  timestamp : ℤ

structure StoredSnapshot where
  id : String
  sharePrice : String
  recordedAt : ℤ
  createdAt : ℤ

structure YieldBooks where
  transactions : List StoredTransaction
  snapshots : List StoredSnapshot

structure YieldArithmetic extends DecimalArithmetic where
  mul : ℚ → ℚ → ℚ

def DEFAULT_SHARE_PRICE : ℚ := 1

/-- To the nearest number with so many places; from the middle, away from zero. -/
def toDecimalPlaces (places : ℕ) (x : ℚ) : ℚ :=
  if x < 0 then -(⌊-x*10^places+1/2⌋/10^places) else ⌊x*10^places+1/2⌋/10^places

def StoredTransaction.counts (user : String) (tx : StoredTransaction) : Bool :=
  tx.user == user && (tx.type == "deposit" || tx.type == "withdrawal") &&
    (tx.status == none || tx.status == some "completed" || tx.status == some "pending")

/-- By timestamp, then by id. -/
def findTransactions (user : String) (transactions : List StoredTransaction) :
    List StoredTransaction :=
  (transactions.filter (StoredTransaction.counts user)).mergeSort fun tx tx' =>
    decide (toLex (tx.timestamp,tx.id) ≤ toLex (tx'.timestamp,tx'.id))

/-- By the time they are of, then by the time they were made, then by id. -/
def findSnapshots (snapshots : List StoredSnapshot) : List StoredSnapshot :=
  snapshots.mergeSort fun s s' => decide
    (toLex (s.recordedAt,toLex (s.createdAt,s.id)) ≤ toLex (s'.recordedAt,toLex (s'.createdAt,s'.id)))

variable (parse : String → Option ℚ)

def parseDecimal (value : String) : ℚ := (parse (if value = "" then "0" else value)).getD 0

def resolveLatestSharePrice (snapshots : List StoredSnapshot) : ℚ :=
  match snapshots.getLast? with
  | none => DEFAULT_SHARE_PRICE
  | some s => max DEFAULT_SHARE_PRICE (parseDecimal parse s.sharePrice)

def resolveSharePriceForTimestamp (snapshots : List StoredSnapshot) (timestamp : ℤ) : ℚ :=
  match (snapshots.filter fun s => s.recordedAt ≤ timestamp).getLast? with
  | some s => max DEFAULT_SHARE_PRICE (parseDecimal parse s.sharePrice)
  | none =>
    match snapshots.head? with
    | some s => max DEFAULT_SHARE_PRICE (parseDecimal parse s.sharePrice)
    | none => DEFAULT_SHARE_PRICE

structure YieldTotals where
  totalDeposited : ℚ := 0
  totalWithdrawn : ℚ := 0
  sharesOwned : ℚ := 0

variable (decimals : YieldArithmetic)

def countTransaction (snapshots : List StoredSnapshot) (tx : StoredTransaction)
    (totals : YieldTotals) : YieldTotals :=
  let amount := parseDecimal parse tx.amount
  if amount ≤ 0 then totals
  else
    let shares := decimals.div amount (resolveSharePriceForTimestamp parse snapshots tx.timestamp)
    if tx.type = "deposit" then
      { totals with
        totalDeposited := decimals.plus totals.totalDeposited amount
        sharesOwned := decimals.plus totals.sharesOwned shares }
    else
      { totals with
        totalWithdrawn := decimals.plus totals.totalWithdrawn amount
        sharesOwned := max 0 (decimals.minus totals.sharesOwned shares) }

/-- The value of what is left at the end, and what was withdrawn, beyond what was deposited. -/
def netYield (snapshots : List StoredSnapshot) (transactions : List StoredTransaction) : ℚ :=
  let totals := Runs.run (countTransaction parse decimals snapshots) transactions {}
  let endingValue := decimals.mul totals.sharesOwned (resolveLatestSharePrice parse snapshots)
  decimals.minus (decimals.plus endingValue totals.totalWithdrawn) totals.totalDeposited

def calculateUserYield (letters : UpperCase) (books : YieldBooks) (walletAddress : String) : ℚ :=
  let transactions :=
    findTransactions (normalizeWalletAddress letters walletAddress) books.transactions
  let snapshots := findSnapshots books.snapshots
  if transactions = [] then 0
  else toDecimalPlaces 6 (max 0 (netYield parse decimals snapshots transactions))

section Measure

/-- A transaction as a trade, unless it moves nothing. -/
def StoredTransaction.trade (tx : StoredTransaction) : Option (Trade ℤ ℚ) :=
  let amount := parseDecimal parse tx.amount
  if amount ≤ 0 then none
  else some ⟨tx.timestamp,if tx.type = "deposit" then amount else -amount⟩

def trades (transactions : List StoredTransaction) : List (Trade ℤ ℚ) :=
  transactions.filterMap (StoredTransaction.trade parse)

def StoredSnapshot.quote (s : StoredSnapshot) : Quote ℤ ℚ :=
  ⟨s.recordedAt,max DEFAULT_SHARE_PRICE (parseDecimal parse s.sharePrice)⟩

def quotes (snapshots : List StoredSnapshot) : List (Quote ℤ ℚ) :=
  snapshots.map (StoredSnapshot.quote parse)

variable {parse} {snapshots : List StoredSnapshot}

theorem resolveLatestSharePrice_eq :
    resolveLatestSharePrice parse snapshots = latest DEFAULT_SHARE_PRICE (quotes parse snapshots) := by
  rw [resolveLatestSharePrice,latest,quotes,List.getLast?_map]
  cases snapshots.getLast? <;> rfl

theorem resolveSharePriceForTimestamp_eq (t : ℤ) :
    resolveSharePriceForTimestamp parse snapshots t =
      priceAt DEFAULT_SHARE_PRICE (quotes parse snapshots) t := by
  have hfilter : (quotes parse snapshots).filter (fun q => decide (q.time ≤ t)) =
      (snapshots.filter fun s => decide (s.recordedAt ≤ t)).map (StoredSnapshot.quote parse) :=
    List.filter_map
  rw [resolveSharePriceForTimestamp,priceAt,hfilter,latest,List.getLast?_map,first,quotes,
    List.head?_map]
  cases (snapshots.filter fun s => decide (s.recordedAt ≤ t)).getLast? with
  | some s => rfl
  | none => cases snapshots.head? <;> rfl

theorem one_le_priceAt (t : ℤ) : 1 ≤ priceAt DEFAULT_SHARE_PRICE (quotes parse snapshots) t := by
  rw [← resolveSharePriceForTimestamp_eq,resolveSharePriceForTimestamp]
  split
  · exact le_max_left _ _
  · split
    · exact le_max_left _ _
    · exact le_rfl

theorem one_le_latestPrice : 1 ≤ latest DEFAULT_SHARE_PRICE (quotes parse snapshots) := by
  rw [← resolveLatestSharePrice_eq,resolveLatestSharePrice]
  split
  · exact le_rfl
  · exact le_max_left _ _

/-- The operations of the library, with relative error at most `ε`. -/
structure Precise (ε : ℚ) (decimals : YieldArithmetic) : Prop where
  plus : ∀ x y, Rounds ε (decimals.plus x y) (x+y)
  minus : ∀ x y, Rounds ε (decimals.minus x y) (x-y)
  mul : ∀ x y, Rounds ε (decimals.mul x y) (x*y)
  div : ∀ x y, y ≠ 0 → Rounds ε (decimals.div x y) (x/y)

variable (parse) (snapshots) in
def sharesMoved (transactions : List StoredTransaction) : ℚ :=
  ((trades parse transactions).map fun trade =>
    |moved DEFAULT_SHARE_PRICE (quotes parse snapshots) trade|).sum

variable (parse) in
def deposited (transactions : List StoredTransaction) : ℚ :=
  ((trades parse transactions).map fun trade => max 0 trade.amount).sum

variable (parse) in
def withdrawn (transactions : List StoredTransaction) : ℚ :=
  ((trades parse transactions).map fun trade => max 0 (-trade.amount)).sum

structure Tracks (parse : String → Option ℚ) (snapshots : List StoredSnapshot) (ε : ℚ)
    (transactions : List StoredTransaction) (totals : YieldTotals) : Prop where
  deposits : Near ε (transactions.length+1) (deposited parse transactions) totals.totalDeposited
    (deposited parse transactions)
  withdrawals : Near ε (transactions.length+1) (withdrawn parse transactions)
    totals.totalWithdrawn (withdrawn parse transactions)
  shares : Near ε (transactions.length+1) (sharesMoved parse snapshots transactions)
    totals.sharesOwned
    (held DEFAULT_SHARE_PRICE (quotes parse snapshots) (trades parse transactions))

variable {decimals : YieldArithmetic} {ε : ℚ} {transactions : List StoredTransaction}

theorem tracks_start (hε : 0 ≤ ε) : Tracks parse snapshots ε [] {} where
  deposits := near_self hε (by simp [deposited,trades])
  withdrawals := near_self hε (by simp [withdrawn,trades])
  shares := near_self hε (by simp [sharesMoved,trades])

theorem trades_concat_none {tx : StoredTransaction} (h : tx.trade parse = none) :
    trades parse (transactions ++ [tx]) = trades parse transactions := by
  simp [trades,h]

theorem trades_concat_some {tx : StoredTransaction} {trade : Trade ℤ ℚ}
    (h : tx.trade parse = some trade) :
    trades parse (transactions ++ [tx]) = trades parse transactions ++ [trade] := by
  simp [trades,h]

theorem Tracks.skip (hε : 0 ≤ ε) {totals : YieldTotals}
    (h : Tracks parse snapshots ε transactions totals) {tx : StoredTransaction}
    (hnone : tx.trade parse = none) :
    Tracks parse snapshots ε (transactions ++ [tx]) totals := by
  have hgrow : transactions.length+1 ≤ (transactions ++ [tx]).length+1 := by simp
  constructor
  · rw [deposited,trades_concat_none hnone]
    exact h.deposits.mono hε hgrow
  · rw [withdrawn,trades_concat_none hnone]
    exact h.withdrawals.mono hε hgrow
  · rw [sharesMoved,trades_concat_none hnone]
    exact h.shares.mono hε hgrow

theorem Tracks.trade {after : YieldTotals} {tx : StoredTransaction} (trade : Trade ℤ ℚ)
    (hsome : tx.trade parse = some trade)
    (hdeposits : Near ε (transactions.length+2) (deposited parse transactions+max 0 trade.amount)
      after.totalDeposited (deposited parse transactions+max 0 trade.amount))
    (hwithdrawals : Near ε (transactions.length+2)
      (withdrawn parse transactions+max 0 (-trade.amount))
      after.totalWithdrawn (withdrawn parse transactions+max 0 (-trade.amount)))
    (hshares : Near ε (transactions.length+2) (sharesMoved parse snapshots transactions+
        |moved DEFAULT_SHARE_PRICE (quotes parse snapshots) trade|) after.sharesOwned
      (max 0 (held DEFAULT_SHARE_PRICE (quotes parse snapshots) (trades parse transactions)+
        moved DEFAULT_SHARE_PRICE (quotes parse snapshots) trade))) :
    Tracks parse snapshots ε (transactions ++ [tx]) after := by
  constructor
  · simpa [deposited,trades_concat_some hsome] using hdeposits
  · simpa [withdrawn,trades_concat_some hsome] using hwithdrawals
  · rw [trades_concat_some hsome,held_concat]
    simpa [sharesMoved,trades_concat_some hsome] using hshares

theorem Tracks.count (hε : 0 ≤ ε) (hprecise : Precise ε decimals) {totals : YieldTotals}
    (h : Tracks parse snapshots ε transactions totals) (tx : StoredTransaction) :
    Tracks parse snapshots ε (transactions ++ [tx])
      (countTransaction parse decimals snapshots tx totals) := by
  by_cases hamount : parseDecimal parse tx.amount ≤ 0
  · rw [countTransaction,if_pos hamount]
    exact h.skip hε (by simp [StoredTransaction.trade,hamount])
  · have hpos := (not_le.mp hamount).le
    have hprice : priceAt DEFAULT_SHARE_PRICE (quotes parse snapshots) tx.timestamp ≠ 0 :=
      (one_pos.trans_le (one_le_priceAt _)).ne'
    have hquotient := (near_self (n := 0) hε le_rfl).rounds hε
      (hprecise.div (parseDecimal parse tx.amount) _ hprice)
    have hmoved := hquotient.mono hε (Nat.le_add_left 1 transactions.length)
    have hkept : transactions.length+1 ≤ transactions.length+2 := Nat.le_succ _
    rw [countTransaction,if_neg hamount,resolveSharePriceForTimestamp_eq]
    split_ifs with htype
    · refine Tracks.trade ⟨tx.timestamp,parseDecimal parse tx.amount⟩
        (by simp [StoredTransaction.trade,hamount,htype]) ?_ ?_ ?_
      · rw [max_eq_right hpos]
        exact (h.deposits.add (near_self hε (abs_of_nonneg hpos).le)).rounds hε (hprecise.plus _ _)
      · rw [max_eq_left (neg_nonpos.mpr hpos),add_zero]
        exact h.withdrawals.mono hε hkept
      · have hbought : 0 ≤ moved DEFAULT_SHARE_PRICE (quotes parse snapshots)
            ⟨tx.timestamp,parseDecimal parse tx.amount⟩ :=
          div_nonneg hpos (zero_le_one.trans (one_le_priceAt _))
        rw [max_eq_right (add_nonneg held_nonneg hbought)]
        exact (h.shares.add hmoved).rounds hε (hprecise.plus _ _)
    · refine Tracks.trade ⟨tx.timestamp,-parseDecimal parse tx.amount⟩
        (by simp [StoredTransaction.trade,hamount,htype]) ?_ ?_ ?_
      · rw [max_eq_left (neg_nonpos.mpr hpos),add_zero]
        exact h.deposits.mono hε hkept
      · rw [neg_neg,max_eq_right hpos]
        exact (h.withdrawals.add (near_self hε (abs_of_nonneg hpos).le)).rounds hε
          (hprecise.plus _ _)
      · rw [moved,neg_div,abs_neg,← sub_eq_add_neg]
        exact ((h.shares.sub hmoved).rounds hε (hprecise.minus _ _)).max_zero

theorem tracks_run (hε : 0 ≤ ε) (hprecise : Precise ε decimals)
    (transactions : List StoredTransaction) : Tracks parse snapshots ε transactions
      (Runs.run (countTransaction parse decimals snapshots) transactions {}) := by
  induction transactions using List.reverseRecOn with
  | nil => exact tracks_start hε
  | append_singleton transactions tx ih =>
    rw [Runs.run_concat]
    exact ih.count hε hprecise tx

variable (parse snapshots transactions) in
def turnover : ℚ :=
  sharesMoved parse snapshots transactions*latest DEFAULT_SHARE_PRICE (quotes parse snapshots)+
    withdrawn parse transactions+deposited parse transactions

variable (parse snapshots transactions) in
/-- What the roundings can add up to. -/
def roundoff (ε : ℚ) : ℚ :=
  ((1+ε)^(transactions.length+4)-1)*turnover parse snapshots transactions

theorem withdrawn_sub_deposited (transactions : List StoredTransaction) :
    withdrawn parse transactions-deposited parse transactions =
      -((trades parse transactions).map Trade.amount).sum := by
  rw [withdrawn,deposited]
  induction trades parse transactions with
  | nil => simp
  | cons trade rest ih =>
    have hparts := max_zero_sub_max_neg_zero_eq_self trade.amount
    rw [max_comm _ 0,max_comm _ 0] at hparts
    simp only [List.map_cons,List.sum_cons]
    linear_combination ih-hparts

theorem trade_time {tx : StoredTransaction} {trade : Trade ℤ ℚ} (h : trade ∈ tx.trade parse) :
    trade.time = tx.timestamp := by
  simp only [StoredTransaction.trade,Option.mem_def] at h
  split_ifs at h
  all_goals
    obtain rfl := Option.some.inj h
    rfl

variable (parse) in
theorem trades_pairwise
    (h : transactions.Pairwise fun tx tx' => tx.timestamp ≤ tx'.timestamp) :
    (trades parse transactions).Pairwise fun trade trade' => trade.time ≤ trade'.time := by
  refine h.filterMap _ fun tx tx' htimes trade htrade trade' htrade' => ?_
  rw [trade_time htrade,trade_time htrade']
  exact htimes

variable (parse) in
/-- The net yield is the gain from the price and what was withdrawn without being held, up to
the roundings. -/
theorem netYield_near (hε : 0 ≤ ε) (hprecise : Precise ε decimals)
    (hsnapshots : snapshots.Pairwise fun s s' => s.recordedAt ≤ s'.recordedAt)
    (htransactions : transactions.Pairwise fun tx tx' => tx.timestamp ≤ tx'.timestamp) :
    |netYield parse decimals snapshots transactions-
      (gains DEFAULT_SHARE_PRICE (quotes parse snapshots) (trades parse transactions)+
        excess DEFAULT_SHARE_PRICE (quotes parse snapshots) (trades parse transactions))| ≤
      roundoff parse snapshots transactions ε := by
  have h : Tracks parse snapshots ε transactions
    (Runs.run (countTransaction parse decimals snapshots) transactions {}) :=
    tracks_run hε hprecise transactions
  have hlatest : 0 ≤ resolveLatestSharePrice parse snapshots := by
    rw [resolveLatestSharePrice_eq]
    exact zero_le_one.trans one_le_latestPrice
  have hvalue := (h.shares.mul_right hlatest).rounds hε (hprecise.mul _ _)
  have hplus := (hvalue.add (h.withdrawals.mono hε (Nat.le_succ _))).rounds hε (hprecise.plus _ _)
  have hminus := (hplus.sub (h.deposits.mono hε (by omega))).rounds hε (hprecise.minus _ _)
  have hquotes : (quotes parse snapshots).Pairwise fun q q' => q.time ≤ q'.time :=
    List.pairwise_map.mpr hsnapshots
  have hworth := worth_eq hquotes (fun t => one_pos.trans_le (one_le_priceAt t))
    (trades_pairwise parse htransactions)
  rw [sub_eq_add_neg,← withdrawn_sub_deposited,← add_sub_assoc] at hworth
  rw [← hworth,roundoff,turnover,← resolveLatestSharePrice_eq]
  exact hminus.error

theorem pairwise_sorted {α β : Type*} [LinearOrder β] (key : α → β) (l : List α) :
    (l.mergeSort fun a b => decide (key a ≤ key b)).Pairwise fun a b => key a ≤ key b := by
  refine (List.pairwise_mergeSort ?_ ?_ l).imp fun h => of_decide_eq_true h
  · intro a b c hab hbc
    simp only [decide_eq_true_eq] at hab hbc ⊢
    exact hab.trans hbc
  · intro a b
    rw [Bool.or_eq_true,decide_eq_true_eq,decide_eq_true_eq]
    exact le_total _ _

theorem findTransactions_pairwise (user : String) (stored : List StoredTransaction) :
    (findTransactions user stored).Pairwise fun tx tx' => tx.timestamp ≤ tx'.timestamp :=
  (pairwise_sorted (fun tx : StoredTransaction => toLex (tx.timestamp,tx.id)) _).imp
    fun h => Prod.Lex.monotone_fst _ _ h

theorem findSnapshots_pairwise (stored : List StoredSnapshot) :
    (findSnapshots stored).Pairwise fun s s' => s.recordedAt ≤ s'.recordedAt :=
  (pairwise_sorted (fun s : StoredSnapshot => toLex (s.recordedAt,toLex (s.createdAt,s.id))) _).imp
    fun h => Prod.Lex.monotone_fst _ _ h

theorem toDecimalPlaces_of_small {x : ℚ} (h : 0 ≤ x) (hsmall : 2*10^6*x < 1) :
    toDecimalPlaces 6 x = 0 := by
  have hfloor : ⌊x*10^6+1/2⌋ = 0 := Int.floor_eq_zero_iff.mpr ⟨by positivity,by linarith⟩
  rw [toDecimalPlaces,if_neg (not_lt.mpr h),hfloor]
  simp

end Measure

section Yield

variable (letters : UpperCase) (books : YieldBooks) (wallet : String)

def walletTransactions : List StoredTransaction :=
  findTransactions (normalizeWalletAddress letters wallet) books.transactions

/-- The sum over consecutive prices of the shares that the wallet holds, times the change of the
price. -/
def priceGains : ℚ :=
  gains DEFAULT_SHARE_PRICE (quotes parse (findSnapshots books.snapshots))
    (trades parse (walletTransactions letters books wallet))

/-- What the code makes of the net yield, and that the net yield is the gain from the prices, up
to the roundings of the arithmetic; at a price that never changes there is none. -/
structure MeasuresPrices (ε : ℚ) (decimals : YieldArithmetic) : Prop where
  rounded : calculateUserYield parse decimals letters books wallet = toDecimalPlaces 6
    (max 0 (netYield parse decimals (findSnapshots books.snapshots)
      (walletTransactions letters books wallet)))
  measured : |netYield parse decimals (findSnapshots books.snapshots)
        (walletTransactions letters books wallet)-priceGains parse letters books wallet| ≤
      roundoff parse (findSnapshots books.snapshots) (walletTransactions letters books wallet) ε
  constant : ∀ price, (∀ s ∈ books.snapshots, (s.quote parse).price = price) →
    2*10^6*roundoff parse (findSnapshots books.snapshots)
      (walletTransactions letters books wallet) ε < 1 →
    calculateUserYield parse decimals letters books wallet = 0

/-- No withdrawal takes more shares than the transactions up to it have left. -/
def WithinHoldings : Prop :=
  Covered DEFAULT_SHARE_PRICE (quotes parse (findSnapshots books.snapshots))
    (trades parse (walletTransactions letters books wallet))

variable {parse letters books wallet} {decimals : YieldArithmetic} {ε : ℚ}

theorem netYield_of_nothing (hε : 0 ≤ ε) (hprecise : Precise ε decimals)
    {snapshots : List StoredSnapshot}
    (hsnapshots : snapshots.Pairwise fun s s' => s.recordedAt ≤ s'.recordedAt) :
    netYield parse decimals snapshots [] = 0 := by
  have hnear : |netYield parse decimals snapshots []-_| ≤ _ :=
    netYield_near parse hε hprecise hsnapshots .nil
  have hexcess : excess DEFAULT_SHARE_PRICE (quotes parse snapshots) (trades parse []) = 0 := rfl
  have hgains : gains DEFAULT_SHARE_PRICE (quotes parse snapshots) (trades parse []) = 0 :=
    gains_nil
  have hroundoff : roundoff parse snapshots [] ε = 0 := by
    simp [roundoff,turnover,sharesMoved,withdrawn,deposited,trades]
  rw [hexcess,hgains,hroundoff,add_zero,sub_zero] at hnear
  exact abs_nonpos_iff.mp hnear

theorem calculateUserYield_eq (hε : 0 ≤ ε) (hprecise : Precise ε decimals) :
    calculateUserYield parse decimals letters books wallet = toDecimalPlaces 6
      (max 0 (netYield parse decimals (findSnapshots books.snapshots)
        (walletTransactions letters books wallet))) := by
  rw [calculateUserYield,walletTransactions]
  split_ifs with h
  · rw [h,netYield_of_nothing hε hprecise (findSnapshots_pairwise _),max_self,toDecimalPlaces_of_small le_rfl (by norm_num)]
  · rfl

theorem priceGains_of_constant {price : ℚ}
    (h : ∀ s ∈ books.snapshots, (s.quote parse).price = price) :
    priceGains parse letters books wallet = 0 := by
  refine gainsOver_of_constant _ (List.forall_mem_map.mpr fun s hs => h s ?_)
  exact List.mem_mergeSort.mp hs

theorem netYield_near_priceGains (hε : 0 ≤ ε) (hprecise : Precise ε decimals)
    (h : WithinHoldings parse letters books wallet) :
    |netYield parse decimals (findSnapshots books.snapshots)
        (walletTransactions letters books wallet)-priceGains parse letters books wallet| ≤
      roundoff parse (findSnapshots books.snapshots) (walletTransactions letters books wallet) ε := by
  have hexcess := (excess_eq_zero_iff fun t => one_pos.trans_le (one_le_priceAt t)).mpr h
  have hnear := netYield_near parse hε hprecise (findSnapshots_pairwise books.snapshots)
    (findTransactions_pairwise (normalizeWalletAddress letters wallet) books.transactions)
  rw [← walletTransactions,hexcess,add_zero] at hnear
  exact hnear

theorem measuresPrices_of_withinHoldings (hε : 0 ≤ ε) (hprecise : Precise ε decimals)
    (h : WithinHoldings parse letters books wallet) :
    MeasuresPrices parse letters books wallet ε decimals where
  rounded := calculateUserYield_eq hε hprecise
  measured := netYield_near_priceGains hε hprecise h
  constant price hprice hroundoff := by
    have hnear := netYield_near_priceGains hε hprecise h
    rw [priceGains_of_constant hprice,sub_zero] at hnear
    have hnet := (max_le (abs_nonneg _) (le_abs_self _)).trans hnear
    rw [calculateUserYield_eq hε hprecise]
    exact toDecimalPlaces_of_small (le_max_left _ _) (by linarith)

def exactArithmetic : YieldArithmetic where
  plus := (· + ·)
  minus := (· - ·)
  div := (· / ·)
  toFixed := toDecimalPlaces
  mul := (· * ·)

theorem precise_exactArithmetic : Precise 0 exactArithmetic where
  plus _ _ := rounds_self le_rfl
  minus _ _ := rounds_self le_rfl
  mul _ _ := rounds_self le_rfl
  div _ _ _ := rounds_self le_rfl

/-- The yield measures the prices exactly for the wallets that never withdraw more than they
hold. -/
theorem measuresPrices_iff :
    (∀ ε ≥ 0, ∀ decimals, Precise ε decimals →
      MeasuresPrices parse letters books wallet ε decimals) ↔
      WithinHoldings parse letters books wallet := by
  refine ⟨fun h => ?_,fun h ε hε decimals hprecise =>
    measuresPrices_of_withinHoldings hε hprecise h⟩
  -- without roundings, what was withdrawn without being held is all that is left over
  have hmeasured := (h 0 le_rfl _ precise_exactArithmetic).measured
  have hnear := netYield_near parse le_rfl precise_exactArithmetic
    (findSnapshots_pairwise books.snapshots)
    (findTransactions_pairwise (normalizeWalletAddress letters wallet) books.transactions)
  have hroundoff (snapshots transactions) : roundoff parse snapshots transactions 0 = 0 := by
    simp [roundoff]
  rw [hroundoff,abs_nonpos_iff,sub_eq_zero] at hmeasured hnear
  rw [← walletTransactions,hmeasured,priceGains,left_eq_add] at hnear
  exact (excess_eq_zero_iff fun t => one_pos.trans_le (one_le_priceAt t)).mp hnear

def overdrawn : YieldBooks where
  transactions :=
    [⟨"1","GALICE","100","deposit",some "completed",0⟩,
      ⟨"2","GALICE","150","withdrawal",some "completed",1⟩]
  snapshots := []

def parseAmount (value : String) : Option ℚ :=
  if value = "100" then some 100 else if value = "150" then some 150 else none

theorem walletTransactions_overdrawn :
    walletTransactions ReferralBook.asciiLetters overdrawn "GALICE" = overdrawn.transactions := by
  have hwallet : normalizeWalletAddress ReferralBook.asciiLetters "GALICE" = "GALICE" := by decide
  have hall : overdrawn.transactions.filter (StoredTransaction.counts "GALICE") =
      overdrawn.transactions := rfl
  rw [walletTransactions,findTransactions,hwallet,hall]
  refine List.mergeSort_of_pairwise ?_
  simp [overdrawn,Prod.Lex.toLex_le_toLex]

theorem calculateUserYield_overdrawn :
    calculateUserYield parseAmount exactArithmetic ReferralBook.asciiLetters overdrawn "GALICE" =
      50 := by
  have hsnapshots : findSnapshots overdrawn.snapshots = [] := List.mergeSort_nil
  rw [calculateUserYield_eq le_rfl precise_exactArithmetic,walletTransactions_overdrawn,hsnapshots]
  have hfirst : parseDecimal parseAmount "100" = 100 := by decide
  have hsecond : parseDecimal parseAmount "150" = 150 := by decide
  have htype : "withdrawal" ≠ "deposit" := by decide
  norm_num [overdrawn,netYield,countTransaction,hfirst,hsecond,htype,exactArithmetic,
    resolveSharePriceForTimestamp,resolveLatestSharePrice,DEFAULT_SHARE_PRICE,Runs.run,
    toDecimalPlaces]

/-- At a constant price the yield of the wallet is 50. -/
theorem not_measuresPrices_overdrawn :
    calculateUserYield parseAmount exactArithmetic ReferralBook.asciiLetters overdrawn "GALICE" =
        50 ∧
      ¬MeasuresPrices parseAmount ReferralBook.asciiLetters overdrawn "GALICE" 0
        exactArithmetic := by
  refine ⟨calculateUserYield_overdrawn,fun h => ?_⟩
  have hzero := h.constant 1 (by simp [overdrawn]) (by norm_num [roundoff])
  rw [calculateUserYield_overdrawn] at hzero
  norm_num at hzero

end Yield

end ReferralYield

end YieldVault.Backend
