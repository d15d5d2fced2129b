import YieldVault.Backend.AdminRoles
import YieldVault.Backend.VaultLedger

/-! Referral codes, the referrals that deposits make of them, and the rewards of the
referrers. -/
namespace YieldVault.Backend

section Wallets

/-- Upper case, character by character: a character becomes one or more, which stay as they
are, and of which none is white space unless it was. -/
structure UpperCase where
  upper : Char → List Char
  upper_upper : ∀ c, ∀ d ∈ upper c, upper d = [d]
  upper_ne_nil : ∀ c, upper c ≠ []
  upper_space : ∀ c, isSpace c = false → ∀ d ∈ upper c, isSpace d = false

def trim (chars : List Char) : List Char :=
  ((chars.dropWhile isSpace).reverse.dropWhile isSpace).reverse

def normalizeWalletAddress (letters : UpperCase) (address : String) : String :=
  if address = "" then "" else String.ofList ((trim address.toList).flatMap letters.upper)

/-- No white space at either end. -/
structure Trimmed (chars : List Char) : Prop where
  first : ∀ c ∈ chars.head?, isSpace c = false
  last : ∀ c ∈ chars.getLast?, isSpace c = false

theorem Trimmed.trim {chars : List Char} (h : Trimmed chars) : trim chars = chars := by
  have hdrop : ∀ {l : List Char}, (∀ c ∈ l.head?, isSpace c = false) → l.dropWhile isSpace = l := by
    intro l hl
    cases l with
    | nil => rfl
    | cons c l => exact List.dropWhile_cons_of_neg (by simp [hl c rfl])
  unfold Backend.trim
  rw [hdrop h.first,hdrop (by simpa using h.last),List.reverse_reverse]

theorem trimmed_trim (chars : List Char) : Trimmed (trim chars) := by
  have hhead : ∀ (l : List Char), ∀ c ∈ (l.dropWhile isSpace).head?, isSpace c = false := by
    intro l c hc
    have hnot := List.head?_dropWhile_not isSpace l
    rw [Option.mem_def.mp hc] at hnot
    exact hnot
  refine ⟨fun c hc => hhead chars c ?_,fun c hc => ?_⟩
  · -- what is left at the end begins where the text did
    have hprefix : trim chars <+: chars.dropWhile isSpace := by
      rw [← List.reverse_reverse (chars.dropWhile isSpace)]
      exact List.reverse_prefix.mpr (List.dropWhile_suffix _)
    obtain ⟨rest,hrest⟩ := hprefix
    rw [← hrest,List.head?_append,Option.mem_def.mp hc]
    rfl
  · rw [trim,List.getLast?_reverse] at hc
    exact hhead _ c hc

variable (letters : UpperCase)

theorem Trimmed.upper {chars : List Char} (h : Trimmed chars) :
    Trimmed (chars.flatMap letters.upper) := by
  constructor
  · cases chars with
    | nil => exact nofun
    | cons c l =>
      intro d hd
      rw [List.flatMap_cons,List.head?_append_of_ne_nil _ (letters.upper_ne_nil c)] at hd
      exact letters.upper_space c (h.first c rfl) d (List.mem_of_mem_head? hd)
  · rcases List.eq_nil_or_concat' chars with rfl | ⟨l,c,rfl⟩
    · exact nofun
    · intro d hd
      rw [List.flatMap_append,List.flatMap_singleton,
        List.getLast?_append_of_ne_nil _ (letters.upper_ne_nil c)] at hd
      exact letters.upper_space c (h.last c (by simp)) d (List.mem_of_mem_getLast? hd)

theorem upper_upper (chars : List Char) :
    (chars.flatMap letters.upper).flatMap letters.upper = chars.flatMap letters.upper := by
  rw [List.flatMap_assoc]
  refine List.flatMap_congr fun c _ => ?_
  calc (letters.upper c).flatMap letters.upper
      = (letters.upper c).flatMap fun d => [d] :=
        List.flatMap_congr fun d hd => letters.upper_upper c d hd
    _ = letters.upper c := List.flatMap_singleton' _

theorem normalize_normalize (address : String) :
    normalizeWalletAddress letters (normalizeWalletAddress letters address) =
      normalizeWalletAddress letters address := by
  by_cases hempty : address = ""
  · simp [normalizeWalletAddress,hempty]
  · rw [normalizeWalletAddress,normalizeWalletAddress,if_neg hempty]
    split
    case isTrue h => exact h.symm
    case isFalse =>
      rw [String.toList_ofList,((trimmed_trim _).upper letters).trim,upper_upper]

end Wallets

structure Referral where
  referrerAddress : String
  referredAddress : String
  firstDepositAt : Option ℕ := none
  deriving DecidableEq

structure ReferralCode where
  code : String
  ownerAddress : String
  deriving DecidableEq

/-- The upper case of letters, the arithmetic of the rewards, and what a reward is of a yield. -/
structure ReferralConfig where
  letters : UpperCase
  decimals : DecimalArithmetic
  mul : ℚ → ℚ → ℚ
  rewardPercentage : ℚ

structure ReferralBook where
  codes : List ReferralCode := []
  referrals : List Referral := []
  firstDeposits : String → Option ℕ := fun _ => none

/-- A deposit, which is `recorded` unless the database fails; the creation of a code, and the
codes that are drawn for a wallet. -/
inductive ReferralEvent
  | deposit (walletAddress : String) (referralCode : Option String) (now : ℕ) (recorded : Bool)
  | createReferralCode (ownerAddress code : String)
  | getOrCreateReferralCode (ownerAddress : String) (drawn : List String)

namespace ReferralBook

variable (cfg : ReferralConfig)

def findCode (code : String) (s : ReferralBook) : Option ReferralCode :=
  s.codes.find? fun x => x.code = code

def findReferral (referred : String) (s : ReferralBook) : Option Referral :=
  s.referrals.find? fun r => r.referredAddress = referred

/-- The referrer that a deposit gives a wallet: the owner of its code, unless there is one. -/
def newReferrer (referred : String) (referralCode : Option String) (s : ReferralBook) :
    Option String :=
  match (referralCode.filter fun text => text ≠ "").bind fun text => s.findCode text with
  | none => none
  | some code =>
    match s.findReferral referred with
    | some _ => none
    | none => some (normalizeWalletAddress cfg.letters code.ownerAddress)

/-- The first part of `recordDeposit`: with a code, the relationship exists. -/
def ensureReferral (referred : String) (referralCode : Option String) (s : ReferralBook) :
    ReferralBook :=
  match s.newReferrer cfg referred referralCode with
  | none => s
  | some referrer => { s with
      referrals := s.referrals ++ [{ referrerAddress := referrer, referredAddress := referred }] }

/-- The second part: the referral that has no date yet gets one. -/
def dateReferral (referred : String) (now : ℕ) (s : ReferralBook) : ReferralBook :=
  match s.findReferral referred with
  | none => s
  | some referral =>
    if referral.firstDepositAt = none then
      { s with
        referrals := s.referrals.map fun r =>
          if r.referredAddress = referred then { r with firstDepositAt := some now } else r }
    else s

def recordDeposit (walletAddress : String) (referralCode : Option String) (now : ℕ)
    (s : ReferralBook) : ReferralBook :=
  let referred := normalizeWalletAddress cfg.letters walletAddress
  (s.ensureReferral cfg referred referralCode).dateReferral referred now

def noteDeposit (wallet : String) (now : ℕ) (s : ReferralBook) : ReferralBook :=
  { s with
    firstDeposits := Function.update s.firstDeposits wallet
      (some ((s.firstDeposits wallet).getD now)) }

/-- A code is unique; a wallet that has none gets the first new one of ten. -/
def step : ReferralEvent → ReferralBook → ReferralBook
  | .deposit walletAddress referralCode now recorded, s =>
    let t := s.noteDeposit (normalizeWalletAddress cfg.letters walletAddress) now
    if recorded then t.recordDeposit cfg walletAddress referralCode now else t
  | .createReferralCode ownerAddress code, s =>
    if s.findCode code = none then
      { s with codes := s.codes ++ [⟨code,normalizeWalletAddress cfg.letters ownerAddress⟩] }
    else s
  | .getOrCreateReferralCode ownerAddress drawn, s =>
    let owner := normalizeWalletAddress cfg.letters ownerAddress
    match s.codes.find? fun x => x.ownerAddress = owner with
    | some _ => s
    | none =>
      match (drawn.take 10).find? fun code => s.findCode code = none with
      | none => s
      | some code => { s with codes := s.codes ++ [⟨code,owner⟩] }

def getReferralStats (yieldOf : String → ℚ) (referrerAddress : String) (s : ReferralBook) :
    Option (ℕ × ℚ) :=
  let calculateUserYield (wallet : String) := yieldOf (normalizeWalletAddress cfg.letters wallet)
  let referrals := s.referrals.filter fun r =>
    r.referrerAddress = normalizeWalletAddress cfg.letters referrerAddress ∧
      r.firstDepositAt.isSome = true
  if referrals = [] then none
  else some (referrals.length,cfg.decimals.toFixed 6 (referrals.foldl (fun total r =>
    let earned := calculateUserYield (normalizeWalletAddress cfg.letters r.referredAddress)
    if 0 < earned then cfg.decimals.plus total (cfg.mul earned cfg.rewardPercentage)
    else total) 0))

/-- At most one referrer for each wallet, none its own, dated by the wallet's first deposit; and
no wallet's rewards depend on its own yield. -/
structure Kept (s : ReferralBook) : Prop where
  single : ∀ r ∈ s.referrals, ∀ r' ∈ s.referrals, r.referredAddress = r'.referredAddress → r = r'
  dated : ∀ r ∈ s.referrals, r.firstDepositAt = s.firstDeposits r.referredAddress
  foreign : ∀ r ∈ s.referrals, r.referrerAddress ≠ r.referredAddress
  unrewarded : ∀ (yieldOf yieldOf' : String → ℚ) (wallet : String),
    (∀ w ≠ normalizeWalletAddress cfg.letters wallet, yieldOf w = yieldOf' w) →
      s.getReferralStats cfg yieldOf wallet = s.getReferralStats cfg yieldOf' wallet

/-- A deposit that gives a wallet its referrer is the first one of the wallet, and the referrer
is another wallet. -/
def Referred (s : ReferralBook) : ReferralEvent → Prop
  | .deposit walletAddress referralCode now recorded => recorded = true →
    let wallet := normalizeWalletAddress cfg.letters walletAddress
    ∀ referrer ∈ s.newReferrer cfg wallet referralCode,
      referrer ≠ wallet ∧ ∀ first ∈ s.firstDeposits wallet, first = now
  | _ => True

/-- What holds in every run: each wallet has at most one referral, which is dated and after a
deposit of the wallet. -/
structure Formed (s : ReferralBook) : Prop where
  single : ∀ r ∈ s.referrals, ∀ r' ∈ s.referrals, r.referredAddress = r'.referredAddress → r = r'
  dated : ∀ r ∈ s.referrals, r.firstDepositAt.isSome = true
  deposited : ∀ r ∈ s.referrals, (s.firstDeposits r.referredAddress).isSome = true
  referred : ∀ r ∈ s.referrals,
    normalizeWalletAddress cfg.letters r.referredAddress = r.referredAddress

variable {cfg} {s : ReferralBook}

theorem findReferral_none {referred : String} (h : s.findReferral referred = none) :
    ∀ r ∈ s.referrals, r.referredAddress ≠ referred := by
  intro r hr
  simpa using List.find?_eq_none.mp h r hr

theorem findReferral_some {referred : String} {r : Referral}
    (h : s.findReferral referred = some r) : r ∈ s.referrals ∧ r.referredAddress = referred :=
  ⟨List.mem_of_find?_eq_some h,by simpa using List.find?_some h⟩

theorem newReferrer_none {referred referrer : String} {referralCode : Option String}
    (h : s.newReferrer cfg referred referralCode = some referrer) :
    s.findReferral referred = none := by
  unfold newReferrer at h
  split at h
  · cases h
  · split at h
    · cases h
    · assumption

theorem findReferral_append {referred : String} {r : Referral} (h : s.findReferral referred = none)
    (hr : r.referredAddress = referred) :
    findReferral referred { s with referrals := s.referrals ++ [r] } = some r := by
  unfold findReferral at h ⊢
  rw [List.find?_append,h]
  simp [hr]

theorem Formed.dateReferral (h : s.Formed cfg) (referred : String) (now : ℕ) :
    s.dateReferral referred now = s := by
  unfold ReferralBook.dateReferral
  split
  case h_1 => rfl
  case h_2 r hr => exact if_neg (Option.isSome_iff_ne_none.mp (h.dated r (findReferral_some hr).1))

theorem dateReferral_append {referred referrer : String} {now : ℕ}
    (h : s.findReferral referred = none) :
    dateReferral referred now { s with referrals := s.referrals ++ [⟨referrer,referred,none⟩] } =
      { s with referrals := s.referrals ++ [⟨referrer,referred,some now⟩] } := by
  have hsame : ∀ r ∈ s.referrals, (if r.referredAddress = referred then
      { r with firstDepositAt := some now } else r) = r :=
    fun r hr => if_neg (findReferral_none h r hr)
  unfold dateReferral
  rw [findReferral_append h rfl]
  simp [List.map_congr_left hsame]

variable (cfg) in
def made (referred : String) (referralCode : Option String) (now : ℕ) (s : ReferralBook) :
    Option Referral :=
  (s.newReferrer cfg referred referralCode).map fun referrer => ⟨referrer,referred,some now⟩

theorem Formed.recordDeposit (h : s.Formed cfg) (walletAddress : String)
    (referralCode : Option String) (now : ℕ) :
    s.recordDeposit cfg walletAddress referralCode now = { s with
      referrals := s.referrals ++
        (s.made cfg (normalizeWalletAddress cfg.letters walletAddress) referralCode now).toList } := by
  unfold ReferralBook.recordDeposit ensureReferral made
  dsimp only
  split
  case h_1 hnew => simp [h.dateReferral,hnew]
  case h_2 referrer hnew => simp [dateReferral_append (newReferrer_none hnew),hnew]

theorem noteDeposit_of_some {wallet w : String} (now : ℕ)
    (h : (s.firstDeposits w).isSome = true) :
    (s.noteDeposit wallet now).firstDeposits w = s.firstDeposits w := by
  by_cases hw : w = wallet
  · subst hw
    obtain ⟨first,hfirst⟩ := Option.isSome_iff_exists.mp h
    simp [noteDeposit,hfirst]
  · exact Function.update_of_ne hw _ _

theorem Formed.noteDeposit (h : s.Formed cfg) (wallet : String) (now : ℕ) :
    (s.noteDeposit wallet now).Formed cfg := by
  refine ⟨h.single,h.dated,fun r hr => ?_,h.referred⟩
  rw [noteDeposit_of_some now (h.deposited r hr)]
  exact h.deposited r hr

theorem Formed.step_deposit (h : s.Formed cfg) (walletAddress : String)
    (referralCode : Option String) (now : ℕ) (recorded : Bool) :
    step cfg (.deposit walletAddress referralCode now recorded) s =
      { s.noteDeposit (normalizeWalletAddress cfg.letters walletAddress) now with
        referrals := s.referrals ++ if recorded then
          (s.made cfg (normalizeWalletAddress cfg.letters walletAddress) referralCode now).toList
          else [] } := by
  unfold step
  cases recorded with
  | true => exact (h.noteDeposit _ now).recordDeposit walletAddress referralCode now
  | false => simp [ReferralBook.noteDeposit]

theorem Formed.deposit_firstDeposits (h : s.Formed cfg) (walletAddress : String)
    (referralCode : Option String) (now : ℕ) (recorded : Bool) :
    (step cfg (.deposit walletAddress referralCode now recorded) s).firstDeposits =
      (s.noteDeposit (normalizeWalletAddress cfg.letters walletAddress) now).firstDeposits := by
  rw [h.step_deposit]

theorem mem_made {referred : String} {referralCode : Option String} {now : ℕ} {r : Referral} :
    r ∈ (s.made cfg referred referralCode now).toList ↔
      s.newReferrer cfg referred referralCode = some r.referrerAddress ∧
        r.referredAddress = referred ∧ r.firstDepositAt = some now := by
  rw [Option.mem_toList,made,Option.map_eq_some_iff]
  constructor
  · rintro ⟨referrer,hnew,rfl⟩
    exact ⟨hnew,rfl,rfl⟩
  · rintro ⟨hnew,rfl,hdate⟩
    exact ⟨r.referrerAddress,hnew,by rw [← hdate]⟩

theorem step_code {e : ReferralEvent} (h : ∀ walletAddress referralCode now recorded,
    e ≠ .deposit walletAddress referralCode now recorded) :
    (step cfg e s).referrals = s.referrals ∧ (step cfg e s).firstDeposits = s.firstDeposits := by
  cases e with
  | deposit walletAddress referralCode now recorded => exact absurd rfl (h _ _ _ _)
  | createReferralCode ownerAddress code =>
    simp only [step]
    split <;> exact ⟨rfl,rfl⟩
  | getOrCreateReferralCode ownerAddress drawn =>
    simp only [step]
    split
    · exact ⟨rfl,rfl⟩
    · split <;> exact ⟨rfl,rfl⟩

/-- A deposit adds one referral at most, of its wallet, and only where the wallet has none. -/
theorem Formed.mem_deposit (h : s.Formed cfg) {walletAddress : String}
    {referralCode : Option String} {now : ℕ} {recorded : Bool} {r : Referral} :
    r ∈ (step cfg (.deposit walletAddress referralCode now recorded) s).referrals ↔
      r ∈ s.referrals ∨ recorded = true ∧
        s.newReferrer cfg (normalizeWalletAddress cfg.letters walletAddress) referralCode =
          some r.referrerAddress ∧
        r.referredAddress = normalizeWalletAddress cfg.letters walletAddress ∧
        r.firstDepositAt = some now := by
  rw [h.step_deposit,List.mem_append]
  cases recorded with
  | true => simp only [if_true,mem_made,true_and]
  | false => simp

theorem Formed.congr {t : ReferralBook} (h : s.Formed cfg) (hreferrals : t.referrals = s.referrals)
    (hfirst : t.firstDeposits = s.firstDeposits) : t.Formed cfg := by
  refine ⟨?_,?_,?_,?_⟩
  all_goals rw [hreferrals]
  · exact h.single
  · exact h.dated
  · rw [hfirst]
    exact h.deposited
  · exact h.referred

theorem Formed.step (h : s.Formed cfg) (e : ReferralEvent) : (step cfg e s).Formed cfg := by
  cases e with
  | deposit walletAddress referralCode now recorded =>
    refine ⟨fun r hr r' hr' hsame => ?_,fun r hr => ?_,fun r hr => ?_,fun r hr => ?_⟩
    · rcases h.mem_deposit.mp hr with hold | ⟨-,hnew,hwallet,hdate⟩
      · rcases h.mem_deposit.mp hr' with hold' | ⟨-,hnew',hwallet',-⟩
        · exact h.single r hold r' hold' hsame
        · exact absurd (hsame.trans hwallet') (findReferral_none (newReferrer_none hnew') r hold)
      · rcases h.mem_deposit.mp hr' with hold' | ⟨-,hnew',hwallet',hdate'⟩
        · exact absurd (hsame.symm.trans hwallet) (findReferral_none (newReferrer_none hnew) r' hold')
        · have hreferrer := Option.some.inj (hnew.symm.trans hnew')
          obtain ⟨referrer,referred,date⟩ := r
          obtain ⟨referrer',referred',date'⟩ := r'
          simp_all
    · rcases h.mem_deposit.mp hr with hold | ⟨-,-,-,hdate⟩
      · exact h.dated r hold
      · rw [hdate]
        rfl
    · rw [h.deposit_firstDeposits]
      rcases h.mem_deposit.mp hr with hold | ⟨-,-,hwallet,-⟩
      · rw [noteDeposit_of_some now (h.deposited r hold)]
        exact h.deposited r hold
      · simp [hwallet,ReferralBook.noteDeposit]
    · rcases h.mem_deposit.mp hr with hold | ⟨-,-,hwallet,-⟩
      · exact h.referred r hold
      · rw [hwallet,normalize_normalize]
  | createReferralCode ownerAddress code =>
    obtain ⟨hreferrals,hfirst⟩ := step_code (e := .createReferralCode ownerAddress code) (by simp)
    exact h.congr hreferrals hfirst
  | getOrCreateReferralCode ownerAddress drawn =>
    obtain ⟨hreferrals,hfirst⟩ := step_code (e := .getOrCreateReferralCode ownerAddress drawn)
      (by simp)
    exact h.congr hreferrals hfirst

/-- Every referral is dated by its wallet's first deposit and made by another wallet. -/
def Fair (s : ReferralBook) : Prop :=
  ∀ r ∈ s.referrals, r.firstDepositAt = s.firstDeposits r.referredAddress ∧
    r.referrerAddress ≠ r.referredAddress

/-- A deposit keeps that exactly if the referral that it makes is one of a first deposit and of
another wallet's code. -/
theorem Formed.fair_deposit (h : s.Formed cfg) (walletAddress : String)
    (referralCode : Option String) (now : ℕ) (recorded : Bool) :
    (ReferralBook.step cfg (.deposit walletAddress referralCode now recorded) s).Fair ↔
      s.Fair ∧ Referred cfg s (.deposit walletAddress referralCode now recorded) := by
  unfold Fair
  rw [h.deposit_firstDeposits]
  constructor
  · intro hfair
    refine ⟨fun r hr => ?_,fun hrecorded referrer hnew => ?_⟩
    · obtain ⟨hdate,hforeign⟩ := hfair r (h.mem_deposit.mpr (Or.inl hr))
      exact ⟨hdate.trans (noteDeposit_of_some now (h.deposited r hr)),hforeign⟩
    · obtain ⟨hdate,hforeign⟩ := hfair
        ⟨referrer,normalizeWalletAddress cfg.letters walletAddress,some now⟩
        (h.mem_deposit.mpr (Or.inr ⟨hrecorded,hnew,rfl,rfl⟩))
      refine ⟨hforeign,fun first hdeposit => ?_⟩
      rw [noteDeposit_of_some now (Option.isSome_of_mem hdeposit),Option.mem_def.mp hdeposit] at hdate
      exact (Option.some.inj hdate).symm
  · rintro ⟨hfair,hreferred⟩ r hr
    rcases h.mem_deposit.mp hr with hold | ⟨hrecorded,hnew,hwallet,hdate⟩
    · obtain ⟨hdate,hforeign⟩ := hfair r hold
      exact ⟨hdate.trans (noteDeposit_of_some now (h.deposited r hold)).symm,hforeign⟩
    · obtain ⟨hforeign,hfirst⟩ := hreferred hrecorded r.referrerAddress hnew
      rw [hdate,hwallet]
      refine ⟨?_,hforeign⟩
      cases hdeposit : s.firstDeposits (normalizeWalletAddress cfg.letters walletAddress) with
      | none => simp [ReferralBook.noteDeposit,hdeposit]
      | some first => simp [ReferralBook.noteDeposit,hdeposit,hfirst first hdeposit]

theorem Formed.fair_step (h : s.Formed cfg) (e : ReferralEvent) :
    (ReferralBook.step cfg e s).Fair ↔ s.Fair ∧ Referred cfg s e := by
  cases e with
  | deposit walletAddress referralCode now recorded => exact h.fair_deposit ..
  | createReferralCode ownerAddress code =>
    obtain ⟨hreferrals,hfirst⟩ := step_code (e := .createReferralCode ownerAddress code) (by simp)
    unfold Fair
    rw [hreferrals,hfirst]
    exact (and_iff_left trivial).symm
  | getOrCreateReferralCode ownerAddress drawn =>
    obtain ⟨hreferrals,hfirst⟩ := step_code (e := .getOrCreateReferralCode ownerAddress drawn)
      (by simp)
    unfold Fair
    rw [hreferrals,hfirst]
    exact (and_iff_left trivial).symm

/-- Where every referrer is another wallet, no yield of its own counts for a wallet. -/
theorem Formed.kept_iff (h : s.Formed cfg) : s.Kept cfg ↔ s.Fair := by
  refine ⟨fun hkept r hr => ⟨hkept.dated r hr,hkept.foreign r hr⟩,fun hfair => ?_⟩
  refine ⟨h.single,fun r hr => (hfair r hr).1,fun r hr => (hfair r hr).2,?_⟩
  intro yieldOf yieldOf' wallet hsame
  have hyield : ∀ r ∈ s.referrals.filter (fun r =>
      r.referrerAddress = normalizeWalletAddress cfg.letters wallet ∧
        r.firstDepositAt.isSome = true),
      yieldOf (normalizeWalletAddress cfg.letters
          (normalizeWalletAddress cfg.letters r.referredAddress)) =
        yieldOf' (normalizeWalletAddress cfg.letters
          (normalizeWalletAddress cfg.letters r.referredAddress)) := by
    intro r hr
    obtain ⟨hr,hown⟩ := List.mem_filter.mp hr
    rw [h.referred r hr,h.referred r hr]
    exact hsame _ fun hself => (hfair r hr).2 ((of_decide_eq_true hown).1.trans hself.symm)
  unfold getReferralStats
  dsimp only
  split
  · rfl
  · congr 3
    exact List.foldl_ext _ _ _ fun total r hr => by simp only [hyield r hr]

theorem Formed.step_mem (h : s.Formed cfg) (e : ReferralEvent) {r : Referral}
    (hr : r ∈ s.referrals) : r ∈ (ReferralBook.step cfg e s).referrals := by
  cases e with
  | deposit walletAddress referralCode now recorded => exact h.mem_deposit.mpr (Or.inl hr)
  | createReferralCode ownerAddress code =>
    rwa [(step_code (e := .createReferralCode ownerAddress code) (by simp)).1]
  | getOrCreateReferralCode ownerAddress drawn =>
    rwa [(step_code (e := .getOrCreateReferralCode ownerAddress drawn) (by simp)).1]

theorem formed_start : ({} : ReferralBook).Formed cfg := by
  constructor <;> exact nofun

/-- In every run referrals stay as they are made, and they are what they should be exactly if
every referral is made by its wallet's first deposit, with another wallet's code. -/
theorem referrals_kept_iff (cfg : ReferralConfig) (acts : List ReferralEvent) :
    ((∀ before after, acts = before ++ after → ∀ r ∈ (Runs.run (step cfg) before {}).referrals,
        r ∈ (Runs.run (step cfg) acts {}).referrals) ∧
      (Runs.run (step cfg) acts {}).Kept cfg) ↔
    Runs.Along (step cfg) (Referred cfg) {} acts := by
  have hformed (acts : List ReferralEvent) : (Runs.run (step cfg) acts {}).Formed cfg :=
    Runs.invariant (fun s e h => h.step e) acts formed_start
  have hfixed : ∀ before after, acts = before ++ after →
      ∀ r ∈ (Runs.run (step cfg) before {}).referrals,
        r ∈ (Runs.run (step cfg) acts {}).referrals := by
    rintro before after rfl r hr
    rw [Runs.run_append]
    have hstep : ∀ (s : ReferralBook) e, s.Formed cfg ∧ r ∈ s.referrals →
        (step cfg e s).Formed cfg ∧ r ∈ (step cfg e s).referrals :=
      fun s e h => ⟨h.1.step e,h.1.step_mem e h.2⟩
    exact (Runs.invariant hstep after ⟨hformed before,hr⟩).2
  have hfair := Runs.along_iff (fun s e (h : Formed cfg s) => h.step e)
    (fun s e h => h.fair_step e) acts formed_start
  have hstart : ({} : ReferralBook).Fair := nofun
  rw [and_iff_right hfixed,(hformed acts).kept_iff,hfair,and_iff_right hstart]

section Welcome

/-- The lower-case letters that wallet addresses have. -/
theorem lowerCase_cases {P : Char → Prop} (h : ∀ n < 26, P (Char.ofNat (97+n))) {c : Char}
    (hc : 'a' ≤ c ∧ c ≤ 'z') : P c := by
  have hlow : 97 ≤ c.toNat := hc.1
  have hhigh : c.toNat ≤ 122 := hc.2
  have hcase := h (c.toNat-97) (by omega)
  rwa [show 97+(c.toNat-97) = c.toNat by omega,Char.ofNat_toNat] at hcase

/-- Upper case of the letters that wallet addresses have. -/
def asciiLetters : UpperCase where
  upper c := if 'a' ≤ c ∧ c ≤ 'z' then [Char.ofNat (c.toNat-32)] else [c]
  upper_upper c d hd := by
    split at hd
    case isTrue hc =>
      obtain rfl := List.mem_singleton.mp hd
      exact lowerCase_cases (P := fun c => (if 'a' ≤ Char.ofNat (c.toNat-32) ∧
        Char.ofNat (c.toNat-32) ≤ 'z' then [Char.ofNat ((Char.ofNat (c.toNat-32)).toNat-32)] else
        [Char.ofNat (c.toNat-32)]) = [Char.ofNat (c.toNat-32)]) (by decide) hc
    case isFalse hc =>
      obtain rfl := List.mem_singleton.mp hd
      exact if_neg hc
  upper_ne_nil c := by split <;> simp
  upper_space c hspace d hd := by
    split at hd
    case isTrue hc =>
      obtain rfl := List.mem_singleton.mp hd
      exact lowerCase_cases (P := fun c => isSpace (Char.ofNat (c.toNat-32)) = false) (by decide) hc
    case isFalse => exact List.mem_singleton.mp hd ▸ hspace

def fivePercent : ReferralConfig where
  letters := asciiLetters
  decimals := ⟨(· + ·),(· - ·),(· / ·),fun _ x => x⟩
  mul := (· * ·)
  rewardPercentage := 1/20

/-- A wallet that deposits with its own code is its own referrer and is rewarded for its own
yield; and a code used at a later deposit dates the referral by it. -/
theorem ownCode_laterCode :
    ¬ (∀ acts, ∀ r ∈ (Runs.run (step fivePercent) acts {}).referrals,
      r.referrerAddress ≠ r.referredAddress) ∧
    ¬ (∀ acts (yieldOf yieldOf' : String → ℚ), (∀ w ≠ "GALICE", yieldOf w = yieldOf' w) →
      (Runs.run (step fivePercent) acts {}).getReferralStats fivePercent yieldOf "GALICE" =
        (Runs.run (step fivePercent) acts {}).getReferralStats fivePercent yieldOf' "GALICE") ∧
    ¬ (∀ acts, ∀ r ∈ (Runs.run (step fivePercent) acts {}).referrals,
      r.firstDepositAt = (Runs.run (step fivePercent) acts {}).firstDeposits r.referredAddress) := by
  refine ⟨fun h => ?_,fun h => ?_,fun h => ?_⟩
  · exact absurd rfl (h [.createReferralCode "GALICE" "WELCOME1",
      .deposit "galice" (some "WELCOME1") 0 true] ⟨"GALICE","GALICE",some 0⟩ (by decide))
  · have hstats := h [.createReferralCode "GALICE" "WELCOME1",
      .deposit "GALICE" (some "WELCOME1") 0 true] (fun w => if w = "GALICE" then 100 else 0)
      (fun _ => 0) (fun w hw => if_neg hw)
    have hreferrals : (Runs.run (step fivePercent) [.createReferralCode "GALICE" "WELCOME1",
        .deposit "GALICE" (some "WELCOME1") 0 true] {}).referrals = [⟨"GALICE","GALICE",some 0⟩] := by
      decide
    have hwallet : normalizeWalletAddress asciiLetters "GALICE" = "GALICE" := by decide
    rw [getReferralStats,getReferralStats,hreferrals] at hstats
    norm_num [fivePercent,hwallet] at hstats
  · have hdate := h [.createReferralCode "GALICE" "WELCOME1",.deposit "GBOB" none 0 true,
      .deposit "GBOB" (some "WELCOME1") 100 true] ⟨"GALICE","GBOB",some 100⟩ (by decide)
    revert hdate
    decide

end Welcome

end ReferralBook

end YieldVault.Backend
