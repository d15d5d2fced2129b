import Mathlib.Tactic
import YieldVault.Runs

/-! Optimistic updates of the query cache in the web client. A mutation keeps a snapshot of
four cached values, changes them at once, and writes the snapshot back if it fails. The
numbers are of any type with the operations that the code uses. -/
namespace YieldVault.Frontend

inductive TxType
  | deposit | withdrawal
  deriving DecidableEq

inductive PendingStatus
  | active | pending
  deriving DecidableEq

structure PortfolioHolding (R : Type) where
  id : String
  valueUsd : R
  status : PendingStatus
  deriving DecidableEq

structure VaultSummary (R : Type) where
  tvl : R
  updatedAt : String
  deriving DecidableEq

structure Transaction where
  id : String
  type : TxType
  status : String
  amount : String
  asset : String
  timestamp : String
  transactionHash : String
  deriving DecidableEq

/-- What is cached under the four keys of a wallet; `none` is a value that is not cached. -/
structure QueryCache (R : Type) where
  balance : Option R := none
  holdings : Option (List (PortfolioHolding R)) := none
  summary : Option (VaultSummary R) := none
  transactions : Option (List Transaction) := none
  deriving DecidableEq

/-- What `Date` says at the four places where it is read. -/
structure Clock where
  idNow : String
  timestamp : String
  hashNow : String
  updatedAt : String
  deriving DecidableEq

/-- An undefined value leaves what is cached as it is. -/
def setQueryData {α : Type} (data cached : Option α) : Option α := data <|> cached

section Updates

variable {R : Type} [Zero R] [Add R] [Sub R] [Neg R] [Max R] (toFixed : R → String)

def TxType.action : TxType → String
  | .deposit => "deposit"
  | .withdrawal => "withdrawal"

def buildPendingTransaction (action : TxType) (amount : R) (clock : Clock) : Transaction where
  id := "optimistic-" ++ action.action ++ "-" ++ clock.idNow
  type := action
  status := "pending"
  amount := toFixed amount
  asset := "USDC"
  timestamp := clock.timestamp
  transactionHash := "pending-" ++ clock.hashNow

def updateHoldings (deltaUsd : R) :
    Option (List (PortfolioHolding R)) → Option (List (PortfolioHolding R))
  | some (holding::rest) =>
    some ({ holding with valueUsd := max (holding.valueUsd+deltaUsd) 0,status := .pending }::rest)
  | current => current

/-- A withdrawal lowers the wallet's balance as a deposit does. -/
def optimisticUpdate (action : TxType) (amount : R) (clock : Clock) (cache : QueryCache R) :
    QueryCache R where
  balance := setQueryData (some (max (cache.balance.getD 0-amount) 0)) cache.balance
  holdings :=
    let deltaUsd := match action with
      | .deposit => amount
      | .withdrawal => -amount
    setQueryData (updateHoldings deltaUsd cache.holdings) cache.holdings
  summary :=
    let tvl (current : R) := match action with
      | .deposit => current+amount
      | .withdrawal => max (current-amount) 0
    setQueryData (cache.summary.map fun current =>
      { current with tvl := tvl current.tvl,updatedAt := clock.updatedAt }) cache.summary
  transactions := setQueryData
    (some (buildPendingTransaction toFixed action amount clock :: cache.transactions.getD []))
    cache.transactions

def rollback (snapshot cache : QueryCache R) : QueryCache R where
  balance := setQueryData snapshot.balance cache.balance
  holdings := setQueryData snapshot.holdings cache.holdings
  summary := setQueryData snapshot.summary cache.summary
  transactions := setQueryData snapshot.transactions cache.transactions

end Updates

inductive MutationStatus
  | pending | succeeded | failed
  deriving DecidableEq

structure Mutation (R : Type) where
  number : ℕ
  action : TxType
  amount : R
  clock : Clock
  snapshot : QueryCache R
  status : MutationStatus

/-- The cache and the mutations that were started, the latest one first. -/
structure VaultClient (R : Type) where
  cache : QueryCache R
  mutations : List (Mutation R) := []

/-- `onMutate` is the part of it after the queries are cancelled, which nothing interrupts. -/
inductive MutationEvent (R : Type)
  | onMutate (action : TxType) (amount : R) (clock : Clock)
  | onSuccess (number : ℕ)
  | onError (number : ℕ)

section Mutations

variable {R : Type}

def settle (number : ℕ) (status : MutationStatus) : List (Mutation R) → List (Mutation R)
  | [] => []
  | m::earlier =>
    if m.number = number then { m with status := status }::earlier
    else m::settle number status earlier

def unsettled (number : ℕ) (mutations : List (Mutation R)) : Option (Mutation R) :=
  (mutations.find? fun m => m.number = number).filter fun m => m.status = .pending

/-- The mutations that have not failed. -/
def live (mutations : List (Mutation R)) : List (Mutation R) :=
  mutations.filter fun m => m.status ≠ .failed

theorem live_append (later earlier : List (Mutation R)) :
    live (later ++ earlier) = live later ++ live earlier := List.filter_append ..

theorem live_failed {later : List (Mutation R)} (h : ∀ a ∈ later, a.status = .failed) :
    live later = [] :=
  List.filter_eq_nil_iff.mpr fun a ha => by simp [h a ha]

theorem live_cons {m : Mutation R} (h : m.status ≠ .failed) (earlier : List (Mutation R)) :
    live (m::earlier) = m::live earlier :=
  List.filter_cons_of_pos (by simpa using h)

theorem live_cons_failed {m : Mutation R} (h : m.status = .failed) (earlier : List (Mutation R)) :
    live (m::earlier) = live earlier :=
  List.filter_cons_of_neg (by simpa using h)

/-- A mutation that has not settled, among those after it and those before it. -/
theorem unsettled_split {number : ℕ} {ms : List (Mutation R)} {m : Mutation R}
    (h : unsettled number ms = some m) :
    m.status = .pending ∧ m.number = number ∧ ∃ later earlier, ms = later ++ m::earlier ∧
      ∀ status, settle number status ms = later ++ { m with status := status }::earlier := by
  obtain ⟨hfind,hpending⟩ := Option.filter_eq_some_iff.mp h
  obtain ⟨hnumber,later,earlier,rfl,hlater⟩ := List.find?_eq_some_iff_append.mp hfind
  have hnumber : m.number = number := by simpa using hnumber
  refine ⟨by simpa using hpending,hnumber,later,earlier,rfl,fun status => ?_⟩
  clear hfind h
  induction later with
  | nil => rw [List.nil_append,settle,if_pos hnumber,List.nil_append]
  | cons a later ih =>
    have ha : a.number ≠ number := by simpa using hlater a List.mem_cons_self
    rw [List.cons_append,settle,if_neg ha,ih fun b hb => hlater b (List.mem_cons_of_mem _ hb)]
    rfl

theorem setQueryData_restores {α : Type} {data cached : Option α}
    (h : data.isSome = true ∨ cached.isSome = data.isSome) : setQueryData data cached = data := by
  cases data <;> cases cached <;> simp_all [setQueryData]

end Mutations

section Client

variable {R : Type} [Zero R] [Add R] [Sub R] [Neg R] [Max R] (toFixed : R → String)

/-- A success only marks the queries as stale; a refetch is not part of a step. -/
def step (e : MutationEvent R) (s : VaultClient R) : VaultClient R :=
  match e with
  | .onMutate action amount clock =>
    ⟨optimisticUpdate toFixed action amount clock s.cache,
      ⟨s.mutations.length,action,amount,clock,s.cache,.pending⟩::s.mutations⟩
  | .onSuccess number => match unsettled number s.mutations with
    | some _ => { s with mutations := settle number .succeeded s.mutations }
    | none => s
  | .onError number => match unsettled number s.mutations with
    | some m => ⟨rollback m.snapshot s.cache,settle number .failed s.mutations⟩
    | none => s

def applyAll (initial : QueryCache R) (mutations : List (Mutation R)) : QueryCache R :=
  mutations.foldr (fun m cache => optimisticUpdate toFixed m.action m.amount m.clock cache) initial

/-- Numbers count the mutations, and whatever has not failed kept what the earlier mutations
that have not failed had made of the cache. -/
def Consistent (initial : QueryCache R) : List (Mutation R) → Prop
  | [] => True
  | m::earlier => m.number = earlier.length ∧
    (m.status ≠ .failed → m.snapshot = applyAll toFixed initial (live earlier)) ∧
    Consistent initial earlier

/-- A mutation fails only when all later ones have failed, and had found a cached balance and
a cached list of transactions. -/
def LatestFirst (s : VaultClient R) : MutationEvent R → Prop
  | .onError number => ∀ m ∈ unsettled number s.mutations,
    (∀ a ∈ s.mutations, number < a.number → a.status = .failed) ∧
      m.snapshot.balance.isSome = true ∧ m.snapshot.transactions.isSome = true
  | _ => True

variable {toFixed} {initial : QueryCache R}

theorem Consistent.of_append {later earlier : List (Mutation R)}
    (h : Consistent toFixed initial (later ++ earlier)) : Consistent toFixed initial earlier := by
  induction later with
  | nil => exact h
  | cons a later ih => exact ih h.2.2

theorem Consistent.later_number {later earlier : List (Mutation R)}
    (h : Consistent toFixed initial (later ++ earlier)) {a : Mutation R} (ha : a ∈ later) :
    earlier.length ≤ a.number := by
  induction later with
  | nil => exact nomatch ha
  | cons b later ih =>
    rcases List.mem_cons.mp ha with rfl | ha
    · rw [h.1]
      simp
    · exact ih h.2.2 ha

theorem applyAll_succeeded {m : Mutation R} (hm : m.status ≠ .failed)
    (later earlier : List (Mutation R)) :
    applyAll toFixed initial (live (later ++ { m with status := .succeeded }::earlier)) =
      applyAll toFixed initial (live (later ++ m::earlier)) := by
  rw [live_append,live_append,live_cons hm,live_cons (by simp)]
  simp [applyAll]

theorem Consistent.succeeded {m : Mutation R} {later earlier : List (Mutation R)}
    (hm : m.status ≠ .failed) (h : Consistent toFixed initial (later ++ m::earlier)) :
    Consistent toFixed initial (later ++ { m with status := .succeeded }::earlier) := by
  induction later with
  | nil => exact ⟨h.1,fun _ => h.2.1 hm,h.2.2⟩
  | cons a later ih =>
    refine ⟨?_,fun ha => ?_,ih h.2.2⟩
    · rw [h.1]
      simp
    · exact (h.2.1 ha).trans (applyAll_succeeded hm later earlier).symm

theorem Consistent.failed {m : Mutation R} {later earlier : List (Mutation R)}
    (hlater : ∀ a ∈ later, a.status = .failed)
    (h : Consistent toFixed initial (later ++ m::earlier)) :
    Consistent toFixed initial (later ++ { m with status := .failed }::earlier) := by
  induction later with
  | nil => exact ⟨h.1,fun hne => absurd rfl hne,h.2.2⟩
  | cons a later ih =>
    refine ⟨?_,fun ha => absurd (hlater a List.mem_cons_self) ha,
      ih (fun b hb => hlater b (List.mem_cons_of_mem _ hb)) h.2.2⟩
    rw [h.1]
    simp

variable (toFixed initial) in
theorem applyAll_cached (ms : List (Mutation R)) :
    (applyAll toFixed initial ms).holdings.isSome = initial.holdings.isSome ∧
      (applyAll toFixed initial ms).summary.isSome = initial.summary.isSome := by
  induction ms with
  | nil => exact ⟨rfl,rfl⟩
  | cons m earlier ih =>
    rw [← ih.1,← ih.2]
    constructor
    · change (optimisticUpdate toFixed m.action m.amount m.clock
        (applyAll toFixed initial earlier)).holdings.isSome = _
      unfold optimisticUpdate setQueryData
      rcases (applyAll toFixed initial earlier).holdings with - | - | - <;> rfl
    · change (optimisticUpdate toFixed m.action m.amount m.clock
        (applyAll toFixed initial earlier)).summary.isSome = _
      unfold optimisticUpdate setQueryData
      rcases (applyAll toFixed initial earlier).summary with - | - <;> rfl

/-- The snapshot is restored where the mutation had found a balance and a list cached. -/
theorem rollback_eq {ms ms' : List (Mutation R)}
    (hbalance : (applyAll toFixed initial ms).balance.isSome = true)
    (htransactions : (applyAll toFixed initial ms).transactions.isSome = true) :
    rollback (applyAll toFixed initial ms) (applyAll toFixed initial ms') =
      applyAll toFixed initial ms := by
  obtain ⟨hholdings,hsummary⟩ := applyAll_cached toFixed initial ms
  obtain ⟨hholdings',hsummary'⟩ := applyAll_cached toFixed initial ms'
  unfold rollback
  rw [setQueryData_restores (Or.inl hbalance),setQueryData_restores (Or.inl htransactions),
    setQueryData_restores (Or.inr (hholdings'.trans hholdings.symm)),
    setQueryData_restores (Or.inr (hsummary'.trans hsummary.symm))]

variable (toFixed initial) in
/-- The cache holds the updates of the mutations that have not failed, and nothing else. -/
structure Exact (s : VaultClient R) : Prop where
  cache : s.cache = applyAll toFixed initial (live s.mutations)
  consistent : Consistent toFixed initial s.mutations

theorem step_exact (s : VaultClient R) (e : MutationEvent R) (hs : Exact toFixed initial s)
    (he : LatestFirst s e) : Exact toFixed initial (step toFixed e s) := by
  obtain ⟨hcache,hconsistent⟩ := hs
  cases e with
  | onMutate action amount clock =>
    refine ⟨?_,rfl,fun _ => hcache,hconsistent⟩
    dsimp only [step]
    rw [live_cons (by simp),hcache]
    rfl
  | onSuccess number =>
    unfold step
    dsimp only
    split
    next m hm =>
      obtain ⟨hpending,-,later,earlier,hms,hsettle⟩ := unsettled_split hm
      have hlive : m.status ≠ .failed := by simp [hpending]
      rw [hsettle]
      rw [hms] at hcache hconsistent
      exact ⟨hcache.trans (applyAll_succeeded hlive later earlier).symm,
        hconsistent.succeeded hlive⟩
    next => exact ⟨hcache,hconsistent⟩
  | onError number =>
    unfold step
    dsimp only
    split
    next m hm =>
      obtain ⟨hfailed,hbalance,htransactions⟩ := he m hm
      obtain ⟨hpending,hnumber,later,earlier,hms,hsettle⟩ := unsettled_split hm
      rw [hms] at hcache hconsistent hfailed
      have hlater : ∀ a ∈ later, a.status = .failed := by
        intro a ha
        have hle := hconsistent.later_number ha
        rw [List.length_cons,← hconsistent.of_append.1] at hle
        exact hfailed a (List.mem_append_left _ ha) (by omega)
      have hsnapshot := hconsistent.of_append.2.1 (by simp [hpending])
      rw [hsettle]
      refine ⟨?_,hconsistent.failed hlater⟩
      dsimp only
      rw [live_append,live_failed hlater,live_cons_failed rfl,List.nil_append,hcache,hsnapshot]
      rw [hsnapshot] at hbalance htransactions
      exact rollback_eq hbalance htransactions
    next => exact ⟨hcache,hconsistent⟩

/-- In every run in which a mutation fails only after all later ones have failed, having found
a balance and a list of transactions cached, the cache holds at any time the updates of the
mutations that have not failed, in the order of their starts; and once all have settled, of
those that have succeeded. -/
theorem rollback_exact {events : List (MutationEvent R)}
    (h : Runs.Along (step toFixed) LatestFirst ⟨initial,[]⟩ events) :
    let s := Runs.run (step toFixed) events ⟨initial,[]⟩
    s.cache = applyAll toFixed initial (live s.mutations) ∧
      ((∀ m ∈ s.mutations, m.status ≠ .pending) →
        s.cache = applyAll toFixed initial
          (s.mutations.filter fun m => m.status = .succeeded)) := by
  intro s
  have hs : Exact toFixed initial s := h.invariant step_exact ⟨rfl,trivial⟩
  refine ⟨hs.cache,fun hsettled => ?_⟩
  rw [hs.cache,live]
  congr 1
  refine List.filter_congr fun m hm => ?_
  have hne := hsettled m hm
  cases hstatus : m.status <;> simp_all

end Client

section Runs

def noon : Clock := ⟨"1700000000000","2023-11-14","1700000000000","2023-11-14"⟩

def cents (amount : ℤ) : String := toString amount ++ ".00"

/-- What is cached for a wallet with 100 dollars and one holding. -/
def visited : QueryCache ℤ where
  balance := some 100
  holdings := some [⟨"h1",50,.active⟩]
  summary := some ⟨1000,"2023-11-13"⟩
  transactions := some []

/-- Two deposits overlap; the second fails first, then the first succeeds. -/
theorem visited_exact :
    (Runs.run (step cents) [.onMutate .deposit 10 noon,.onMutate .deposit 20 noon,.onError 1,
      .onSuccess 0] ⟨visited,[]⟩).cache = optimisticUpdate cents .deposit 10 noon visited := by
  have horder : Runs.Along (step cents) LatestFirst ⟨visited,[]⟩ [.onMutate .deposit 10 noon,
      .onMutate .deposit 20 noon,.onError 1,.onSuccess 0] := by
    refine ⟨trivial,trivial,?_,trivial,trivial⟩
    rintro m hm
    obtain rfl := Option.mem_some.mp hm
    exact ⟨by decide,rfl,rfl⟩
  exact (rollback_exact horder).1

def Settled (events : List (MutationEvent ℤ)) (initial : QueryCache ℤ) : Prop :=
  ∀ m ∈ (Runs.run (step cents) events ⟨initial,[]⟩).mutations, m.status ≠ .pending

/-- The cache at the end holds the updates of the mutations that have succeeded. -/
def HoldsSucceeded (events : List (MutationEvent ℤ)) (initial : QueryCache ℤ) : Prop :=
  let s := Runs.run (step cents) events ⟨initial,[]⟩
  s.cache = applyAll cents initial (s.mutations.filter fun m => m.status = .succeeded)

/-- A deposit that fails takes the update of a later one with it; and one that fails alone
leaves its update behind where nothing was cached. -/
theorem rollback_inexact :
    (¬ ∀ events initial, initial.balance.isSome = true → initial.transactions.isSome = true →
      Settled events initial → HoldsSucceeded events initial) ∧
    ¬ ∀ action amount clock initial,
      HoldsSucceeded [.onMutate action amount clock,.onError 0] initial := by
  constructor
  · intro h
    have h1 := h [.onMutate .deposit 10 noon,.onMutate .deposit 20 noon,.onError 0,.onSuccess 1]
      visited rfl rfl (by unfold Settled; decide)
    have hbalance : some (100 : ℤ) = some 80 := congrArg QueryCache.balance h1
    exact absurd hbalance (by decide)
  · intro h
    have h1 := h .deposit 10 noon {}
    have hbalance : some (0 : ℤ) = none := congrArg QueryCache.balance h1
    exact absurd hbalance (by decide)

end Runs

end YieldVault.Frontend
