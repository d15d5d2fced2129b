import YieldVault.BatchIsolation
import YieldVault.Ranges
import YieldVault.RunningTotals
import YieldVault.Traps

/-! Amounts and assets of at most `2^63-1`, the limit of a classic asset, leave the `i128`
arithmetic of deposits, withdrawals and yields enough room, since a share is never worth less
than one unit. -/
namespace YieldVault

open FixedWidth Contract

variable {σ : Type} {host : Host σ} {env : Env σ} {chain : σ} {l t : Ledger σ}

section Rules

variable {α β : Type} {bad : String → Prop}

theorem avoids_load_bind {f : Storage → α} {k : α → VaultM σ β} :
    Avoids bad (load f >>= k) l ↔ Avoids bad (k (f l.storage)) l := avoids_congr load_bind

theorem avoids_store_bind {f : Storage → Storage} {k : Unit → VaultM σ β} :
    Avoids bad (store f >>= k) l ↔ Avoids bad (k ()) { l with storage := f l.storage } :=
  ⟨fun h => h,fun h => h⟩

theorem avoids_publish_bind {e : Event} {k : Unit → VaultM σ β} :
    Avoids bad (publish e >>= k) l ↔ Avoids bad (k ()) { l with log := .event e :: l.log } :=
  ⟨fun h => h,fun h => h⟩

theorem avoids_checkedAdd_bind {a b : ℤ} {m : String} {k : ℤ → VaultM σ β} :
    Avoids bad (expect (checkedAdd 128 a b) m >>= k) l ↔
      (bad m → I128 (a+b)) ∧ (I128 (a+b) → Avoids bad (k (a+b)) l) := by
  simp [avoids_expect_bind]

theorem avoids_checkedSub_bind {a b : ℤ} {m : String} {k : ℤ → VaultM σ β} :
    Avoids bad (expect (checkedSub 128 a b) m >>= k) l ↔
      (bad m → I128 (a-b)) ∧ (I128 (a-b) → Avoids bad (k (a-b)) l) := by
  simp [avoids_expect_bind]

theorem avoids_store {f : Storage → Storage} : Avoids bad (store f : VaultM σ Unit) l :=
  avoids_write

theorem avoids_call_bind {f : σ → Option σ} {es : List Effect} {k : Unit → VaultM σ β} :
    Avoids bad (call f es >>= k) l ↔ (bad "contract call failed" → (f l.chain).isSome = true) ∧
      ∀ c, f l.chain = some c →
        Avoids bad (k ()) { l with chain := c, log := es ++ l.log } := by
  rw [Avoids]
  simp only [ne_eq,call_bind_eq_panic]
  cases h : f l.chain with
  | none => simpa using avoids_panic_iff
  | some c => simp [Avoids]

end Rules

def arithmeticTraps : List String :=
  ["overflow","underflow","division by zero","overflow in assets_to_shares multiplication",
    "division by zero in assets_to_shares","overflow in shares_to_assets multiplication",
    "division by zero in shares_to_assets","fee overflow","attempt to subtract with overflow"]

def IsArithmetic (m : String) : Prop := m ∈ arithmeticTraps

instance (m : String) : Decidable (IsArithmetic m) := inferInstanceAs (Decidable (m ∈ _))

theorem other_not_arithmetic : ¬ IsArithmetic "contract call failed" ∧
    ¬ IsArithmetic "Error(Auth, InvalidAction)" ∧ ¬ IsArithmetic "Admin not set" ∧
    ¬ IsArithmetic unwrapNone ∧ ¬ IsArithmetic "yield amount must be > 0" ∧
    ¬ IsArithmetic "unauthorized strategy" ∧ ¬ IsArithmetic "amount must be non-negative" ∧
    ¬ IsArithmetic "fee_bps out of range" ∧
    ¬ IsArithmetic "share price must not decrease during yield accrual" := by decide

theorem sums_arithmetic : IsArithmetic "overflow" ∧ IsArithmetic "underflow" := by decide

/-- The most that a classic asset's balance can be. -/
def classicLimit : ℤ := 2^63-1

section Conversions

variable {amount shares totalShares totalAssets : ℤ}

theorem fits_of_le {x : ℤ} (h0 : 0 ≤ x) (hle : x ≤ 2^126) : I128 x := by
  constructor
  · norm_num
    omega
  · norm_num at hle ⊢
    omega

theorem fits_mul {x y : ℤ} (hx : 0 ≤ x) (hy : 0 ≤ y) (hx' : x ≤ classicLimit)
    (hy' : y ≤ classicLimit) : I128 (x*y) := by
  refine fits_of_le (mul_nonneg hx hy) ?_
  calc x*y ≤ classicLimit*classicLimit := mul_le_mul hx' hy' hy (by decide)
    _ ≤ 2^126 := by decide

theorem assetsToShares_total (ha : 0 < amount) (ha' : amount ≤ classicLimit)
    (hS : 0 ≤ totalShares) (hSA : totalShares ≤ totalAssets) (hA : totalAssets ≤ classicLimit) :
    ∃ m, assetsToShares amount totalShares totalAssets = .ok m ∧ 0 ≤ m ∧ m ≤ amount := by
  have htotal : ∃ m, assetsToShares amount totalShares totalAssets = .ok m ∧ 0 ≤ m := by
    by_cases h0 : totalAssets = 0 ∨ totalShares = 0
    · exact ⟨amount,by rw [assetsToShares_eq_ok,if_pos h0],ha.le⟩
    · have hpos : 0 < totalAssets := lt_of_le_of_ne (hS.trans hSA) fun he => h0 (Or.inl he.symm)
      have hfits := fits_mul ha.le hS ha' (hSA.trans hA)
      exact ⟨_,by rw [assetsToShares_eq_ok,if_neg h0]; exact ⟨hfits,hfits.tdiv hpos,rfl⟩,
        Int.tdiv_nonneg (mul_nonneg ha.le hS) hpos.le⟩
  obtain ⟨m,hm,hm0⟩ := htotal
  exact ⟨m,hm,hm0,assetsToShares_le ha hS hSA hm⟩

theorem sharesToAssets_total (hs : 0 < shares) (hle : shares ≤ totalShares)
    (hSA : totalShares ≤ totalAssets) (hA : totalAssets ≤ classicLimit) :
    ∃ r, sharesToAssets shares totalShares totalAssets = .ok r ∧ 0 ≤ r ∧ r ≤ totalAssets := by
  have hpos : 0 < totalShares := by omega
  have hassets : 0 ≤ totalAssets := by omega
  have hfits := fits_mul hs.le hassets ((hle.trans hSA).trans hA) hA
  refine ⟨(shares*totalAssets).tdiv totalShares,?_,?_⟩
  · rw [sharesToAssets_eq_ok,if_neg hpos.ne']
    exact ⟨hfits,hfits.tdiv hpos,rfl⟩
  · have hp := ProRata.tdiv_portion (mul_nonneg hs.le hassets) hpos
    have hkept := ProRata.burn_assets_nonneg hpos hassets hle hp.2.2.1
    exact ⟨hp.2.1,by omega⟩

/-- The price is computed from as much as twice the limit, with its scale of `10^18`. -/
theorem scaledPrice_total {state : VaultState} (hS : 0 < state.totalShares)
    (hSA : state.totalShares ≤ state.totalAssets) (hA : state.totalAssets ≤ 2*classicLimit) :
    ∃ price, scaledPrice state = .ok price := by
  have hassets : 0 ≤ state.totalAssets := by omega
  have hscale : (0 : ℤ) ≤ sharePriceScale := by decide
  have hfits : I128 (state.totalAssets*sharePriceScale) := by
    refine fits_of_le (mul_nonneg hassets hscale) ?_
    calc state.totalAssets*sharePriceScale ≤ 2*classicLimit*sharePriceScale :=
          mul_le_mul_of_nonneg_right hA hscale
      _ ≤ 2^126 := by decide
  refine ⟨(state.totalAssets*sharePriceScale).tdiv state.totalShares,?_⟩
  simp [scaledPrice,except_bind_eq_ok,hS.ne']
  exact ⟨hfits,hfits.tdiv hS⟩

end Conversions

section Operations

structure Ranged (state : VaultState) (s : Storage) : Prop where
  supply : 0 ≤ state.totalShares
  floor : state.totalShares ≤ state.totalAssets
  limit : state.totalAssets ≤ classicLimit
  idle : idleAssets s = state.totalAssets
  stored : storedTotalShares s = state.totalShares
  balances : ∀ user, 0 ≤ balance s user ∧ balance s user ≤ state.totalShares
  deposits : ∀ user, 0 ≤ userDeposit s user

variable {state : VaultState} {s : Storage} {user : Address} {amount shares : ℤ} {u : Unit}

/-- The sums of a deposit fit, if the running total of the user's deposits does. -/
theorem Ranged.mint_fits (h : Ranged state s) (ha : 0 < amount) (ha' : amount ≤ classicLimit)
    (hs : 0 ≤ shares) (hle : shares ≤ amount) (hd : userDeposit s user+amount ≤ i128Max) :
    DepositFits state user amount shares (state.totalShares+shares) s := by
  have hlimit : classicLimit+classicLimit ≤ 2^126 := by decide
  obtain ⟨hsupply,hfloor,hassets,hidle,-,hbalances,hdeposits⟩ := h
  have hbalance := hbalances user
  have hdeposit := hdeposits user
  have hsum : I128 (state.totalShares+shares) := fits_of_le (by omega) (by omega)
  refine ⟨?_,fits_of_le (by omega) (by omega),hsum,fits_of_le (by omega) (by omega),hsum,
    fits_of_le (by omega) (by omega)⟩
  exact (fits_zero 128).between (z := i128Max) (by decide) (by omega) hd

theorem Ranged.burn_fits (h : Ranged state s) (hstate : getState s = state)
    (hd : I128 (userDeposit s user)) (hs : 0 < shares) (hle : shares ≤ balance s user) {paid : ℤ}
    (hp : 0 ≤ paid) (hpaid : paid ≤ state.totalAssets) :
    WithdrawFits state user shares paid s := by
  have hlimit : classicLimit ≤ 2^126 := by decide
  obtain ⟨hsupply,hfloor,hassets,hidle,-,hbalances,hdeposits⟩ := h
  have hbalance := hbalances user
  have hsum : I128 (state.totalShares-shares) := fits_of_le (by omega) (by omega)
  rw [← hstate] at hsum ⊢
  refine ⟨fits_of_le (by omega) (by omega),hsum,fits_of_le (by omega) (by omega),
    fits_of_le (by rw [hstate]; omega) (by rw [hstate]; omega),hsum,fun hlt => ?_⟩
  exact (fits_zero 128).between hd (by omega) (by omega)

theorem deposit_safe (h : Ranged (getState l.storage) l.storage) (ha : amount ≤ classicLimit)
    (hd : 0 < amount → userDeposit l.storage user+amount ≤ i128Max) :
    Avoids IsArithmetic (deposit env user amount) l := by
  unfold deposit
  simp only [requireAuth,loadToken,tokenTransfer,creditIdle,bind_assoc,avoids_load_bind,
    avoids_ensure_bind,avoids_demand_bind,avoids_expect_bind (m := unwrapNone),
    avoids_trapping_bind,avoids_call_bind,avoids_store_bind,avoids_publish_bind,avoids_pure,avoids_checkedAdd_bind,
    other_not_arithmetic,sums_arithmetic,false_implies,true_and,true_implies,implies_true,and_true,
    setUserDeposit_frame,setIdleAssets_frame,setState_frame,setStoredTotalShares_frame]
  intro _ _ hpos _ token _
  obtain ⟨shares,hshares,hs,hle⟩ := assetsToShares_total hpos ha h.supply h.floor h.limit
  obtain ⟨hdeposit,hidle,hstored,hassets,hsupply,hbalance⟩ :=
    h.mint_fits hpos ha hs hle (hd hpos)
  rw [hshares]
  refine ⟨fun m _ he => (by cases he),fun m hm _ => ?_⟩
  obtain rfl := Except.ok.inj hm
  exact ⟨hdeposit,fun _ _ c _ => ⟨hidle,fun _ => ⟨hstored,fun _ => ⟨hassets,fun _ =>
    ⟨hsupply,fun _ => hbalance⟩⟩⟩⟩⟩

theorem processSingleBatchEntry_safe {token : Address} {minimum cap : ℤ}
    (h : Ranged state l.storage) (ha : amount ≤ classicLimit)
    (hd : 0 < amount → userDeposit l.storage user+amount ≤ i128Max) :
    Avoids IsArithmetic
      (processSingleBatchEntry env state token user amount minimum cap) l := by
  unfold processSingleBatchEntry
  simp only [requireAuth,tokenTransfer,creditIdle,bind_assoc,avoids_load_bind,
    avoids_ensure_bind,avoids_demand_bind,avoids_trapping_bind,avoids_call_bind,
    avoids_store_bind,avoids_publish_bind,avoids_pure,avoids_checkedAdd_bind,
    other_not_arithmetic,sums_arithmetic,false_implies,true_and,true_implies,implies_true,and_true,
    setUserDeposit_frame,setIdleAssets_frame,setStoredTotalShares_frame]
  intro hpos _
  obtain ⟨shares,hshares,hs,hle⟩ := assetsToShares_total hpos ha h.supply h.floor h.limit
  obtain ⟨hdeposit,hidle,hstored,hassets,hsupply,hbalance⟩ :=
    h.mint_fits hpos ha hs hle (hd hpos)
  rw [hshares,h.stored]
  refine ⟨fun m _ he => (by cases he),fun m hm _ => ?_⟩
  obtain rfl := Except.ok.inj hm
  exact ⟨hdeposit,fun _ _ _ c _ => ⟨hidle,fun _ => ⟨hstored,fun _ => ⟨hassets,fun _ =>
    ⟨hsupply,fun _ => hbalance⟩⟩⟩⟩⟩

theorem Ranged.minted (h : Ranged state s) (hs : 0 ≤ shares) (hle : shares ≤ amount)
    (hlimit : state.totalAssets+amount ≤ classicLimit) (time : ℕ) :
    Ranged (mintedState state amount shares)
      (creditedDeposit time user amount shares (storedTotalShares s+shares) s) := by
  obtain ⟨hsupply,hfloor,-,hidle,hstored,hbalances,hdeposits⟩ := h
  have hbalance := hbalances user
  have hdeposit := hdeposits user
  refine ⟨?_,?_,hlimit,?_,?_,?_,?_⟩
  · change 0 ≤ state.totalShares+shares
    omega
  · change state.totalShares+shares ≤ state.totalAssets+amount
    omega
  · simp [creditedDeposit,mintedState,hidle]
  · simp [creditedDeposit,mintedState,hstored]
  · have hnew : balance (creditedDeposit time user amount shares (storedTotalShares s+shares) s) =
        Function.update (balance s) user (balance s user+shares) := by
      simp [creditedDeposit]
    rw [hnew]
    refine (Function.forall_update_iff (balance s)
      (p := fun _ v => 0 ≤ v ∧ v ≤ state.totalShares+shares)).mpr ⟨by omega,fun other _ => ?_⟩
    have hother := hbalances other
    omega
  · have hnew : userDeposit (creditedDeposit time user amount shares (storedTotalShares s+shares) s) =
        Function.update (userDeposit s) user (userDeposit s user+amount) := by
      simp [creditedDeposit]
    rw [hnew]
    exact (Function.forall_update_iff (userDeposit s) (p := fun _ v => 0 ≤ v)).mpr
      ⟨by omega,fun other _ => hdeposits other⟩

/-- What the entries of a batch would add to the deposits of a user. -/
def entered (user : Address) (entries : List DepositEntry) : ℤ :=
  ((entries.filter fun entry => entry.user = user).map fun entry => max entry.amount 0).sum

theorem entered_cons (user : Address) (entry : DepositEntry) (entries : List DepositEntry) :
    entered user (entry::entries) =
      (if entry.user = user then max entry.amount 0 else 0)+entered user entries := by
  by_cases h : entry.user = user <;> simp [entered,h]

/-- In memory the record stays within the limit up to every entry of the batch. -/
def InMemory (env : Env σ) (token : Address) (minimum cap : ℤ) (entries : List DepositEntry)
    (batch : BatchState) (l : Ledger σ) : Prop :=
  ∀ done entry rest, entries = done ++ entry::rest → ∀ batch' m,
    (processEntries env token minimum cap done batch).run l = .ok batch' m →
      batch'.state.totalAssets ≤ classicLimit

theorem InMemory.rest {token : Address} {minimum cap : ℤ} {entry : DepositEntry}
    {entries : List DepositEntry} {batch next : BatchState} {m : Ledger σ}
    (h : InMemory env token minimum cap (entry::entries) batch l)
    (hone : (processEntries env token minimum cap [entry] batch).run l = .ok next m) :
    InMemory env token minimum cap entries next m := by
  rintro done later rest rfl batch' m' hrun
  refine h (entry::done) later rest rfl batch' m' ?_
  rw [← List.singleton_append,processEntries_append,run_bind,hone]
  exact hrun

theorem InMemory.first {token : Address} {minimum cap : ℤ} {entries : List DepositEntry}
    {batch : BatchState} (h : InMemory env token minimum cap entries batch l) (hne : entries ≠ []) :
    batch.state.totalAssets ≤ classicLimit := by
  obtain ⟨entry,rest,rfl⟩ := List.exists_cons_of_ne_nil hne
  exact h [] entry rest rfl batch l rfl

/-- What the loop over the entries needs: room for the counts and for the running totals. -/
structure Roomy (entries : List DepositEntry) (batch : BatchState) (s : Storage) : Prop where
  amounts : ∀ entry ∈ entries, entry.amount ≤ classicLimit
  deposits : ∀ user, userDeposit s user+entered user entries ≤ i128Max
  minted : 0 ≤ batch.result.totalSharesMinted ∧
    batch.result.totalSharesMinted ≤ batch.state.totalShares
  counts : batch.result.successCount+batch.result.failureCount+entries.length < 2^32

theorem entered_nonneg (user : Address) (entries : List DepositEntry) : 0 ≤ entered user entries := by
  refine List.sum_nonneg fun x hx => ?_
  obtain ⟨entry,-,rfl⟩ := List.mem_map.mp hx
  exact le_max_right _ _

namespace Roomy

variable {entry : DepositEntry} {entries : List DepositEntry} {batch : BatchState}

theorem own (h : Roomy (entry::entries) batch s) :
    userDeposit s entry.user+max entry.amount 0 ≤ i128Max := by
  have hown := h.deposits entry.user
  have hlater := entered_nonneg entry.user entries
  rw [entered_cons,if_pos rfl] at hown
  omega

theorem count_lt (h : Roomy (entry::entries) batch s) :
    batch.result.successCount+1+batch.result.failureCount+entries.length < 2^32 := by
  have hcounts := h.counts
  rw [List.length_cons] at hcounts
  omega

theorem accepted (h : Roomy (entry::entries) batch s) (hpos : 0 < entry.amount)
    (hs : 0 ≤ shares) (time : ℕ) (results : List DepositResult) (stored : ℤ) :
    Roomy entries ⟨mintedState batch.state entry.amount shares,⟨results,
        batch.result.totalSharesMinted+shares,batch.result.successCount+1,
        batch.result.failureCount⟩⟩
      (creditedDeposit time entry.user entry.amount shares stored s) := by
  have hminted := h.minted
  have hdeposited : userDeposit (creditedDeposit time entry.user entry.amount shares stored s) =
      Function.update (userDeposit s) entry.user (userDeposit s entry.user+entry.amount) := by
    simp [creditedDeposit]
  refine ⟨fun e he => h.amounts e (List.mem_cons_of_mem _ he),fun user => ?_,?_,h.count_lt⟩
  · have huser := h.deposits user
    rw [entered_cons] at huser
    rw [hdeposited]
    by_cases he : user = entry.user
    · subst he
      rw [if_pos rfl] at huser
      rw [Function.update_self]
      omega
    · rw [if_neg (Ne.symm he)] at huser
      rw [Function.update_of_ne he]
      omega
  · change 0 ≤ batch.result.totalSharesMinted+shares ∧
      batch.result.totalSharesMinted+shares ≤ batch.state.totalShares+shares
    omega

theorem refused (h : Roomy (entry::entries) batch s) (results : List DepositResult) :
    Roomy entries ⟨batch.state,⟨results,batch.result.totalSharesMinted,
      batch.result.successCount,batch.result.failureCount+1⟩⟩ s := by
  refine ⟨fun e he => h.amounts e (List.mem_cons_of_mem _ he),fun user => ?_,h.minted,?_⟩
  · have huser := h.deposits user
    rw [entered_cons] at huser
    split_ifs at huser
    · omega
    · omega
  · have hcounts := h.count_lt
    change batch.result.successCount+(batch.result.failureCount+1)+entries.length < 2^32
    omega

end Roomy

/-- The loop is safe: by induction on the entries, for the record in memory and the storage. -/
theorem processEntries_safe {token : Address} {minimum cap : ℤ} {entries : List DepositEntry}
    {batch : BatchState} (h : entries ≠ [] → Ranged batch.state l.storage)
    (hroom : Roomy entries batch l.storage)
    (hmemory : InMemory env token minimum cap entries batch l) :
    Avoids IsArithmetic (processEntries env token minimum cap entries batch) l := by
  induction entries generalizing batch l with
  | nil => exact avoids_pure
  | cons entry entries ih =>
    have hr := h (List.cons_ne_nil _ _)
    have hamount := hroom.amounts entry List.mem_cons_self
    have hown := hroom.own
    have hcounts := hroom.count_lt
    rw [processEntries,avoids_attempt_bind]
    refine ⟨processSingleBatchEntry_safe hr hamount fun hpos => by omega,?_,?_⟩
    · rintro ⟨shares,state'⟩ m hentry
      obtain ⟨c,hpos,-,hshares,-,-,-,-,-,rfl,hm⟩ := processSingleBatchEntry_ok.mp hentry
      obtain ⟨shares',hshares',hs,hle⟩ :=
        assetsToShares_total hpos hamount hr.supply hr.floor hr.limit
      obtain rfl : shares' = shares := Except.ok.inj (hshares'.symm.trans hshares)
      have htotal : I128 (batch.result.totalSharesMinted+shares') := by
        have hminted := hroom.minted
        have hfloor := hr.floor
        have hlimit := hr.limit
        have hmax : classicLimit+classicLimit ≤ 2^126 := by decide
        exact fits_of_le (by omega) (by omega)
      have hnext : recordEntry entry.user batch
          (.ok (shares',mintedState batch.state entry.amount shares')) = .ok _ :=
        recordEntry_ok.mpr ⟨htotal,by omega,rfl⟩
      have hmemory' := hmemory.rest (by
        rw [processEntries,attempt_bind_eq_ok]
        exact Or.inl ⟨_,m,hentry,trapping_bind_eq_ok.mpr ⟨_,hnext,rfl⟩⟩)
      rw [hnext,avoids_trapping_bind]
      refine ⟨fun m _ he => (by cases he),fun next hok => ?_⟩
      obtain rfl := Except.ok.inj hok
      refine ih (fun hne => ?_) ?_ hmemory'
      · rw [hm]
        exact hr.minted hs hle (hmemory'.first hne) env.timestamp
      · rw [hm]
        exact hroom.accepted hpos hs env.timestamp _ _
    · intro e m hentry
      obtain ⟨-,hm⟩ := processSingleBatchEntry_err.mp hentry
      have hnext : recordEntry entry.user batch (.error e) = .ok _ :=
        recordEntry_error.mpr ⟨by omega,rfl⟩
      have hmemory' := hmemory.rest (by
        rw [processEntries,attempt_bind_eq_ok]
        exact Or.inr ⟨e,m,hentry,trapping_bind_eq_ok.mpr ⟨_,hnext,rfl⟩⟩)
      rw [hnext,avoids_trapping_bind]
      refine ⟨fun m _ he => (by cases he),fun next hok => ?_⟩
      obtain rfl := Except.ok.inj hok
      rw [hm] at hmemory' ⊢
      exact ih (fun _ => hr) (hroom.refused _) hmemory'

theorem doWithdraw_safe (h : Ranged (getState l.storage) l.storage)
    (hd : I128 (userDeposit l.storage user)) (hs : 0 < shares)
    (hle : shares ≤ balance l.storage user) {paid : ℤ} (hp : 0 ≤ paid)
    (hpaid : paid ≤ (getState l.storage).totalAssets) :
    Avoids IsArithmetic (doWithdraw env (getState l.storage) user shares paid) l := by
  have hidle : ¬ idleAssets l.storage < paid := by
    rw [h.idle]
    exact not_lt.mpr hpaid
  have hcover : (coverShortfall env paid).run l = .ok () l := by
    rw [coverShortfall_ok,if_neg hidle]
  obtain ⟨hidle,hstored,hbalance,hassets,hsupply,hdeposit⟩ := h.burn_fits rfl hd hs hle hp hpaid
  unfold doWithdraw
  simp only [loadToken,tokenTransfer,bind_assoc,pure_bind,avoids_load_bind,
    avoids_expect_bind (m := unwrapNone),avoids_bind_of_ok hcover,avoids_call_bind,
    avoids_store_bind,avoids_publish_bind,avoids_pure,avoids_checkedSub_bind,avoids_ite,
    other_not_arithmetic,sums_arithmetic,false_implies,true_and,true_implies,implies_true,and_true,
    setIdleAssets_frame,setStoredTotalShares_frame,setShareBalance_frame,setState_frame]
  intro token _ c _
  exact ⟨hidle,fun _ => ⟨hstored,fun _ => ⟨hbalance,fun _ => ⟨hassets,fun _ =>
    ⟨hsupply,fun _ => hdeposit⟩⟩⟩⟩⟩

/-- The earliest time of a withdrawal is a `u64`. -/
def CooldownFits (user : Address) (s : Storage) : Prop :=
  0 < withdrawalCooldown s → lastDepositTime s user+withdrawalCooldown s < 2^64

theorem checkCooldown_safe {bad : String → Prop} (h : CooldownFits user l.storage) :
    Avoids bad (checkCooldown env user) l := by
  unfold checkCooldown
  rw [avoids_load_bind,avoids_ite]
  refine ⟨fun hpos => ?_,fun _ => avoids_pure⟩
  rw [avoids_load_bind,avoids_expect_bind]
  refine ⟨fun _ => ?_,fun _ _ => avoids_ensure⟩
  rw [checkedAddUnsigned,if_pos (h hpos)]
  rfl

theorem withdraw_safe (h : Ranged (getState l.storage) l.storage)
    (hd : I128 (userDeposit l.storage user))
    (hthreshold : l.storage.largeWithdrawalThreshold = none)
    (hc : Avoids IsArithmetic (checkCooldown env user) l) :
    Avoids IsArithmetic (withdraw env user shares) l := by
  unfold withdraw
  rw [avoids_load_bind,avoids_ensure_bind]
  intro _
  refine avoids_demand_bind.mpr ⟨fun hm => absurd hm other_not_arithmetic.2.1,fun _ => ?_⟩
  by_cases hs : 0 < shares
  · rw [dif_pos hs,avoids_bind]
    refine ⟨hc,fun _ t hok => ?_⟩
    obtain ⟨-,rfl⟩ := checkCooldown_ok.mp hok
    rw [avoids_load_bind,avoids_ensure_bind]
    intro hle
    rw [avoids_load_bind,avoids_trapping_bind]
    obtain ⟨paid,hpaid,hp,hmost⟩ := sharesToAssets_total hs (hle.trans (h.balances user).2)
      h.floor h.limit
    have hsmall : ¬ largeWithdrawalThreshold l.storage < paid := by
      have hlimit := h.limit
      have hmax : classicLimit ≤ i128Max := by decide
      rw [largeWithdrawalThreshold,hthreshold]
      exact not_lt.mpr (by change paid ≤ i128Max; omega)
    rw [hpaid]
    refine ⟨fun m _ he => (by cases he),fun r hr => ?_⟩
    obtain rfl := Except.ok.inj hr
    rw [if_neg hsmall]
    exact doWithdraw_safe h hd hs hle hp hmost
  · rw [dif_neg hs]
    exact avoids_failWith

/-- What is left after a yield has been split: both sums and the price computations fit. -/
theorem Ranged.yield_fits (h : Ranged (getState s) s) {net : ℤ} (h0 : 0 ≤ net)
    (hle : net ≤ classicLimit) : I128 (idleAssets s+net) ∧ I128 ((getState s).totalAssets+net) := by
  have hlimit : classicLimit+classicLimit ≤ 2^126 := by decide
  obtain ⟨hsupply,hfloor,hassets,hidle,-,-,-⟩ := h
  exact ⟨fits_of_le (by omega) (by omega),fits_of_le (by omega) (by omega)⟩

theorem priceBefore_total (hfloor : state.totalShares ≤ state.totalAssets)
    (hlimit : state.totalAssets ≤ classicLimit) : ∃ before, priceBefore state = .ok before := by
  have hdouble : classicLimit ≤ 2*classicLimit := by decide
  unfold priceBefore
  split_ifs with hpos
  · exact scaledPrice_total hpos hfloor (hlimit.trans hdouble)
  · exact ⟨0,rfl⟩

theorem checkPrice_safe {before : ℤ} (hfloor : state.totalShares ≤ state.totalAssets)
    (hlimit : state.totalAssets ≤ 2*classicLimit) :
    Avoids IsArithmetic (checkPrice state before : VaultM σ Unit) l := by
  unfold checkPrice
  rw [avoids_ite]
  refine ⟨fun hpos => ?_,fun _ => avoids_pure⟩
  obtain ⟨price,hprice⟩ := scaledPrice_total hpos hfloor hlimit
  rw [avoids_trapping_bind,hprice]
  refine ⟨fun m _ he => (by cases he),fun _ _ => ?_⟩
  exact avoids_demand.mpr fun hm => absurd hm other_not_arithmetic.2.2.2.2.2.2.2.2

theorem accrueYield_safe (h : Ranged (getState l.storage) l.storage) (ha : amount ≤ classicLimit)
    (ht : 0 < amount → treasuryBalance l.storage+(amount*feeBps l.storage).tdiv bpsDenominator ≤
      i128Max) (ht0 : 0 ≤ treasuryBalance l.storage) :
    Avoids IsArithmetic (accrueYield env amount) l := by
  unfold accrueYield
  simp only [requireAdmin,requireAuth,loadToken,tokenTransfer,bind_assoc,pure_bind,
    avoids_load_bind,avoids_expect_bind (m := "Admin not set"),avoids_demand_bind,
    avoids_ensure_bind,avoids_okOr_bind,avoids_expect_bind (m := unwrapNone),avoids_call_bind,
    other_not_arithmetic,false_implies,true_and,checkedMul_eq_some,checkedSub_eq_some,and_imp]
  rintro admin _ _ hpos _ _ rfl _ _ rfl token _ c _
  have hsplit := fee_bounds (s := l.storage) hpos rfl
  have hfee := ht hpos
  generalize (amount*feeBps l.storage).tdiv bpsDenominator = fee at hsplit hfee ⊢
  obtain ⟨hidle,hassets⟩ := h.yield_fits (by omega : 0 ≤ amount-fee) (by omega)
  have hfits : 0 < fee → I128 (treasuryBalance l.storage+fee) := fun h0 =>
    (fits_zero 128).between (z := i128Max) (by decide) (by omega) hfee
  refine (avoids_bind_of_ok (creditTreasury_ok (u := ()).mpr ⟨by exact hfits,rfl⟩)).mpr ?_
  refine (avoids_bind_of_ok (creditIdle_ok (u := ()).mpr ⟨by exact hidle,rfl⟩)).mpr ?_
  rw [avoids_load_bind]
  change Avoids IsArithmetic (trapping (priceBefore (getState l.storage)) >>= _) _
  obtain ⟨before,hbefore⟩ := priceBefore_total h.floor h.limit
  rw [hbefore,avoids_trapping_bind]
  refine ⟨fun m _ he => (by cases he),fun _ _ => avoids_checkedAdd_bind.mpr ⟨fun _ => hassets,?_⟩⟩
  intro _
  have hfloor := h.floor
  have hlimit := h.limit
  refine avoids_bind.mpr ⟨checkPrice_safe ?_ ?_,fun _ _ _ => avoids_store⟩
  · change (getState l.storage).totalShares ≤ (getState l.storage).totalAssets+(amount-fee)
    omega
  · change (getState l.storage).totalAssets+(amount-fee) ≤ 2*classicLimit
    omega

theorem calculateProtocolFee_total {bps : ℤ} (ha : 0 ≤ amount) (ha' : amount ≤ classicLimit)
    (hb : 0 ≤ bps) (hb' : bps ≤ 10000) : ∃ net, calculateProtocolFee amount bps =
      .ok ((amount*bps).tdiv bpsDenominator,net) ∧ 0 ≤ net ∧ net ≤ amount := by
  have hsplit := fee_split ha hb hb'
  have hlimit : classicLimit ≤ 2^126 := by decide
  have hproduct : I128 (amount*bps) := fits_mul ha hb ha' (hb'.trans (by decide))
  have hnet : I128 (amount-(amount*bps).tdiv bpsDenominator) := fits_of_le (by omega) (by omega)
  simp only [calculateProtocolFee,except_bind_eq_ok,require_eq_ok]
  by_cases h0 : amount = 0 ∨ bps = 0
  · have hzero : (amount*bps).tdiv bpsDenominator = 0 := by
      rcases h0 with rfl | rfl <;> simp
    rw [hzero]
    exact ⟨amount,⟨(),ha,(),⟨hb,hb'⟩,if_pos h0⟩,ha,le_rfl⟩
  · refine ⟨amount-(amount*bps).tdiv bpsDenominator,⟨(),ha,(),⟨hb,hb'⟩,?_⟩,by omega,by omega⟩
    simp only [if_neg h0,except_bind_eq_ok,unwrap_eq_ok,checkedMul_eq_some,checkedSub_eq_some]
    exact ⟨_,⟨hproduct,rfl⟩,_,⟨hnet,rfl⟩,rfl⟩

theorem reportBenjiYield_safe {strategy : Address} (h : Ranged (getState l.storage) l.storage)
    (ha : amount ≤ classicLimit)
    (ht : 0 < amount → treasuryBalance l.storage+(amount*feeBps l.storage).tdiv bpsDenominator ≤
      i128Max) (ht0 : 0 ≤ treasuryBalance l.storage)
    (hw : 0 < amount → strategyWatermark l.storage strategy+amount ≤ i128Max)
    (hw0 : 0 ≤ strategyWatermark l.storage strategy) :
    Avoids IsArithmetic (reportBenjiYield env strategy amount) l := by
  unfold reportBenjiYield
  simp only [requireAuth,loadToken,tokenTransfer,bind_assoc,avoids_load_bind,avoids_demand_bind,
    avoids_expect_bind (m := unwrapNone),avoids_call_bind,other_not_arithmetic,false_implies,
    true_and]
  intro _ hpos _ _ _ token _ c _
  obtain ⟨net,hfee,hnet,hle⟩ := calculateProtocolFee_total hpos.le ha (feeBps_nonneg l.storage)
    (feeBps_le l.storage)
  have hsplit := fee_bounds (s := l.storage) hpos rfl
  have htotal := ht hpos
  generalize (amount*feeBps l.storage).tdiv bpsDenominator = fee at hsplit htotal hfee ⊢
  obtain ⟨hidle,hassets⟩ := h.yield_fits hnet (hle.trans ha)
  have hfits : 0 < fee → I128 (treasuryBalance l.storage+fee) := fun h0 =>
    (fits_zero 128).between (z := i128Max) (by decide) (by omega) htotal
  have hmark : I128 (strategyWatermark l.storage strategy+amount) :=
    (fits_zero 128).between (z := i128Max) (by decide) (by omega) (hw hpos)
  rw [hfee,avoids_trapping_bind]
  refine ⟨fun m _ he => (by cases he),fun split hs => ?_⟩
  obtain rfl := Except.ok.inj hs
  refine (avoids_bind_of_ok (creditTreasury_ok (u := ()).mpr ⟨by exact hfits,rfl⟩)).mpr ?_
  rw [avoids_load_bind]
  refine avoids_checkedAdd_bind.mpr ⟨fun _ => hmark,fun _ => ?_⟩
  refine (avoids_bind_of_ok (raiseStrategyWatermark_ok (u := ()).mpr rfl)).mpr ?_
  refine (avoids_bind_of_ok (creditIdle_ok (u := ()).mpr ⟨by exact hidle,rfl⟩)).mpr ?_
  rw [avoids_load_bind]
  exact avoids_checkedAdd_bind.mpr ⟨fun _ => hassets,fun _ => avoids_store⟩

theorem batchDeposit_safe {relayer : Address} {entries : List DepositEntry}
    (h : Ranged (getState l.storage) l.storage) (hbatch : maxBatchSize l.storage < 2^32)
    (ha : ∀ entry ∈ entries, entry.amount ≤ classicLimit)
    (hd : ∀ user, userDeposit l.storage user+entered user entries ≤ i128Max)
    (hmemory : ∀ token, l.storage.tokenAsset = some token → InMemory env token
      (minDeposit l.storage) (perUserCap l.storage) entries ⟨getState l.storage,⟨[],0,0,0⟩⟩ l) :
    Avoids IsArithmetic (batchDeposit env relayer entries) l := by
  unfold batchDeposit
  simp only [requireAuth,loadToken,bind_assoc,avoids_load_bind,avoids_ensure_bind,
    avoids_demand_bind,avoids_expect_bind (m := unwrapNone),other_not_arithmetic,false_implies,
    true_and]
  intro _ _ _ hsize token htoken
  rw [avoids_bind]
  refine ⟨processEntries_safe (fun _ => h) ⟨ha,hd,⟨le_rfl,h.supply⟩,?_⟩ (hmemory token htoken),?_⟩
  · change 0+0+entries.length < 2^32
    omega
  · exact fun _ _ _ => avoids_store_bind.mpr (avoids_publish_bind.mpr avoids_pure)

end Operations

end YieldVault
