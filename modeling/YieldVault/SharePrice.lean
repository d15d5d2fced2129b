import YieldVault.Founding
import YieldVault.SimpleHost

/-! The price of a share, compared cross multiplied, never falls in a call that
leaves shares outstanding. As long as the supply does not go below zero, shares
are never outstanding without assets. -/
namespace YieldVault

open FixedWidth Contract

variable {σ : Type} {host : Host σ} {env : Env σ} {l t : Ledger σ}

section Call

theorem price_postAll {b : Books} {es : List Entry} (hno : ∀ e ∈ es, ¬ IsBurn e)
    (hv : Books.ValidPage es b) (hsupply : 0 < b.supply) (hassets : 0 < b.assets) :
    0 < (Books.postAll es b).supply ∧ 0 < (Books.postAll es b).assets ∧
      ProRata.PriceLe b.assets b.supply (Books.postAll es b).assets
        (Books.postAll es b).supply := by
  induction es generalizing b with
  | nil => exact ⟨hsupply,hassets,ProRata.PriceLe.refl _ _⟩
  | cons e es ih =>
    have hb : b.Priced := ⟨hsupply.le,hassets.le,fun _ => hassets⟩
    have hs : 0 < (Books.post e b).supply := by
      cases e with
      | mint user amount shares stored =>
        have h1 := hb.mint_pos hv.1.admits
        exact add_pos hsupply h1
      | burn user shares paid => exact absurd trivial (hno _ List.mem_cons_self)
      | _ => exact hsupply
    obtain ⟨ha,hp⟩ := Books.price_post hsupply hassets hv.1.admits hs
    obtain ⟨hs',ha',hp'⟩ := ih (fun e' he' => hno e' (List.mem_cons_of_mem _ he')) hv.2 hs ha
    exact ⟨hs',ha',hp.trans hsupply.le hs hs'.le hp'⟩

theorem price_burnPage {b : Books} {idle : ℤ} {user : Address} {shares paid : ℤ}
    (hv : Books.ValidPage (burnPage idle user shares paid) b) (hsupply : 0 < b.supply)
    (hassets : 0 < b.assets)
    (hs : 0 < (Books.postAll (burnPage idle user shares paid) b).supply) :
    0 < (Books.postAll (burnPage idle user shares paid) b).assets ∧
      ProRata.PriceLe b.assets b.supply
        (Books.postAll (burnPage idle user shares paid) b).assets
        (Books.postAll (burnPage idle user shares paid) b).supply := by
  unfold burnPage shortfall at hv hs ⊢
  split_ifs at hv hs ⊢
  · exact Books.price_post (b := Books.post (.divest (paid-idle)) b) hsupply hassets
      hv.2.1.admits hs
  · exact Books.price_post hsupply hassets hv.1.admits hs

theorem dispatch_price {call : Call} {v : Value} (hsupply : 0 < (getState l.storage).totalShares)
    (hassets : 0 < (getState l.storage).totalAssets) (h : (dispatch env call).run l = .ok v t)
    (hs : 0 < (getState t.storage).totalShares) :
    0 < (getState t.storage).totalAssets ∧
      ProRata.PriceLe (getState l.storage).totalAssets (getState l.storage).totalShares
        (getState t.storage).totalAssets (getState t.storage).totalShares := by
  have hstate : l.storage.state.isSome = true := by
    cases h0 : l.storage.state with
    | none => simp [getState,h0] at hsupply
    | some state => rfl
  by_cases hi : ∃ admin token, call = .initializeVault admin token
  · obtain ⟨admin,token,rfl⟩ := hi
    obtain ⟨_,h,-⟩ := map_eq_ok.mp h
    rw [(initializeVault_ok h).2] at hs
    exact absurd hs (lt_irrefl 0)
  · obtain ⟨es,hpage,hbook⟩ := journal hstate (fun a b hc => absurd ⟨a,b,hc⟩ hi) h
    have hpost := hbook.posted
    change 0 < (books t).supply at hs
    change 0 < (books t).assets ∧ ProRata.PriceLe (books l).assets (books l).supply
      (books t).assets (books t).supply
    rw [hpost] at hs ⊢
    rcases page_burns hpage with hno | ⟨user,shares,paid,rfl,-⟩
    · exact (price_postAll hno hbook.valid hsupply hassets).2
    · exact price_burnPage hbook.valid hsupply hassets hs

end Call

section Run

/-- The action leaves a supply that is not negative. -/
def KeepsSupply (l : Ledger σ) (a : Action host) : Prop :=
  0 ≤ (getState (step host a l).storage).totalShares

instance (l : Ledger σ) (a : Action host) : Decidable (KeepsSupply l a) :=
  inferInstanceAs (Decidable (0 ≤ _))

theorem priced_page {b : Books} {es : List Entry} (hno : ∀ e ∈ es, ¬ IsBurn e)
    (hv : Books.ValidPage es b) (hb : b.Priced) :
    Runs.Along Books.post (fun b e => b.Valid e ∧ 0 ≤ (Books.post e b).supply) b es := by
  induction es generalizing b with
  | nil => trivial
  | cons e es ih =>
    have hs : 0 ≤ (Books.post e b).supply := by
      cases e with
      | mint user amount shares stored =>
        have h1 := hb.mint_pos hv.1.admits
        exact add_nonneg hb.supply h1.le
      | burn user shares paid => exact absurd trivial (hno _ List.mem_cons_self)
      | _ => exact hb.supply
    exact ⟨⟨hv.1,hs⟩,ih (fun e' he' => hno e' (List.mem_cons_of_mem _ he')) hv.2
      (hb.post hv.1.admits hs)⟩

theorem priced_burnPage {b : Books} {idle : ℤ} {user : Address} {shares paid : ℤ}
    (hv : Books.ValidPage (burnPage idle user shares paid) b) (hb : b.Priced)
    (hs : 0 ≤ (Books.postAll (burnPage idle user shares paid) b).supply) :
    Runs.Along Books.post (fun b e => b.Valid e ∧ 0 ≤ (Books.post e b).supply) b
      (burnPage idle user shares paid) := by
  unfold burnPage shortfall at hv hs ⊢
  split_ifs at hv hs ⊢
  · exact ⟨⟨hv.1,hb.supply⟩,⟨hv.2.1,hs⟩,trivial⟩
  · exact ⟨⟨hv.1,hs⟩,trivial⟩

/-- At every entry of a page shares are backed, if the page does not overdraw the supply. -/
theorem page_priced {call : Call} {es : List Entry} (hpage : Page l.storage call es)
    (hbook : Booked l t es) (hb : (books l).Priced) (hs : 0 ≤ (books t).supply) :
    Runs.Along Books.post (fun b e => b.Valid e ∧ 0 ≤ (Books.post e b).supply) (books l) es := by
  rw [hbook.posted] at hs
  rcases page_burns hpage with hno | ⟨user,shares,paid,rfl,-⟩
  · exact priced_page hno hbook.valid hb
  · exact priced_burnPage hbook.valid hb hs

theorem priced_empty : Books.empty.Priced := ⟨le_rfl,le_rfl,fun h => absurd h (lt_irrefl 0)⟩

theorem run_priced {chain : σ} {acts : List (Action host)}
    (ha : Runs.Along (step host) KeepsSupply (genesis chain) acts) :
    (books (runFrom host chain acts)).Priced := by
  refine run_books priced_empty ?_ ha
  intro l inv v es _ hg hP hv hpage hbook
  exact (page_priced hpage hbook hP hg).invariant (fun _ _ hb he => hb.post he.1.admits he.2) hP

end Run

section Batch

/-- Inside a batch shares are backed too, whatever part of the list has been processed. -/
theorem processEntries_backed {token : Address} {minimum cap : ℤ} {entries : List DepositEntry}
    {batch batch' : BatchState} (hsupply : 0 ≤ batch.state.totalShares)
    (hassets : 0 ≤ batch.state.totalAssets)
    (hbacked : 0 < batch.state.totalShares → 0 < batch.state.totalAssets)
    (h : (processEntries env token minimum cap entries batch).run l = .ok batch' t) :
    0 < batch'.state.totalShares → 0 < batch'.state.totalAssets := by
  let P : VaultState → Ledger σ → Prop := fun state _ =>
    0 ≤ state.totalShares ∧ 0 ≤ state.totalAssets ∧ (0 < state.totalShares → 0 < state.totalAssets)
  have hP : P batch'.state t := by
    refine processEntries_invariant ?_ h ⟨hsupply,hassets,hbacked⟩
    rintro state state' user amount shares m m' ⟨hs,ha,-⟩ hentry
    obtain ⟨c,hpos,-,hshares,hne,-,-,-,-,rfl,-⟩ := processSingleBatchEntry_ok.mp hentry
    have hm : 0 ≤ shares := by
      rcases assetsToShares_portion hpos hs ha hshares with h1 | h1
      · exact h1.1
      · omega
    have ha' : 0 < state.totalAssets+amount := by omega
    exact ⟨add_nonneg hs hm,ha'.le,fun _ => ha'⟩
  exact hP.2.2

end Batch

section Assertion

@[simp] theorem unwrap_eq_error {α : Type} {o : Option α} {m m' : String} :
    unwrap o m = .error m' ↔ o = none ∧ m = m' := by
  cases o <;> simp [unwrap]

theorem scaledPrice_ok {state : VaultState} {p : ℤ} (h : scaledPrice state = .ok p) :
    p = (state.totalAssets*sharePriceScale).tdiv state.totalShares := by
  simp only [scaledPrice,except_bind_eq_ok,unwrap_eq_ok,checkedMul_eq_some,
    checkedDiv_eq_some] at h
  obtain ⟨_,⟨-,rfl⟩,-,-,h⟩ := h
  exact h.symm

def accrueYieldAssertion : String := "share price must not decrease during yield accrual"

theorem scaledPrice_error {state : VaultState} :
    scaledPrice state ≠ .error accrueYieldAssertion := by
  intro h
  unfold scaledPrice at h
  cases h1 : checkedMul 128 state.totalAssets sharePriceScale with
  | none =>
    have h2 : "overflow" = accrueYieldAssertion := by simpa [h1,unwrap,bind,Except.bind] using h
    exact absurd h2 (by decide)
  | some product =>
    have h2 : unwrap (checkedDiv 128 product state.totalShares) "division by zero" =
        .error accrueYieldAssertion := by simpa [h1,unwrap,bind,Except.bind] using h
    exact absurd (unwrap_eq_error.mp h2).2 (by decide)

theorem creditTreasury_panic {fee : ℤ} {announce : Bool} :
    (creditTreasury fee announce).run l ≠ .panic accrueYieldAssertion := by
  intro h
  by_cases h0 : 0 < fee
  · cases announce with
    | true => simp [creditTreasury,h0,accrueYieldAssertion] at h
    | false => simp [creditTreasury,h0,accrueYieldAssertion] at h
  · simp [creditTreasury,h0] at h

theorem priceBefore_error {state : VaultState} :
    priceBefore state ≠ .error accrueYieldAssertion := by
  unfold priceBefore
  split_ifs
  · exact scaledPrice_error
  · simp

theorem other_traps : "Admin not set" ≠ accrueYieldAssertion ∧
    "Error(Auth, InvalidAction)" ≠ accrueYieldAssertion ∧ unwrapNone ≠ accrueYieldAssertion ∧
    "contract call failed" ≠ accrueYieldAssertion ∧ "overflow" ≠ accrueYieldAssertion := by
  decide

/-- The assertion about the price in `accrue_yield` cannot fail, whatever the state. -/
theorem accrueYield_assertion {amount : ℤ} :
    (accrueYield env amount).run l ≠ .panic accrueYieldAssertion := by
  intro h
  simp [accrueYield,loadToken,tokenTransfer,creditIdle,creditTreasury_ok,checkPrice,
    creditTreasury_panic,priceBefore_error,scaledPrice_error,other_traps] at h
  obtain ⟨admin,-,-,hpos,-,-,_,-,-,-,-,before,hbefore,-,hsupply,after,hafter,hlt,-⟩ := h
  unfold priceBefore at hbefore
  rw [if_pos hsupply] at hbefore
  have hsplit := fee_bounds (s := l.storage) hpos rfl
  have hb := scaledPrice_ok hbefore
  have ha := scaledPrice_ok hafter
  have hscale : (0 : ℤ) ≤ sharePriceScale := by decide
  have hgain : (getState l.storage).totalAssets ≤ (getState l.storage).totalAssets +
      (amount-(amount*feeBps l.storage).tdiv bpsDenominator) := by omega
  have hle : before ≤ after := by
    rw [hb,ha]
    exact Int.tdiv_le_tdiv hsupply (mul_le_mul_of_nonneg_right hgain hscale)
  omega

end Assertion

/-- In any state with shares and assets, no successful call lowers the price or leaves
shares without assets. Along a run that never overdraws the supply, shares are never
outstanding without assets, not even between the entries of a batch, and the assertion
of `accrue_yield` never fires. -/
theorem sharePrice_never_falls (host : Host σ) :
    (∀ (env : Env σ) (call : Call) (l t : Ledger σ) (v : Value),
      0 < (getState l.storage).totalShares → 0 < (getState l.storage).totalAssets →
      (dispatch env call).run l = .ok v t → 0 < (getState t.storage).totalShares →
      0 < (getState t.storage).totalAssets ∧
        (getState l.storage).totalAssets*(getState t.storage).totalShares ≤
          (getState t.storage).totalAssets*(getState l.storage).totalShares) ∧
    ∀ (chain : σ) (acts : List (Action host)),
      Runs.Along (step host) KeepsSupply (genesis chain) acts →
      (0 < (getState (runFrom host chain acts).storage).totalShares →
        0 < (getState (runFrom host chain acts).storage).totalAssets) ∧
      (∀ (env : Env σ) (token : Address) (minimum cap : ℤ) (entries : List DepositEntry)
        (batch : BatchState) (m : Ledger σ),
        (processEntries env token minimum cap entries
          ⟨getState (runFrom host chain acts).storage,⟨[],0,0,0⟩⟩).run (runFrom host chain acts) =
            .ok batch m → 0 < batch.state.totalShares → 0 < batch.state.totalAssets) ∧
      ∀ (env : Env σ) (amount : ℤ),
        (accrueYield env amount).run (runFrom host chain acts) ≠ .panic accrueYieldAssertion := by
  refine ⟨fun env call l t v hsupply hassets h hs => dispatch_price hsupply hassets h hs,?_⟩
  intro chain acts ha
  have hp := run_priced ha
  refine ⟨hp.backed,?_,fun env amount => accrueYield_assertion⟩
  intro env token minimum cap entries batch m h
  exact processEntries_backed hp.supply hp.assets hp.backed h

section Runs

open SimpleHost

def yieldRun : List (Action (simpleHost id 0)) :=
  [signed admin 0 (.initializeVault admin token),
    signed alice 1 (.deposit alice 1000),
    signed admin 2 (.accrueYield 501)]

theorem yieldRun_keepsSupply :
    Runs.Along (step (simpleHost id 0)) KeepsSupply (genesis bank) yieldRun :=
  ⟨by decide +kernel,by decide +kernel,by decide +kernel,trivial⟩

def aliceEnv : Env Bank := ⟨simpleHost id 0,3,3,fun a => decide (a = alice)⟩

theorem yieldRun_price :
    (0 < (getState (runFrom (simpleHost id 0) bank yieldRun).storage).totalShares →
      0 < (getState (runFrom (simpleHost id 0) bank yieldRun).storage).totalAssets) ∧
    (getState (runFrom (simpleHost id 0) bank yieldRun).storage).totalAssets*
        (getState (settle (runFrom (simpleHost id 0) bank yieldRun)
          ((dispatch aliceEnv (.withdraw alice 300)).run
            (runFrom (simpleHost id 0) bank yieldRun))).storage).totalShares ≤
      (getState (settle (runFrom (simpleHost id 0) bank yieldRun)
          ((dispatch aliceEnv (.withdraw alice 300)).run
            (runFrom (simpleHost id 0) bank yieldRun))).storage).totalAssets*
        (getState (runFrom (simpleHost id 0) bank yieldRun).storage).totalShares := by
  have h := sharePrice_never_falls (simpleHost id 0)
  refine ⟨(h.2 bank yieldRun yieldRun_keepsSupply).1,?_⟩
  exact (h.1 aliceEnv (.withdraw alice 300) _ _ (.amount 450) (by decide) (by decide) (by rfl)
    (by decide)).2

end Runs

end YieldVault
