import YieldVault.Redeemability
import YieldVault.ShareLedger

/-! Everybody leaves. In a vault that has only taken deposits and yields and paid
withdrawals, the holders can withdraw their whole balances one after another in any
order; nobody loses by it, and nothing is left. -/
namespace YieldVault

open FixedWidth Contract Custody

variable {σ : Type} {host : Host σ} {l t : Ledger σ}

section Liquid

/-- Sound books of a vault that is not paused and keeps all its assets. -/
structure Books.Liquid (b : Books) : Prop where
  sound : b.Sound
  idle : b.idle = b.assets
  unpaused : b.paused = false

theorem liquid_empty : Books.empty.Liquid := ⟨sound_empty,rfl,rfl⟩

def IsInflow : Entry → Prop
  | .mint _ _ _ _ | .yield _ _ => True
  | _ => False

theorem Books.Liquid.inflow {b : Books} {e : Entry} (hb : b.Liquid) (he : b.Valid e)
    (hin : IsInflow e) : (Books.post e b).Liquid := by
  cases e with
  | mint user amount shares stored =>
    exact ⟨hb.sound.post he trivial,congrArg (·+amount) hb.idle,hb.unpaused⟩
  | yield net fee => exact ⟨hb.sound.post he trivial,congrArg (·+net) hb.idle,hb.unpaused⟩
  | _ => exact absurd hin id

theorem Books.Liquid.inflows {b : Books} {es : List Entry} (hb : b.Liquid)
    (hv : Books.ValidPage es b) (hin : ∀ e ∈ es, IsInflow e) : (Books.postAll es b).Liquid := by
  induction es generalizing b with
  | nil => exact hb
  | cons e es ih =>
    exact ih (hb.inflow hv.1 (hin e List.mem_cons_self)) hv.2
      fun e' he' => hin e' (List.mem_cons_of_mem _ he')

/-- A payout for shares that the user holds is never short. -/
theorem Books.Liquid.paid_le {b : Books} (hb : b.Liquid) {user : Address} {shares paid : ℤ}
    (hpos : 0 < shares) (hheld : shares ≤ b.balance user)
    (hpaid : sharesToAssets shares b.supply b.assets = .ok paid) : paid ≤ b.idle := by
  have hle := hheld.trans (hb.sound.balance_le user)
  have hsupply : 0 < b.supply := hpos.trans_le hle
  have hp := sharesToAssets_portion hpos.le hsupply hb.sound.assets hpaid
  have hleft := ProRata.burn_assets_nonneg hsupply hb.sound.assets hle hp.2.2
  rw [hb.idle]
  omega

theorem Books.Liquid.burn {b : Books} (hb : b.Liquid) {user : Address} {shares paid : ℤ}
    (he : b.Valid (.burn user shares paid)) (hheld : shares ≤ b.balance user) :
    (Books.post (.burn user shares paid) b).Liquid :=
  ⟨hb.sound.post he hheld,congrArg (·-paid) hb.idle,hb.unpaused⟩

theorem burnPage_of_le {idle paid : ℤ} (h : paid ≤ idle) (user : Address) (shares : ℤ) :
    burnPage idle user shares paid = [.burn user shares paid] := by
  rw [burnPage,shortfall,if_neg (not_lt.mpr h)]
  rfl

theorem Books.Liquid.burnPage {b : Books} (hb : b.Liquid) {user : Address} {shares paid : ℤ}
    (hheld : shares ≤ b.balance user)
    (hv : Books.ValidPage (burnPage b.idle user shares paid) b) :
    (Books.postAll (YieldVault.burnPage b.idle user shares paid) b).Liquid := by
  have hpaid : 0 < shares ∧ sharesToAssets shares b.supply b.assets = .ok paid := by
    unfold YieldVault.burnPage shortfall at hv
    split_ifs at hv
    · exact hv.2.1.admits
    · exact hv.1.admits
  have hle := hb.paid_le hpaid.1 hheld hpaid.2
  rw [burnPage_of_le hle] at hv ⊢
  exact hb.burn hv.1 hheld

end Liquid

section Run

/-- Deposits, withdrawals and yields, and the calls that only change settings and votes. -/
def Call.isPlain : Call → Bool
  | .initializeVault _ _ | .deposit _ _ | .batchDeposit _ _ | .withdraw _ _ | .accrueYield _
  | .reportBenjiYield _ _ | .totalAssets => true
  | call => call.isQuiet

def Plain (_ : Ledger σ) : Action host → Prop
  | .invoke inv => inv.call.isPlain = true
  | .outside _ => True

theorem page_liquid {call : Call} {es : List Entry} (hplain : call.isPlain = true)
    (hl : (books l).Liquid) (hpage : Page l.storage call es) (hbook : Booked l t es) :
    (Books.postAll es (books l)).Liquid := by
  have hv := hbook.valid
  cases call with
  | deposit user amount =>
    obtain ⟨-,shares,rfl⟩ := hpage
    refine hl.inflows hv fun e he => ?_
    rw [List.mem_singleton.mp he]
    trivial
  | batchDeposit relayer entries =>
    refine hl.inflows hv fun e he => ?_
    have hmint := hpage.2 e he
    cases e with
    | mint user amount shares stored => trivial
    | _ => exact absurd hmint id
  | withdraw user shares =>
    obtain ⟨-,hheld,rfl | ⟨paid,rfl⟩⟩ := hpage
    · exact hl
    · exact hl.burnPage hheld hv
  | accrueYield amount =>
    obtain ⟨fee,rfl⟩ := hpage
    refine hl.inflows hv fun e he => ?_
    rw [List.mem_singleton.mp he]
    trivial
  | reportBenjiYield strategy amount =>
    obtain ⟨fee,rfl⟩ := hpage
    refine hl.inflows hv fun e he => ?_
    rw [List.mem_singleton.mp he]
    trivial
  | upgrade _ | migrateStorage _ | pause _ | unpause | proposeEmergencyAction _ _ _ _ _
  | confirmEmergencyAction _ _ | accrueKoreanDebtYield | executeWithdrawal _ | invest _ | divest _
  | rebalance _ _ _ _ _ | claimFees => exact absurd hplain Bool.false_ne_true
  | _ =>
    have hnone : es = [] := hpage
    rw [hnone]
    exact hl

variable {token : Address} {allowed : σ → ℤ} {chain : σ}

theorem plain_fullRecall {inv : Invocation host.vault} (hplain : inv.call.isPlain = true)
    (hl : (books l).Liquid) : FullRecall token l (.invoke inv : Action host) := by
  intro v t h
  obtain ⟨timestamp,sequence,auth,unsigned,call⟩ := inv
  cases call with
  | withdraw user shares =>
    obtain ⟨_,h,-⟩ := map_eq_ok.mp h
    obtain ⟨hpos,_,-,-,-,hheld,-⟩ := withdraw_ok.mp h
    intro paid hpaid _ hshort
    exact absurd hshort (not_lt.mpr (hl.paid_le hpos hheld hpaid))
  | divest _ | executeWithdrawal _ | confirmEmergencyAction _ _ =>
    exact absurd hplain Bool.false_ne_true
  | _ => trivial

structure Ready (host : Host σ) (token : Address) (allowed : σ → ℤ) (l : Ledger σ) : Prop where
  reachable : Reachable host l
  backed : Backed host token allowed l
  liquid : (books l).Liquid
  token : l.storage.tokenAsset = some token
  threshold : largeWithdrawalThreshold l.storage = i128Max
  cooldown : withdrawalCooldown l.storage = 0
  fits : I128 ((getState l.storage).totalShares*(getState l.storage).totalAssets)

theorem run_liquid_backed {acts : List (Action host)} (ht : StandardToken host token allowed)
    (hfresh : allowed chain = 0) (hbalance : 0 ≤ host.balance token host.vault chain)
    (houtside : Runs.Along (step host) (OutsideDraws token allowed) (genesis chain) acts)
    (hplain : Runs.Along (step host) Plain (genesis chain) acts)
    (htoken : (runFrom host chain acts).storage.tokenAsset = some token) :
    (books (runFrom host chain acts)).Liquid ∧
      Backed host token allowed (runFrom host chain acts) := by
  let P : Ledger σ → Prop := fun l =>
    Founded l ∧ (books l).Liquid ∧ BackedFor host token allowed l
  have h0 : P (genesis chain) := by
    have hu := unfounded_genesis chain
    refine ⟨Or.inl hu,?_,fun _ => ?_⟩
    · rw [hu.books]
      exact liquid_empty
    · change 0+0+allowed chain ≤ host.balance token host.vault chain
      omega
  have hstep : ∀ l a, P l → OutsideDraws token allowed l a ∧ Plain l a → P (step host a l) := by
    rintro l a ⟨hf,hl,hb⟩ ⟨ho,hp⟩
    refine ⟨step_founded hf a,?_,step_backed ht hf hb ?_ ho⟩
    · refine step_books liquid_empty ?_ hf hl hp
      intro l inv v es _ hg hP _ hpage hbook
      exact page_liquid hg hP hpage hbook
    · cases a with
      | invoke inv => exact plain_fullRecall hp hl
      | outside c => trivial
  obtain ⟨-,hl,hb⟩ := (houtside.and hplain).invariant hstep h0
  refine ⟨hl,hb fun other h => ?_⟩
  exact Option.some.inj (h.symm.trans htoken)

end Run

section Exit

variable {token : Address} {allowed : σ → ℤ}

/-- The invocation by which a user withdraws the whole balance. -/
def exitCall (user : Address) (inv : Invocation host.vault) (l : Ledger σ) :
    Invocation host.vault :=
  { inv with call := .withdraw user (balance l.storage user) }

/-- Users withdraw their whole balances in turn; what they are paid, and the ledger left. -/
def exitAll : List (Address × Invocation host.vault) → Ledger σ → Option (List ℤ × Ledger σ)
  | [], l => some ([],l)
  | (user,inv)::exits, l =>
    match (dispatch (exitCall user inv l).env (exitCall user inv l).call).run l with
    | .ok (.amount paid) t => (exitAll exits t).map fun r => (paid::r.1,r.2)
    | _ => none

def worth (l : Ledger σ) (user : Address) : ℤ :=
  balance l.storage user*(getState l.storage).totalAssets / (getState l.storage).totalShares

theorem Ready.redeeming (hr : Ready host token allowed l) {user : Address}
    (hheld : 0 < balance l.storage user) : Redeeming l user (balance l.storage user) := by
  have hle : balance l.storage user ≤ (getState l.storage).totalShares :=
    hr.liquid.sound.balance_le user
  exact ⟨hheld.trans_le hle,hr.liquid.sound.assets,hheld,le_rfl⟩

theorem Ready.product_fits (hr : Ready host token allowed l) {user : Address} :
    I128 (balance l.storage user*(getState l.storage).totalAssets) := by
  have hbalance : 0 ≤ balance l.storage user := hr.liquid.sound.balance user
  have hassets : 0 ≤ (getState l.storage).totalAssets := hr.liquid.sound.assets
  have hle : balance l.storage user ≤ (getState l.storage).totalShares :=
    hr.liquid.sound.balance_le user
  exact (fits_zero 128).between hr.fits (mul_nonneg hbalance hassets)
    (mul_le_mul_of_nonneg_right hle hassets)

/-- The ledger that one holder leaves behind, with one transfer to that holder. -/
theorem Ready.after (ht : StandardToken host token allowed) (hr : Ready host token allowed l)
    {user : Address} {inv : Invocation host.vault} (hheld : 0 < balance l.storage user)
    (hpaid : sharesToAssets (balance l.storage user) (getState l.storage).totalShares
      (getState l.storage).totalAssets = .ok (worth l user)) {v : Value}
    (hv : (dispatch (exitCall user inv l).env (exitCall user inv l).call).run l = .ok v t) :
    Ready host token allowed t ∧
      books t = Books.post (.burn user (balance l.storage user) (worth l user)) (books l) ∧
      ∃ effects, t.log = effects ++ l.log ∧
        payments host.vault effects = [(token,user,worth l user)] := by
  have hle : worth l user ≤ idleAssets l.storage := hr.liquid.paid_le hheld le_rfl hpaid
  have hplain : (exitCall user inv l).call.isPlain = true := rfl
  have htok : ∀ other ∈ l.storage.tokenAsset, other = token := by
    intro other h
    exact Option.some.inj (h.symm.trans hr.token)
  have hbacked : Backed host token allowed t :=
    dispatch_backed ht hr.backed (reachable_founded hr.reachable) htok
      (plain_fullRecall hplain hr.liquid v t hv) hv
  have hreach : Reachable host t := by
    rw [← step_of_ok hv]
    exact hr.reachable.step _
  obtain ⟨_,hrun,-⟩ := map_eq_ok.mp hv
  obtain ⟨_,paid,-,-,-,-,hpaid',hdo⟩ := withdraw_ok.mp hrun
  obtain rfl : worth l user = paid := Except.ok.inj (hpaid.symm.trans hpaid')
  have hsmall : ¬ largeWithdrawalThreshold l.storage < worth l user := by
    rw [hr.threshold]
    exact not_lt.mpr (Int.le_sub_one_of_lt ((hr.redeeming hheld).payout hr.product_fits).2.2)
  rcases hdo with ⟨-,hdo⟩ | ⟨hlarge,-⟩
  · obtain ⟨other,effects,hother,hlog,hpays,-⟩ := doWithdraw_pays hdo
    obtain rfl : token = other := Option.some.inj (hr.token.symm.trans hother)
    have hbook := doWithdraw_booked hheld hpaid hdo
    rw [burnPage_of_le hle] at hbook
    have hbooks : books t = Books.post (.burn user _ (worth l user)) (books l) := hbook.posted
    have hliquid : (books t).Liquid := by
      rw [hbooks]
      exact hr.liquid.burn hbook.valid.1 le_rfl
    obtain ⟨_,m,c,-,hcover,-,-,-,rfl⟩ := doWithdraw_ok.mp hdo
    rw [coverShortfall_ok,if_neg (not_lt.mpr hle)] at hcover
    subst hcover
    refine ⟨⟨hreach,hbacked,hliquid,hr.token,hr.threshold,hr.cooldown,?_⟩,hbooks,effects,hlog,
      hpays⟩
    -- less than before is multiplied, and none of it is negative
    have hsupply : 0 ≤ (getState l.storage).totalShares-balance l.storage user :=
      hliquid.sound.supply
    have hassets : 0 ≤ (getState l.storage).totalAssets-worth l user := hliquid.sound.assets
    have hworth : 0 ≤ worth l user := ((hr.redeeming hheld).payout hr.product_fits).1
    refine (fits_zero 128).between hr.fits (mul_nonneg hsupply hassets) ?_
    change ((getState l.storage).totalShares-balance l.storage user)*
      ((getState l.storage).totalAssets-worth l user) ≤ _
    exact mul_le_mul (by omega) (by omega) hassets (by omega)
  · exact absurd hlarge hsmall

theorem Ready.exit (ht : StandardToken host token allowed) (hpay : PaysCovered host token)
    (hr : Ready host token allowed l) {user : Address} (inv : Invocation host.vault)
    (hauth : inv.auth user = true) (hheld : 0 < balance l.storage user) :
    ∃ t, (dispatch (exitCall user inv l).env (exitCall user inv l).call).run l =
        .ok (.amount (worth l user)) t ∧ Ready host token allowed t ∧
      books t = Books.post (.burn user (balance l.storage user) (worth l user)) (books l) ∧
      ∃ effects, t.log = effects ++ l.log ∧
        payments host.vault effects = [(token,user,worth l user)] := by
  have hw := hr.redeeming hheld
  have hfit : I128 (balance l.storage user*(getState l.storage).totalAssets) := hr.product_fits
  have hpaid := (sharesToAssets_iff hw.pos.le hw.supply hw.assets).mpr ⟨hfit,rfl⟩
  have hle : worth l user ≤ idleAssets l.storage := hr.liquid.paid_le hheld le_rfl hpaid
  have hlarge : worth l user ≤ largeWithdrawalThreshold l.storage := by
    rw [hr.threshold]
    exact Int.le_sub_one_of_lt (hw.payout hfit).2.2
  have hcool : CooledDown inv.timestamp user l.storage := by
    intro hpos
    rw [hr.cooldown] at hpos
    exact absurd hpos (lt_irrefl 0)
  have hcover : (coverShortfall inv.env (worth l user)).run l = .ok () l :=
    coverShortfall_ok.mpr (by rw [if_neg (not_lt.mpr hle)])
  obtain ⟨t,hrun⟩ : ∃ t, (withdraw inv.env user (balance l.storage user)).run l =
      .ok (worth l user) t :=
    withdraw_completes ht hpay hr.backed hr.reachable hr.token hr.liquid.unpaused inv hauth hcool
      hw hlarge hfit rfl (fun hlt => absurd hle (not_le.mpr hlt)) hcover
  have hv : (dispatch (exitCall user inv l).env (exitCall user inv l).call).run l =
      .ok (.amount (worth l user)) t := by
    have hcall : (exitCall user inv l).call = .withdraw user (balance l.storage user) := rfl
    have henv : (exitCall user inv l).env = inv.env := rfl
    rw [hcall,henv,dispatch,map_eq_ok]
    exact ⟨worth l user,hrun,rfl⟩
  exact ⟨t,hv,hr.after ht hheld hpaid hv⟩

/-- One transfer of the token to each user of the list, newest first. -/
def transfersTo (token : Address) (users : List Address) (paids : List ℤ) :
    List (Address × Address × ℤ) :=
  ((users.zip paids).map (Prod.mk token)).reverse

/-- Users who hold shares leave one after another: what they are paid, and what is left. -/
theorem exitAll_ok (ht : StandardToken host token allowed) (hpay : PaysCovered host token)
    {exits : List (Address × Invocation host.vault)} (hr : Ready host token allowed l)
    (hsigned : ∀ e ∈ exits, e.2.auth e.1 = true) (hnodup : (exits.map Prod.fst).Nodup)
    (hheld : ∀ e ∈ exits, 0 < balance l.storage e.1) :
    ∃ t, exitAll exits l = some (ProRata.exitPayouts (exits.map fun e => balance l.storage e.1)
          (getState l.storage).totalAssets (getState l.storage).totalShares,t) ∧
      Ready host token allowed t ∧
      (getState t.storage).totalShares = (getState l.storage).totalShares -
        (exits.map fun e => balance l.storage e.1).sum ∧
      (getState t.storage).totalAssets = (getState l.storage).totalAssets -
        (ProRata.exitPayouts (exits.map fun e => balance l.storage e.1)
          (getState l.storage).totalAssets (getState l.storage).totalShares).sum ∧
      ∃ effects, t.log = effects ++ l.log ∧ payments host.vault effects =
        transfersTo token (exits.map Prod.fst)
          (ProRata.exitPayouts (exits.map fun e => balance l.storage e.1)
            (getState l.storage).totalAssets (getState l.storage).totalShares) := by
  induction exits generalizing l with
  | nil => exact ⟨l,rfl,hr,(sub_zero _).symm,(sub_zero _).symm,[],rfl,rfl⟩
  | cons e exits ih =>
    obtain ⟨user,inv⟩ := e
    obtain ⟨hnew,hrest⟩ := List.nodup_cons.mp hnodup
    obtain ⟨m,hexit,hm,hbooks,effects,hlog,hpays⟩ := hr.exit ht hpay inv (hsigned _ List.mem_cons_self)
      (hheld _ List.mem_cons_self)
    have hsupply : (getState m.storage).totalShares =
        (getState l.storage).totalShares-balance l.storage user := congrArg Books.supply hbooks
    have hassets : (getState m.storage).totalAssets =
        (getState l.storage).totalAssets-worth l user := congrArg Books.assets hbooks
    have hbalance : ∀ e ∈ exits, balance m.storage e.1 = balance l.storage e.1 := by
      intro e he
      have hne : e.1 ≠ user := by
        rintro rfl
        exact hnew (List.mem_map.mpr ⟨e,he,rfl⟩)
      exact (congrFun (congrArg Books.balance hbooks) e.1).trans (Function.update_of_ne hne _ _)
    have hmap : (exits.map fun e => balance m.storage e.1) =
        exits.map fun e => balance l.storage e.1 := List.map_congr_left hbalance
    have hheld' : ∀ e ∈ exits, 0 < balance m.storage e.1 := by
      intro e he
      rw [hbalance e he]
      exact hheld e (List.mem_cons_of_mem _ he)
    obtain ⟨t,hall,hready,hshares,hleft,later,hlater,hpaysLater⟩ :=
      ih hm (fun e he => hsigned e (List.mem_cons_of_mem _ he)) hrest hheld'
    rw [hmap,hsupply,hassets] at hall hleft hpaysLater
    rw [hmap,hsupply] at hshares
    refine ⟨t,?_,hready,?_,?_,later ++ effects,?_,?_⟩
    · rw [exitAll,hexit]
      simp only [hall,Option.map_some]
      rfl
    · rw [hshares,List.map_cons,List.sum_cons]
      ring
    · rw [hleft]
      simp only [List.map_cons,ProRata.exitPayouts,List.sum_cons,worth]
      ring
    · rw [hlater,hlog,List.append_assoc]
    · rw [payments_append,hpaysLater,hpays]
      simp only [transfersTo,List.map_cons,ProRata.exitPayouts,List.zip_cons_cons,
        List.reverse_cons,worth]

end Exit

section Fairness

variable {token : Address} {allowed : σ → ℤ} {chain : σ}

theorem holders_sum {s : Storage} {supply : ℤ} {users : List Address}
    (hsum : HasSum (balance s) supply) (hnodup : users.Nodup)
    (hholders : ∀ user, user ∈ users ↔ balance s user ≠ 0) :
    (users.map (balance s)).sum = supply := by
  rw [← List.sum_toFinset _ hnodup]
  have hrest : ∀ user ∉ users.toFinset, balance s user = 0 := by
    intro user huser
    by_contra hne
    exact huser (List.mem_toFinset.mpr ((hholders user).mpr hne))
  exact (hasSum_sum_of_ne_finset_zero hrest).unique hsum

/-- In every state of a vault that has only taken deposits and yields and paid withdrawals,
all holders can leave in any order: every withdrawal of a whole balance succeeds and transfers
to the holder, once, at least the part of the assets before the first of them, rounded down;
these parts fall short of the assets by less than one unit for each holder; and nothing is
left. -/
theorem fullExit_fair {acts : List (Action host)} (ht : StandardToken host token allowed)
    (hpay : PaysCovered host token) (hfresh : allowed chain = 0)
    (hbalance : 0 ≤ host.balance token host.vault chain)
    (houtside : Runs.Along (step host) (OutsideDraws token allowed) (genesis chain) acts)
    (hplain : Runs.Along (step host) Plain (genesis chain) acts)
    (htoken : (runFrom host chain acts).storage.tokenAsset = some token)
    (hthreshold : largeWithdrawalThreshold (runFrom host chain acts).storage = i128Max)
    (hcooldown : withdrawalCooldown (runFrom host chain acts).storage = 0)
    (hfits : I128 ((getState (runFrom host chain acts).storage).totalShares *
      (getState (runFrom host chain acts).storage).totalAssets))
    {exits : List (Address × Invocation host.vault)} (hsome : exits ≠ [])
    (hsigned : ∀ e ∈ exits, e.2.auth e.1 = true) (hnodup : (exits.map Prod.fst).Nodup)
    (hholders : ∀ user, user ∈ exits.map Prod.fst ↔
      balance (runFrom host chain acts).storage user ≠ 0) :
    ∃ paids t, exitAll exits (runFrom host chain acts) = some (paids,t) ∧
      (∃ effects, t.log = effects ++ (runFrom host chain acts).log ∧
        payments host.vault effects = transfersTo token (exits.map Prod.fst) paids) ∧
      List.Forall₂ (fun user paid => worth (runFrom host chain acts) user ≤ paid)
        (exits.map Prod.fst) paids ∧
      ((exits.map Prod.fst).map (worth (runFrom host chain acts))).sum ≤
        (getState (runFrom host chain acts).storage).totalAssets ∧
      (getState (runFrom host chain acts).storage).totalAssets -
        ((exits.map Prod.fst).map (worth (runFrom host chain acts))).sum < exits.length ∧
      (getState t.storage).totalShares = 0 ∧ (getState t.storage).totalAssets = 0 ∧
      idleAssets t.storage = 0 := by
  obtain ⟨hliquid,hbacked⟩ := run_liquid_backed ht hfresh hbalance houtside hplain htoken
  have hr : Ready host token allowed (runFrom host chain acts) :=
    ⟨⟨chain,acts,rfl⟩,hbacked,hliquid,htoken,hthreshold,hcooldown,hfits⟩
  generalize runFrom host chain acts = l at *
  have hheld : ∀ e ∈ exits, 0 < balance l.storage e.1 := by
    intro e he
    have hne := (hholders e.1).mp (List.mem_map.mpr ⟨e,he,rfl⟩)
    exact lt_of_le_of_ne (hliquid.sound.balance e.1) hne.symm
  obtain ⟨t,hall,hready,hshares,hleft,effects,hlog,hpays⟩ :=
    exitAll_ok ht hpay hr hsigned hnodup hheld
  have hmap : (exits.map fun e => balance l.storage e.1) =
      (exits.map Prod.fst).map (balance l.storage) := by
    rw [List.map_map]
    rfl
  have hpos : ∀ b ∈ exits.map fun e => balance l.storage e.1, 0 < b := by
    intro b hb
    obtain ⟨e,he,rfl⟩ := List.mem_map.mp hb
    exact hheld e he
  have hsum : ((exits.map Prod.fst).map (balance l.storage)).sum =
      (getState l.storage).totalShares := holders_sum hliquid.sound.balanced.sum hnodup hholders
  rw [hmap] at hall hshares hleft hpos hpays
  obtain ⟨hpaid,hle,hlt,htaken⟩ :=
    ProRata.exit_fair (A := (getState l.storage).totalAssets) hpos (by simpa using hsome) hsum
  have hfloors : ProRata.floors ((exits.map Prod.fst).map (balance l.storage))
      (getState l.storage).totalAssets (getState l.storage).totalShares =
        (exits.map Prod.fst).map (worth l) := List.map_map
  rw [hfloors] at hle hlt
  rw [List.length_map,List.length_map] at hlt
  rw [hsum,sub_self] at hshares
  rw [htaken,sub_self] at hleft
  have hworth := List.forall₂_map_left_iff.mp hpaid
  have hidle : idleAssets t.storage = (getState t.storage).totalAssets := hready.liquid.idle
  exact ⟨_,t,hall,⟨effects,hlog,hpays⟩,hworth,hle,hlt,hshares,hleft,hidle.trans hleft⟩

end Fairness

section Runs

open SimpleHost

/-- Two holders and a yield that does not divide evenly. -/
def unevenRun : List (Action (simpleHost id 0)) :=
  [signed admin 0 (.initializeVault admin SimpleHost.token),
    signed alice 1 (.deposit alice 1000),
    signed bob 2 (.deposit bob 500),
    signed admin 3 (.accrueYield 100)]

def leavers : List (Address × Invocation (simpleHost id 0).vault) :=
  [(bob,signedCall bob 9 .totalAssets),(alice,signedCall alice 9 .totalAssets)]

theorem unevenRun_holders (user : Address) : user ∈ leavers.map Prod.fst ↔
    balance (runFrom (simpleHost id 0) bank unevenRun).storage user ≠ 0 := by
  have hshares : (runFrom (simpleHost id 0) bank unevenRun).storage.shareBalance =
      Function.update (Function.update (fun _ => none) alice (some 1000)) bob (some 500) := by rfl
  have hmem : user ∈ leavers.map Prod.fst ↔ user = bob ∨ user = alice := by
    simp [leavers]
  rw [hmem,balance,hshares]
  by_cases hbob : user = bob
  · subst hbob
    simp
  · rw [Function.update_of_ne hbob]
    by_cases halice : user = alice
    · subst halice
      simp
    · rw [Function.update_of_ne halice]
      simp [hbob,halice]

/-- Both leave, and the rounding of bob's payout goes to alice. -/
theorem unevenRun_exits :
    ∃ paids t, exitAll leavers (runFrom (simpleHost id 0) bank unevenRun) = some (paids,t) ∧
      (∃ effects, t.log = effects ++ (runFrom (simpleHost id 0) bank unevenRun).log ∧
        payments (simpleHost id 0).vault effects =
          transfersTo SimpleHost.token [bob,alice] paids) ∧
      List.Forall₂ (fun user paid => worth (runFrom (simpleHost id 0) bank unevenRun) user ≤ paid)
        [bob,alice] paids ∧
      ([bob,alice].map (worth (runFrom (simpleHost id 0) bank unevenRun))).sum ≤
        (getState (runFrom (simpleHost id 0) bank unevenRun).storage).totalAssets ∧
      (getState (runFrom (simpleHost id 0) bank unevenRun).storage).totalAssets -
        ([bob,alice].map (worth (runFrom (simpleHost id 0) bank unevenRun))).sum < 2 ∧
      (getState t.storage).totalShares = 0 ∧ (getState t.storage).totalAssets = 0 ∧
      idleAssets t.storage = 0 := by
  refine fullExit_fair standardToken_simpleHost (paysCovered_simpleHost 0)
    (by decide) (by decide) ?_ ?_ (by rfl) (by decide) (by decide) (by decide +kernel) (by decide)
    ?_ (by decide) unevenRun_holders
  · exact ⟨trivial,trivial,trivial,trivial,trivial⟩
  · exact ⟨rfl,rfl,rfl,rfl,trivial⟩
  · intro e he
    rcases List.mem_cons.mp he with rfl | he
    · rfl
    · rw [List.mem_singleton.mp he]
      rfl

end Runs

end YieldVault
