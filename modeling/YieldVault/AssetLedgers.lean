import YieldVault.Founding
import YieldVault.SimpleHost

/-! The two records of the vault's assets. Shares are priced with one, the other says
what is idle and what is placed with strategies. They agree exactly as long as no
harvest of the Korean debt strategy has been counted. -/
namespace YieldVault

open FixedWidth Contract

variable {σ : Type} {host : Host σ} {chain : σ} {l t : Ledger σ}

section Step

variable {token : Address}

/-- Strategies return exactly the amount that is asked for. -/
def ExactRecalls (host : Host σ) (token : Address) : Prop :=
  ∀ strategy amount c c', host.withdraw strategy amount c = some c' →
    I128 amount ∧ host.balance token host.vault c' = host.balance token host.vault c+amount

/-- The conditions under which `accrue_korean_debt_yield` counts a harvest. -/
def HarvestCounts (l : Ledger σ) : Action host → Prop
  | .invoke inv => inv.call = .accrueKoreanDebtYield ∧ ∃ admin strategy harvested c,
    l.storage.proxy.admin = some admin ∧ inv.auth admin = true ∧
    l.storage.koreanDebtStrategy = some strategy ∧
    host.harvestYield strategy l.chain = some (harvested,c) ∧ 0 < harvested ∧
    I128 ((getState l.storage).totalAssets+harvested)
  | .outside _ => False

/-- Exactly then the call succeeds, and it moves the priced assets alone. -/
theorem accrueKoreanDebtYield_drift {inv : Invocation host.vault}
    (h : HarvestCounts l (.invoke inv : Action host)) :
    (books l).drift < (books (invoke inv l)).drift := by
  obtain ⟨timestamp,sequence,auth,unsigned,call⟩ := inv
  obtain ⟨hcall,admin,strategy,harvested,c,hadmin,hauth,hstrategy,hharvest,hpos,hfit⟩ := h
  obtain rfl : call = .accrueKoreanDebtYield := hcall
  let env : Env σ := ⟨host,timestamp,sequence,auth⟩
  have hrun : (accrueKoreanDebtYield env).run l = .ok harvested _ :=
    accrueKoreanDebtYield_ok.mpr ⟨admin,strategy,c,hadmin,hauth,hstrategy,hharvest,hpos,hfit,rfl⟩
  have hcall : (dispatch env .accrueKoreanDebtYield).run l = .ok (.amount harvested) _ :=
    map_eq_ok.mpr ⟨harvested,hrun,rfl⟩
  have hbook := (accrueKoreanDebtYield_booked hrun).posted
  have hinvoke : invoke ⟨timestamp,sequence,auth,unsigned,.accrueKoreanDebtYield⟩ l = _ :=
    congrArg (settle l) hcall
  rw [hinvoke]
  change (books l).drift < (books _).drift
  rw [settle,hbook,Books.drift_postAll]
  simp only [List.map_cons,List.map_nil,List.sum_cons,List.sum_nil,Books.driftOf]
  omega

theorem harvestCounts_of_ok {inv : Invocation host.vault} {v : Value}
    (hcall : inv.call = .accrueKoreanDebtYield)
    (h : (dispatch inv.env inv.call).run l = .ok v t) :
    HarvestCounts l (.invoke inv : Action host) := by
  rw [hcall] at h
  obtain ⟨harvested,h,-⟩ := map_eq_ok.mp h
  obtain ⟨admin,strategy,c,hadmin,hauth,hstrategy,hharvest,hpos,hfit,-⟩ :=
    accrueKoreanDebtYield_ok.mp h
  exact ⟨hcall,admin,strategy,harvested,c,hadmin,hauth,hstrategy,hharvest,hpos,hfit⟩

theorem sum_driftOf {es : List Entry} (h : ∀ e ∈ es, Books.driftOf e = 0) :
    (es.map Books.driftOf).sum = 0 := by
  refine List.sum_eq_zero fun d hd => ?_
  obtain ⟨e,he,rfl⟩ := List.mem_map.mp hd
  exact h e he

theorem driftOf_singleton {e : Entry} (he : Books.driftOf e = 0) :
    ∀ e' ∈ [e], Books.driftOf e' = 0 := by
  intro e' he'
  rw [List.mem_singleton.mp he']
  exact he

theorem driftOf_burnPage (idle : ℤ) (user : Address) (shares paid : ℤ) :
    ∀ e ∈ burnPage idle user shares paid, Books.driftOf e = 0 := by
  intro e he
  unfold burnPage shortfall at he
  split_ifs at he
  · simp only [List.cons_append,List.nil_append,List.mem_cons,List.not_mem_nil,or_false] at he
    rcases he with rfl | rfl <;> rfl
  · exact driftOf_singleton rfl e he

/-- Apart from a harvest and a rebalancing, every page moves both records together. -/
theorem page_driftOf {s : Storage} {call : Call} {es : List Entry} (h : Page s call es)
    (hharvest : call ≠ .accrueKoreanDebtYield)
    (hrebalance : ∀ a b amount m n, call ≠ .rebalance a b amount m n) :
    ∀ e ∈ es, Books.driftOf e = 0 := by
  cases call with
  | accrueKoreanDebtYield => exact absurd rfl hharvest
  | rebalance a b amount m n => exact absurd rfl (hrebalance a b amount m n)
  | deposit user amount =>
    obtain ⟨-,shares,rfl⟩ := h
    exact driftOf_singleton rfl
  | batchDeposit relayer entries =>
    intro e he
    have hmint := h.2 e he
    cases e with
    | mint user amount shares stored => rfl
    | _ => exact absurd hmint id
  | withdraw user shares =>
    obtain ⟨-,-,rfl | ⟨paid,rfl⟩⟩ := h
    · simp
    · exact driftOf_burnPage _ _ _ _
  | executeWithdrawal user =>
    obtain ⟨pending,paid,-,rfl⟩ := h
    exact driftOf_burnPage _ _ _ _
  | accrueYield amount =>
    obtain ⟨_,rfl⟩ := h
    exact driftOf_singleton rfl
  | reportBenjiYield strategy amount =>
    obtain ⟨_,rfl⟩ := h
    exact driftOf_singleton rfl
  | confirmEmergencyAction confirmer id =>
    obtain ⟨proposal,-,rfl⟩ := h
    unfold emergencyPage
    cases proposal.kind with
    | forceUpgrade => simp
    | _ => exact driftOf_singleton rfl
  | invest amount => exact h ▸ driftOf_singleton rfl
  | divest amount => exact h ▸ driftOf_singleton rfl
  | claimFees => exact h ▸ driftOf_singleton rfl
  | pause reason => exact h ▸ driftOf_singleton rfl
  | unpause => exact h ▸ driftOf_singleton rfl
  | _ =>
    have h0 : es = [] := h
    simp [h0]

theorem measuredWithdrawal_exact {env : Env σ} {strategy : Address} {amount : ℤ} {c c' : σ}
    (hx : ExactRecalls env.host token) (h : env.host.withdraw strategy amount c = some c') :
    measuredWithdrawal env token c c' = amount := by
  obtain ⟨hfit,hbalance⟩ := hx strategy amount _ _ h
  rw [measuredWithdrawal,hbalance]
  simp [checkedSub,narrow,hfit]

theorem rebalance_drift {env : Env σ} {fromStrategy toStrategy : Address}
    {amount minDivest minInvest : ℤ} {u : Unit} (hx : ExactRecalls env.host token)
    (htok : ∀ other ∈ l.storage.tokenAsset, other = token)
    (h : (rebalance env fromStrategy toStrategy amount minDivest minInvest).run l = .ok u t) :
    (books t).drift = (books l).drift := by
  obtain ⟨_,token',c₁,_,_,_,_,after,c,received,-,-,-,htoken,hwith,hreceived,-,-,-,-,-,-,-,rfl⟩ :=
    rebalance_ok h
  obtain rfl : token' = token := htok token' htoken
  have hexact : received = amount := hreceived.trans (measuredWithdrawal_exact hx hwith)
  subst hexact
  have hn := isNotice_watermarkNotice toStrategy after
    (loweredWatermark fromStrategy received l.storage)
  unfold books Books.drift
  rw [(logged_notices hn).1]
  simp only [principalOf,raisedWatermark_frame,loweredWatermark_frame]
  omega

/-- A step moves the two records apart exactly if it counts a harvest. -/
theorem step_drift {a : Action host} (hf : Founded l) (hx : ExactRecalls host token)
    (htok : ∀ other ∈ l.storage.tokenAsset, other = token) :
    ¬ HarvestCounts l a ∧ (books (step host a l)).drift = (books l).drift ∨
      HarvestCounts l a ∧ (books l).drift < (books (step host a l)).drift := by
  by_cases hc : HarvestCounts l a
  · refine Or.inr ⟨hc,?_⟩
    cases a with
    | outside c => exact absurd hc id
    | invoke inv => exact accrueKoreanDebtYield_drift hc
  · refine Or.inl ⟨hc,?_⟩
    rcases hf with hu | hl
    · rcases step_unfounded hu a with hu' | ⟨-,hb⟩
      · rw [hu'.books,hu.books]
      · rw [hb,hu.books]
    · rcases step_cases hl a with ⟨inv,v,es,rfl,hv,hpage,hbook⟩ | ⟨hb,-⟩
      · have hharvest : inv.call ≠ .accrueKoreanDebtYield :=
          fun hcall => hc (harvestCounts_of_ok hcall hv)
        by_cases hr : ∃ a b amount m n, inv.call = .rebalance a b amount m n
        · obtain ⟨a,b,amount,m,n,hcall⟩ := hr
          rw [hcall] at hv
          obtain ⟨_,hv,-⟩ := map_eq_ok.mp hv
          exact rebalance_drift hx htok hv
        · have hno := page_driftOf hpage hharvest
            (fun a b amount m n hcall => hr ⟨a,b,amount,m,n,hcall⟩)
          rw [hbook.posted,Books.drift_postAll,sum_driftOf hno,add_zero]
      · rw [hb]

end Step

section Run

variable {token : Address}

/-- The two records of a run's last ledger agree as far as those of its first do, if no
harvest was counted on the way; otherwise the priced assets are ahead for good. -/
theorem run_drift {acts : List (Action host)} (hf : Founded l) (hx : ExactRecalls host token)
    (htok : ∀ other ∈ (Runs.run (step host) acts l).storage.tokenAsset, other = token) :
    (books l).drift ≤ (books (Runs.run (step host) acts l)).drift ∧
      ((books (Runs.run (step host) acts l)).drift = (books l).drift ↔
        Runs.Along (step host) (fun l a => ¬ HarvestCounts l a) l acts) := by
  induction acts generalizing l with
  | nil => exact ⟨le_rfl,by simp [Runs.Along]⟩
  | cons a as ih =>
    have hfirst : ∀ other ∈ l.storage.tokenAsset, other = token := by
      rcases hf with hu | hl
      · intro other h
        rw [hu.blank.token] at h
        exact absurd h (Option.not_mem_none _)
      · rw [run_token hl] at htok
        exact htok
    obtain ⟨hle,hiff⟩ := ih (step_founded hf a) htok
    rw [Runs.run_cons]
    rcases step_drift hf hx hfirst with ⟨hno,hsame⟩ | ⟨hcounts,hlt⟩
    · rw [hsame] at hle hiff
      exact ⟨hle,hiff.trans ⟨fun h => ⟨hno,h⟩,And.right⟩⟩
    · refine ⟨hlt.le.trans hle,⟨fun h => ?_,fun h => absurd hcounts h.1⟩⟩
      omega

/-- With strategies that return exactly what is asked for, the assets that shares are
priced with are the idle assets and the net principal placed with strategies if and
only if no harvest of the Korean debt strategy has been counted. -/
theorem totalAssets_eq_iff {acts : List (Action host)} (hx : ExactRecalls host token)
    (htoken : (runFrom host chain acts).storage.tokenAsset = some token) :
    (getState (runFrom host chain acts).storage).totalAssets =
        idleAssets (runFrom host chain acts).storage+principalOf (runFrom host chain acts).log ↔
      Runs.Along (step host) (fun l a => ¬ HarvestCounts l a) (genesis chain) acts := by
  have htok : ∀ other ∈ (runFrom host chain acts).storage.tokenAsset, other = token := by
    intro other h
    exact Option.some.inj (h.symm.trans htoken)
  have hu := unfounded_genesis chain
  have h0 : (books (genesis chain)).drift = 0 := by rw [hu.books]; rfl
  have hdrift := (run_drift (Or.inl hu) hx htok).2
  rw [h0] at hdrift
  rw [← hdrift]
  exact sub_eq_zero.symm

end Run

section Runs

open SimpleHost

theorem exactRecalls_simpleHost (harvest : ℤ) : ExactRecalls (simpleHost id harvest) token := by
  intro strategy amount c c' h
  obtain ⟨hmove,hheld⟩ := simpleHost_withdraw h
  exact ⟨(Bank.move_held hmove).1.2,hheld⟩

def placedRun : List (Action (simpleHost id 5)) :=
  [signed admin 0 (.initializeVault admin token),
    signed admin 1 (.setting (.whitelist strategyA true)),
    signed admin 2 (.setting (.strategy strategyA)),
    signed admin 3 (.setting (.koreanStrategy strategyB)),
    signed alice 4 (.deposit alice 1000),
    signed admin 5 (.invest 600),
    signed admin 6 (.rebalance strategyA strategyB 200 200 200),
    signed admin 7 (.accrueYield 50)]

theorem placedRun_agrees_iff :
    (getState (runFrom (simpleHost id 5) bank placedRun).storage).totalAssets =
        idleAssets (runFrom (simpleHost id 5) bank placedRun).storage +
          principalOf (runFrom (simpleHost id 5) bank placedRun).log ↔
      Runs.Along (step (simpleHost id 5)) (fun l a => ¬ HarvestCounts l a) (genesis bank)
        placedRun :=
  totalAssets_eq_iff (exactRecalls_simpleHost 5) (by decide)

/-- After one harvest the two records differ by the harvested amount. -/
theorem harvest_disagrees :
    ¬ ∀ acts : List (Action (simpleHost id 5)),
      (getState (runFrom (simpleHost id 5) bank acts).storage).totalAssets =
        idleAssets (runFrom (simpleHost id 5) bank acts).storage +
          principalOf (runFrom (simpleHost id 5) bank acts).log := by
  intro h
  have h1 := h (placedRun ++ [signed admin 8 .accrueKoreanDebtYield])
  exact absurd h1 (by decide)

end Runs

end YieldVault
