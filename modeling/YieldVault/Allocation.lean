import YieldVault.AssetLedgers
import YieldVault.StorageParts

/-! Where the vault's funds are. The values of honest strategies change by exactly what is
moved; what the vault reports as its total and what its limits allow is compared with
them. -/
namespace YieldVault

open FixedWidth Contract

variable {σ : Type} {host : Host σ} {env : Env σ} {l t : Ledger σ} {token : Address}
  {strategies : Set Address} {value : σ → Address → ℤ}

/-- The value of an honest strategy is what was put into it less what was taken out. -/
structure HonestValues (host : Host σ) (strategies : Set Address) (value : σ → Address → ℤ) :
    Prop where
  reports : ∀ strategy ∈ strategies, ∀ v c c', host.totalValue strategy c = some (v,c') →
    v = value c strategy ∧ Set.EqOn (value c') (value c) strategies
  deposit : ∀ strategy ∈ strategies, ∀ amount c c', host.deposit strategy amount c = some c' →
    Set.EqOn (value c') (value c + Pi.single strategy amount) strategies
  withdraw : ∀ strategy ∈ strategies, ∀ amount c c', host.withdraw strategy amount c = some c' →
    Set.EqOn (value c') (value c - Pi.single strategy amount) strategies
  approve : ∀ token spender amount expiration c c',
    host.approve token host.vault spender amount expiration c = some c' →
      Set.EqOn (value c') (value c) strategies

def activeValue (strategy : Option Address) (values : Address → ℤ) : ℤ :=
  (strategy.map values).getD 0

def reportedTotal (value : σ → Address → ℤ) (l : Ledger σ) : ℤ :=
  idleAssets l.storage+activeValue l.storage.strategy (value l.chain)

theorem totalAssets_reported (hh : HonestValues env.host strategies value)
    (hactive : ∀ strategy ∈ l.storage.strategy, strategy ∈ strategies) {total : ℤ}
    (h : (totalAssets env).run l = .ok total t) : total = reportedTotal value l := by
  obtain ⟨invested,c,hreports,-,rfl,-⟩ := totalAssets_ok.mp h
  unfold reportedTotal activeValue
  cases hstrategy : l.storage.strategy with
  | none =>
    rw [hstrategy] at hreports
    rw [hreports.1]
    rfl
  | some strategy =>
    rw [hstrategy] at hreports hactive
    rw [(hh.reports strategy (hactive strategy rfl) _ _ _ hreports).1]
    rfl

section Moves

/-- What a call adds to the values of the strategies. -/
def placed (active : Option Address) : Call → Address → ℤ
  | .invest amount => active.elim 0 fun strategy => Pi.single strategy amount
  | .divest amount => active.elim 0 fun strategy => -Pi.single strategy amount
  | .rebalance fromStrategy toStrategy amount _ _ =>
    Pi.single toStrategy amount - Pi.single fromStrategy amount
  | _ => 0

def Call.idleChange : Call → ℤ
  | .invest amount => -amount
  | .divest amount => amount
  | _ => 0

def Call.chosen (active : Option Address) : Call → Option Address
  | .setting (.strategy strategy) => some strategy
  | _ => active

def Call.names : Call → List Address
  | .setting (.strategy strategy) => [strategy]
  | .rebalance fromStrategy toStrategy _ _ _ => [fromStrategy,toStrategy]
  | _ => []

/-- The calls that decide where the funds are. -/
def Call.allocates : Call → Bool
  | .invest _ | .divest _ | .rebalance _ _ _ _ _ | .setting (.strategy _) => true
  | _ => false

/-- The effect of an allocation on the idle assets, the active strategy and the values. -/
structure Allocated (strategies : Set Address) (value : σ → Address → ℤ) (call : Call)
    (l t : Ledger σ) : Prop where
  idle : idleAssets t.storage = idleAssets l.storage+call.idleChange
  strategy : t.storage.strategy = call.chosen l.storage.strategy
  values : Set.EqOn (value t.chain) (value l.chain + placed l.storage.strategy call) strategies

theorem dispatch_allocated {call : Call} {v : Value} (ha : call.allocates = true)
    (hh : HonestValues env.host strategies value) (hx : ExactRecalls env.host token)
    (htoken : l.storage.tokenAsset = some token)
    (hactive : ∀ strategy ∈ l.storage.strategy, strategy ∈ strategies)
    (hnames : ∀ strategy ∈ call.names, strategy ∈ strategies)
    (h : (dispatch env call).run l = .ok v t) : Allocated strategies value call l t := by
  cases call with
  | invest amount =>
    obtain ⟨_,h,-⟩ := map_eq_ok.mp h
    obtain ⟨_,strategy,token',_,c₁,_,c₂,c₃,c,-,-,-,hstrategy,-,h₁,h₂,h₃,h₄,-,-,-,-,-,-,rfl⟩ :=
      invest_ok h
    have hs : strategy ∈ strategies := hactive strategy hstrategy
    refine ⟨rfl,rfl,fun other hother => ?_⟩
    rw [hh.deposit strategy hs _ _ _ h₄ hother]
    simp only [Pi.add_apply,placed,hstrategy,Option.elim_some]
    rw [hh.approve _ _ _ _ _ _ h₃ hother,(hh.reports strategy hs _ _ _ h₂).2 hother,
      (hh.reports strategy hs _ _ _ h₁).2 hother]
  | divest amount =>
    obtain ⟨_,h,-⟩ := map_eq_ok.mp h
    obtain ⟨strategy,hstrategy,c,hc,-,-,rfl⟩ := divest_ok.mp h
    refine ⟨rfl,rfl,fun other hother => ?_⟩
    rw [hh.withdraw strategy (hactive strategy hstrategy) _ _ _ hc hother]
    simp only [placed,hstrategy,Option.elim_some,sub_eq_add_neg]
  | rebalance fromStrategy toStrategy amount minDivest minInvest =>
    obtain ⟨_,h,-⟩ := map_eq_ok.mp h
    obtain ⟨_,token',c₁,_,c₂,c₃,c₄,_,c,received,-,-,-,htoken',hwith,hreceived,-,h₂,h₃,h₄,h₅,-,-,
      rfl⟩ := rebalance_ok h
    obtain rfl := Option.some.inj (htoken'.symm.trans htoken)
    rw [measuredWithdrawal_exact hx hwith] at hreceived
    subst hreceived
    have hfrom : fromStrategy ∈ strategies := hnames _ List.mem_cons_self
    have hto : toStrategy ∈ strategies := hnames _ (List.mem_cons_of_mem _ List.mem_cons_self)
    refine ⟨(add_zero _).symm,rfl,fun other hother => ?_⟩
    have hrecalled := hh.withdraw fromStrategy hfrom _ _ _ hwith hother
    have hplaced := hh.deposit toStrategy hto _ _ _ h₄ hother
    rw [(hh.reports toStrategy hto _ _ _ h₅).2 hother,hplaced]
    simp only [Pi.add_apply,Pi.sub_apply,placed] at hrecalled ⊢
    rw [hh.approve _ _ _ _ _ _ h₃ hother,(hh.reports toStrategy hto _ _ _ h₂).2 hother,hrecalled]
    ring
  | setting setting =>
    cases setting with
    | strategy strategy =>
      obtain ⟨_,h,-⟩ := map_eq_ok.mp h
      obtain ⟨_,-,-,-,rfl⟩ := adminSetting_ok.mp h
      refine ⟨(add_zero _).symm,rfl,fun other _ => ?_⟩
      exact (add_zero _).symm
    | _ => simp [Call.allocates] at ha
  | _ => simp [Call.allocates] at ha

end Moves

section Total

/-- The allocations that do not change what is reported: recalls and placements of the active
strategy, rebalancings that take nothing from it and give nothing to it, and a change to a
strategy of the same value. -/
def KeepsTotal (values : Address → ℤ) (active : Option Address) : Call → Prop
  | .rebalance fromStrategy toStrategy _ _ _ =>
    fromStrategy = toStrategy ∨ active ≠ some fromStrategy ∧ active ≠ some toStrategy
  | .setting (.strategy strategy) => values strategy = activeValue active values
  | _ => True

theorem Allocated.activeValue {call : Call} (h : Allocated strategies value call l t)
    (hactive : ∀ strategy ∈ t.storage.strategy, strategy ∈ strategies) :
    reportedTotal value t = idleAssets l.storage+call.idleChange +
      activeValue (call.chosen l.storage.strategy)
        (value l.chain + placed l.storage.strategy call) := by
  rw [reportedTotal,h.idle,h.strategy]
  rw [h.strategy] at hactive
  cases hs : call.chosen l.storage.strategy with
  | none => rfl
  | some strategy =>
    rw [hs] at hactive
    have hvalue := h.values (hactive strategy rfl)
    simp only [YieldVault.activeValue,Option.map_some,Option.getD_some,hvalue]

theorem chosen_mem {active : Option Address} {call : Call}
    (hactive : ∀ strategy ∈ active, strategy ∈ strategies)
    (hnames : ∀ strategy ∈ call.names, strategy ∈ strategies) :
    ∀ strategy ∈ call.chosen active, strategy ∈ strategies := by
  intro strategy hstrategy
  cases call with
  | setting setting =>
    cases setting with
    | strategy other =>
      obtain rfl : other = strategy := Option.some.inj hstrategy
      exact hnames other List.mem_cons_self
    | _ => exact hactive strategy hstrategy
  | _ => exact hactive strategy hstrategy

theorem rebalance_keeps_iff {values : Address → ℤ} {active : Option Address}
    {fromStrategy toStrategy : Address} {amount : ℤ} (hpos : 0 < amount) :
    activeValue active (values + (Pi.single toStrategy amount - Pi.single fromStrategy amount)) =
        activeValue active values ↔
      fromStrategy = toStrategy ∨ active ≠ some fromStrategy ∧ active ≠ some toStrategy := by
  cases active with
  | none => simp [activeValue]
  | some strategy =>
    have hvalue : activeValue (some strategy)
        (values + (Pi.single toStrategy amount - Pi.single fromStrategy amount)) =
          values strategy+((Pi.single toStrategy amount : Address → ℤ) strategy -
            (Pi.single fromStrategy amount : Address → ℤ) strategy) := rfl
    have hactive : activeValue (some strategy) values = values strategy := rfl
    rw [hvalue,hactive,add_eq_left,Pi.single_apply,Pi.single_apply]
    by_cases hfrom : strategy = fromStrategy
    · subst hfrom
      by_cases hto : strategy = toStrategy
      · simp [hto]
      · simp [hto,hpos.ne']
    · by_cases hto : strategy = toStrategy
      · subst hto
        simp [hfrom,Ne.symm hfrom,hpos.ne']
      · simp [hfrom,hto]

/-- What `total_assets` reports is the same before and after an allocation exactly if the
allocation is one of those that keep it. -/
theorem totalAssets_kept_iff (hh : HonestValues host strategies value)
    (hx : ExactRecalls host token) (htoken : l.storage.tokenAsset = some token)
    (hactive : ∀ strategy ∈ l.storage.strategy, strategy ∈ strategies)
    {inv : Invocation host.vault} (hnames : ∀ strategy ∈ inv.call.names, strategy ∈ strategies)
    (ha : inv.call.allocates = true) {v : Value}
    (hv : (dispatch inv.env inv.call).run l = .ok v t) {first second : Invocation host.vault}
    {total total' : ℤ} {m m' : Ledger σ} (hbefore : (totalAssets first.env).run l = .ok total m)
    (hafter : (totalAssets second.env).run t = .ok total' m') :
    total' = total ↔ KeepsTotal (value l.chain) l.storage.strategy inv.call := by
  have hmoved := dispatch_allocated ha hh hx htoken hactive hnames hv
  have hactive' : ∀ strategy ∈ t.storage.strategy, strategy ∈ strategies := by
    rw [hmoved.strategy]
    exact chosen_mem hactive hnames
  have h1 : total = reportedTotal value l := totalAssets_reported hh hactive hbefore
  have h2 : total' = reportedTotal value t := totalAssets_reported hh hactive' hafter
  rw [h1,h2,hmoved.activeValue hactive',reportedTotal]
  clear hmoved
  obtain ⟨timestamp,sequence,auth,unsigned,call⟩ := inv
  cases call with
  | invest amount =>
    obtain ⟨_,h,-⟩ := map_eq_ok.mp hv
    obtain ⟨_,strategy,_,_,_,_,_,_,_,-,-,-,hstrategy,-⟩ := invest_ok h
    simp [hstrategy,KeepsTotal,Call.chosen,Call.idleChange,placed,activeValue]
    ring
  | divest amount =>
    obtain ⟨_,h,-⟩ := map_eq_ok.mp hv
    obtain ⟨strategy,hstrategy,-⟩ := divest_ok.mp h
    simp [hstrategy,KeepsTotal,Call.chosen,Call.idleChange,placed,activeValue]
    ring
  | rebalance fromStrategy toStrategy amount minDivest minInvest =>
    obtain ⟨_,h,-⟩ := map_eq_ok.mp hv
    obtain ⟨_,_,_,_,_,_,_,_,_,_,-,-,hpos,-⟩ := rebalance_ok h
    simp only [Call.idleChange,Call.chosen,placed,add_zero,add_right_inj,KeepsTotal]
    exact rebalance_keeps_iff hpos
  | setting setting =>
    cases setting with
    | strategy strategy =>
      simp only [Call.idleChange,Call.chosen,placed,add_zero,add_right_inj,KeepsTotal]
      rfl
    | _ => simp [Call.allocates] at ha
  | _ => simp [Call.allocates] at ha

end Total

section Limits

def ThresholdsInRange (s : Storage) : Prop := ∀ strategy,
  0 ≤ (s.strategyRiskThreshold strategy).getD 10000 ∧
    (s.strategyRiskThreshold strategy).getD 10000 ≤ 10000

theorem ThresholdsInRange.dispatched {call : Call} {v : Value} (h : ThresholdsInRange l.storage)
    (hv : (dispatch env call).run l = .ok v t) : ThresholdsInRange t.storage := by
  by_cases hw : Part.risk ∈ call.writes
  · cases call with
    | setting setting =>
      cases setting with
      | strategyRiskThreshold strategy threshold =>
        obtain ⟨_,hset,-⟩ := map_eq_ok.mp hv
        obtain ⟨_,-,-,hrange,rfl⟩ := adminSetting_ok.mp hset
        intro other
        change 0 ≤ (Function.update l.storage.strategyRiskThreshold strategy (some threshold)
          other).getD 10000 ∧ (Function.update l.storage.strategyRiskThreshold strategy
            (some threshold) other).getD 10000 ≤ 10000
        by_cases he : other = strategy
        · subst he
          rw [Function.update_self]
          exact of_decide_eq_true hrange
        · rw [Function.update_of_ne he]
          exact h other
      | _ => simp [Call.writes] at hw
    | _ => simp [Call.writes] at hw
  · have hsame : ThresholdsInRange t.storage = ThresholdsInRange l.storage :=
      read_of_part (fun _ => rfl) (dispatch_part hw hv)
    rw [hsame]
    exact h

theorem run_thresholdsInRange (chain : σ) (acts : List (Action host)) :
    ThresholdsInRange (runFrom host chain acts).storage := by
  have hdefault : ThresholdsInRange ({} : Storage) := fun _ =>
    ⟨show (0 : ℤ) ≤ 10000 by decide,le_refl (10000 : ℤ)⟩
  exact run_storage (fun _ _ _ _ hv h => h.dispatched hv) acts hdefault

/-- The limits on what is placed with a strategy, of what it and the whole vault report. -/
structure WithinLimits (s : Storage) (strategy : Address) (held total : ℤ) : Prop where
  whitelisted : isStrategyWhitelisted s strategy = true
  cap : held ≤ (s.strategyCap strategy).getD i128Max
  risk : held*10000 ≤ (s.strategyRiskThreshold strategy).getD 10000*total
  buffer : minLiquidityBuffer s ≤ idleAssets s

def Call.target (active : Option Address) : Call → Option Address
  | .invest _ => active
  | .rebalance _ toStrategy _ _ _ => some toStrategy
  | _ => none

/-- The allocations that end within the limits. A placement has passed the checks; left are a
strategy taken off the whitelist after it became active and a share that is the threshold
only after rounding. A rebalancing has passed none. -/
def StaysWithin (values : Address → ℤ) (s : Storage) : Call → Prop
  | .invest amount => ∀ strategy ∈ s.strategy, isStrategyWhitelisted s strategy = true ∧
      (0 < idleAssets s+values strategy →
        (values strategy+amount)*10000 / (idleAssets s+values strategy) =
          (s.strategyRiskThreshold strategy).getD 10000 →
        idleAssets s+values strategy ∣ (values strategy+amount)*10000)
  | .rebalance fromStrategy toStrategy amount _ _ =>
    let moved := values + (Pi.single toStrategy amount - Pi.single fromStrategy amount)
    isStrategyWhitelisted s toStrategy = true ∧
      moved toStrategy ≤ (s.strategyCap toStrategy).getD i128Max ∧
      moved toStrategy*10000 ≤ (s.strategyRiskThreshold toStrategy).getD 10000 *
        (idleAssets s+activeValue s.strategy moved) ∧
      minLiquidityBuffer s ≤ idleAssets s
  | _ => True

/-- What `invest` checks bounds the share of the strategy up to rounding. -/
theorem invest_risk_iff {idle held amount threshold : ℤ} (hle : amount ≤ idle)
    (hmax : threshold ≤ 10000)
    (hchecked : 0 < idle+held → ((held+amount)*10000).tdiv (idle+held) ≤ threshold) :
    (held+amount)*10000 ≤ threshold*(idle+held) ↔
      (0 < idle+held → (held+amount)*10000 / (idle+held) = threshold →
        idle+held ∣ (held+amount)*10000) := by
  by_cases hpos : 0 < idle+held
  · have hfloor := (ProRata.ediv_le_tdiv (x := (held+amount)*10000) hpos).trans (hchecked hpos)
    rw [ProRata.le_mul_iff_of_floor hpos hfloor]
    exact ⟨fun h _ => h,fun h => h hpos⟩
  · -- the check is left out, and even the whole is within the threshold
    have hwhole : (held+amount)*10000 ≤ 10000*(idle+held) := by linarith
    have hshare : 10000*(idle+held) ≤ threshold*(idle+held) :=
      mul_le_mul_of_nonpos_right hmax (not_lt.mp hpos)
    exact ⟨fun _ h => absurd h hpos,fun _ => hwhole.trans hshare⟩

theorem invest_withinLimits_iff (hh : HonestValues env.host strategies value)
    (hactive : ∀ strategy ∈ l.storage.strategy, strategy ∈ strategies)
    (hrange : ThresholdsInRange l.storage) {amount : ℤ} {u : Unit}
    (h : (invest env amount).run l = .ok u t) {target : Address}
    (htarget : l.storage.strategy = some target) :
    WithinLimits t.storage target (value l.chain target+amount)
        (idleAssets l.storage+value l.chain target) ↔
      StaysWithin (value l.chain) l.storage (.invest amount) := by
  obtain ⟨_,strategy,token',held,c₁,total,c₂,c₃,c,-,-,-,hstrategy,-,h₁,h₂,-,-,hle,-,-,hcap,hrisk,
    hbuffer,rfl⟩ := invest_ok h
  obtain rfl : target = strategy := Option.some.inj (htarget.symm.trans hstrategy)
  have hs : target ∈ strategies := hactive target hstrategy
  obtain ⟨hheld,hquery⟩ := hh.reports target hs _ _ _ h₁
  have htotal : total = value l.chain target :=
    (hh.reports target hs _ _ _ h₂).1.trans (hquery hs)
  subst hheld htotal
  have hshare := invest_risk_iff hle (hrange target).2 hrisk
  constructor
  · intro hwithin strategy hmem
    obtain rfl : target = strategy := Option.some.inj (hstrategy.symm.trans hmem)
    exact ⟨hwithin.whitelisted,hshare.mp hwithin.risk⟩
  · intro hstays
    obtain ⟨hlisted,hexact⟩ := hstays target hstrategy
    exact ⟨hlisted,hcap,hshare.mpr hexact,hbuffer⟩

/-- In every reachable state with honest strategies, a successful allocation ends within
the limits exactly if it is one of those that stay within them. -/
theorem allocation_withinLimits_iff {chain : σ} {acts : List (Action host)}
    (hh : HonestValues host strategies value) (hx : ExactRecalls host token)
    (htoken : (runFrom host chain acts).storage.tokenAsset = some token)
    (hactive : ∀ strategy ∈ (runFrom host chain acts).storage.strategy, strategy ∈ strategies)
    {inv : Invocation host.vault} (hnames : ∀ strategy ∈ inv.call.names, strategy ∈ strategies)
    {v : Value} (hv : (dispatch inv.env inv.call).run (runFrom host chain acts) = .ok v t)
    {target : Address}
    (htarget : inv.call.target (runFrom host chain acts).storage.strategy = some target)
    {second : Invocation host.vault} {held total : ℤ} {c : σ} {m : Ledger σ}
    (hheld : host.totalValue target t.chain = some (held,c))
    (htotal : (totalAssets second.env).run t = .ok total m) :
    WithinLimits t.storage target held total ↔
      StaysWithin (value (runFrom host chain acts).chain) (runFrom host chain acts).storage
        inv.call := by
  have hrange := run_thresholdsInRange chain acts
  generalize runFrom host chain acts = l at *
  obtain ⟨timestamp,sequence,auth,unsigned,call⟩ := inv
  have hactive' : ∀ strategy ∈ call.chosen l.storage.strategy, strategy ∈ strategies :=
    chosen_mem hactive hnames
  cases call with
  | invest amount =>
    have hmoved := dispatch_allocated rfl hh hx htoken hactive hnames hv
    rw [← hmoved.strategy] at hactive'
    have hstrategy : l.storage.strategy = some target := htarget
    have hs : target ∈ strategies := hactive target hstrategy
    have hreport : total = idleAssets l.storage+value l.chain target := by
      rw [totalAssets_reported hh hactive' htotal,hmoved.activeValue hactive']
      simp [hstrategy,Call.chosen,Call.idleChange,placed,activeValue]
      ring
    have hvalue : held = value l.chain target+amount := by
      rw [(hh.reports target hs _ _ _ hheld).1,hmoved.values hs]
      simp [hstrategy,placed]
    obtain ⟨_,h,-⟩ := map_eq_ok.mp hv
    rw [hreport,hvalue]
    exact invest_withinLimits_iff hh hactive hrange h hstrategy
  | rebalance fromStrategy toStrategy amount minDivest minInvest =>
    have hmoved := dispatch_allocated rfl hh hx htoken hactive hnames hv
    rw [← hmoved.strategy] at hactive'
    obtain rfl : toStrategy = target := Option.some.inj htarget
    have hs : toStrategy ∈ strategies := hnames toStrategy (by simp [Call.names])
    have hreport := (totalAssets_reported hh hactive' htotal).trans (hmoved.activeValue hactive')
    have hvalue := (hh.reports toStrategy hs _ _ _ hheld).1.trans (hmoved.values hs)
    obtain ⟨_,h,-⟩ := map_eq_ok.mp hv
    obtain ⟨_,_,_,_,_,_,_,_,_,_,-,-,-,-,-,-,-,-,-,-,-,-,-,rfl⟩ := rebalance_ok h
    have hidle : Call.idleChange (.rebalance fromStrategy toStrategy amount minDivest minInvest) =
        0 := rfl
    rw [hreport,hvalue,hidle,add_zero]
    -- the settings and the idle assets are as before
    constructor
    · intro hwithin
      exact ⟨hwithin.whitelisted,hwithin.cap,hwithin.risk,hwithin.buffer⟩
    · rintro ⟨hlisted,hcap,hrisk,hbuffer⟩
      exact ⟨hlisted,hcap,hrisk,hbuffer⟩
  | _ => simp [Call.target] at htarget

end Limits

section Runs

open SimpleHost

theorem honestValues_simpleHost (harvest : ℤ) :
    HonestValues (simpleHost id harvest) {who | Bank.IsSpender who} fun bank => bank.held where
  reports strategy _ c v c' h := by
    simp only [simpleHost] at h
    split_ifs at h
    obtain ⟨rfl,rfl⟩ := Prod.mk.inj (Option.some.inj h)
    exact ⟨rfl,Set.eqOn_refl _ _⟩
  deposit strategy _ amount c c' h other hother := by
    change c.draw strategy amount = some c' at h
    unfold Bank.draw at h
    split_ifs at h
    have hheld := (Bank.move_held h).2.2 other
    rw [if_neg (fun he => hother.ne_vault he.symm),sub_zero] at hheld
    rw [hheld,Pi.add_apply,Pi.single_apply]
  withdraw strategy _ amount c c' h other hother := by
    have hheld := (Bank.move_held (simpleHost_withdraw h).1).2.2 other
    have hne : ¬ other = (⟨0⟩ : Address) := fun he => hother.ne_vault he.symm
    change _ = _ + (if other = (⟨0⟩ : Address) then id amount else 0) at hheld
    rw [if_neg hne,add_zero] at hheld
    rw [hheld,Pi.sub_apply,Pi.single_apply]
    rfl
  approve token spender amount expiration c c' h := by
    change c.approve spender amount = some c' at h
    unfold Bank.approve at h
    split_ifs at h
    rw [← Option.some.inj h]
    exact Set.eqOn_refl _ _

def activeRun : List (Action (simpleHost id 0)) :=
  [signed admin 0 (.initializeVault admin SimpleHost.token),
    signed admin 1 (.setting (.whitelist strategyA true)),
    signed admin 2 (.setting (.strategy strategyA)),
    signed alice 3 (.deposit alice 1000),
    signed admin 4 (.invest 600)]

def byAdmin (call : Call) : Invocation (simpleHost id 0).vault :=
  signedCall admin 5 call

def whileActive : Ledger Bank := runFrom (simpleHost id 0) bank activeRun

def afterActive (call : Call) : Ledger Bank :=
  step (simpleHost id 0) (.invoke (byAdmin call)) whileActive

theorem whileActive_honest : ∀ strategy ∈ whileActive.storage.strategy,
    strategy ∈ {who | Bank.IsSpender who} := by
  intro strategy hstrategy
  have hactive : whileActive.storage.strategy = some strategyA := by rfl
  obtain rfl : strategyA = strategy := Option.some.inj (hactive.symm.trans hstrategy)
  exact Or.inl rfl

/-- A recall keeps the total. -/
theorem activeRun_recall :
    (1000 : ℤ) = 1000 ↔
      KeepsTotal whileActive.chain.held whileActive.storage.strategy (.divest 300) := by
  have hrecall : (dispatch (byAdmin (.divest 300)).env (byAdmin (.divest 300)).call).run
      whileActive = .ok .unit (afterActive (.divest 300)) := by rfl
  have hbefore : (totalAssets (byAdmin .totalAssets).env).run whileActive =
      .ok 1000 whileActive := by rfl
  have hafter : (totalAssets (byAdmin .totalAssets).env).run (afterActive (.divest 300)) =
      .ok 1000 (afterActive (.divest 300)) := by rfl
  exact totalAssets_kept_iff (honestValues_simpleHost 0) (exactRecalls_simpleHost 0) (by rfl)
    whileActive_honest (fun _ h => absurd h List.not_mem_nil) rfl hrecall hbefore hafter

/-- What is moved out of the active strategy is no longer counted. -/
theorem rebalance_lowers_total :
    ¬ ∀ (acts : List (Action (simpleHost id 0))) (inv second : Invocation (simpleHost id 0).vault)
      (v : Value) (t m m' : Ledger Bank) (total total' : ℤ), inv.call.allocates = true →
      (dispatch inv.env inv.call).run (runFrom (simpleHost id 0) bank acts) = .ok v t →
      (totalAssets second.env).run (runFrom (simpleHost id 0) bank acts) = .ok total m →
      (totalAssets second.env).run t = .ok total' m' → total' = total := by
  intro h
  have h1 := h activeRun (byAdmin (.rebalance strategyA strategyB 200 200 200))
    (byAdmin .totalAssets) .unit (afterActive (.rebalance strategyA strategyB 200 200 200)) _ _
    1000 800 rfl (by rfl) (by rfl) (by rfl)
  exact absurd h1 (by decide)

/-- A placement that takes sixty percent stays within limits that were not set. -/
theorem activeRun_withinLimits :
    WithinLimits (afterActive (.invest 100)).storage strategyA 700 1000 ↔
      StaysWithin whileActive.chain.held whileActive.storage (.invest 100) := by
  have hinvest : (dispatch (byAdmin (.invest 100)).env (byAdmin (.invest 100)).call).run
      whileActive = .ok .unit (afterActive (.invest 100)) := by rfl
  have hheld : (simpleHost id 0).totalValue strategyA (afterActive (.invest 100)).chain =
      some (700,(afterActive (.invest 100)).chain) := by rfl
  have htotal : (totalAssets (byAdmin .totalAssets).env).run (afterActive (.invest 100)) =
      .ok 1000 (afterActive (.invest 100)) := by rfl
  exact allocation_withinLimits_iff (honestValues_simpleHost 0) (exactRecalls_simpleHost 0)
    (by rfl) whileActive_honest (fun _ h => absurd h List.not_mem_nil) hinvest (by rfl) hheld htotal

/-- A rebalancing may place funds with a strategy that is not on the whitelist. -/
theorem rebalance_exceeds_limits :
    ¬ ∀ (acts : List (Action (simpleHost id 0))) (inv second : Invocation (simpleHost id 0).vault)
      (v : Value) (t m : Ledger Bank) (target : Address) (held total : ℤ) (c : Bank),
      (dispatch inv.env inv.call).run (runFrom (simpleHost id 0) bank acts) = .ok v t →
      inv.call.target (runFrom (simpleHost id 0) bank acts).storage.strategy = some target →
      (simpleHost id 0).totalValue target t.chain = some (held,c) →
      (totalAssets second.env).run t = .ok total m → WithinLimits t.storage target held total := by
  intro h
  have h1 := h activeRun (byAdmin (.rebalance strategyA strategyB 200 200 200))
    (byAdmin .totalAssets) .unit (afterActive (.rebalance strategyA strategyB 200 200 200)) _
    strategyB 200 800 _ (by rfl) rfl (by rfl) (by rfl)
  exact absurd h1.whitelisted (by decide)

end Runs

end YieldVault
