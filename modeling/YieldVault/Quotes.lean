import YieldVault.EventRecord
import YieldVault.SharePrice

/-! The two conversion views and the trades that the vault announces. The pool that shares
are priced with moves only by announced trades, each made at the price of its moment, and
by gains; so what a view has quoted is a bound for every trade that follows, and without
gains everything is traded at par. -/
namespace YieldVault

open FixedWidth Contract

variable {σ : Type} {env : Env σ} {l m t : Ledger σ}

def calculateShares (s : Storage) (assets : ℤ) : Except String ℤ :=
  assetsToShares assets (getState s).totalShares (getState s).totalAssets

def calculateAssets (s : Storage) (shares : ℤ) : Except String ℤ :=
  sharesToAssets shares (getState s).totalShares (getState s).totalAssets

structure Pool where
  shares : ℤ
  assets : ℤ
  deriving DecidableEq

def pool (s : Storage) : Pool := ⟨(getState s).totalShares,(getState s).totalAssets⟩

inductive Move
  | mint (amount shares : ℤ)
  | burn (user : Address) (paid shares : ℤ)
  | gain (net : ℤ)
  deriving DecidableEq

def Move.event? : Move → Option Event
  | .mint amount shares => some (.deposit amount shares)
  | .burn user paid shares => some (.withdraw user paid shares)
  | .gain _ => none

def Move.isGain : Move → Bool
  | .gain _ => true
  | _ => false

/-- A trade of one share for one unit. -/
def Move.AtPar : Move → Prop
  | .mint amount shares => shares = amount
  | .burn _ paid shares => paid = shares
  | .gain _ => True

namespace Pool

def apply : Move → Pool → Pool
  | .mint amount shares, q => ⟨q.shares+shares,q.assets+amount⟩
  | .burn _ paid shares, q => ⟨q.shares-shares,q.assets-paid⟩
  | .gain net, q => ⟨q.shares,q.assets+net⟩

/-- A trade is made at the price of its moment. -/
def Admits (q : Pool) : Move → Prop
  | .mint amount shares => 0 < amount ∧ assetsToShares amount q.shares q.assets = .ok shares
  | .burn _ paid shares => 0 < shares ∧ sharesToAssets shares q.shares q.assets = .ok paid
  | .gain net => 0 ≤ net

end Pool

def Event.isTrade : Event → Bool
  | .deposit _ _ => true
  | .withdraw _ _ _ => true
  | _ => false

/-- The trades announced so far, newest first. -/
def trades (l : Ledger σ) : List Event := (published l).filter Event.isTrade

/-- The ledgers are these moves apart. -/
structure Traded (l t : Ledger σ) (ms : List Move) : Prop where
  priced : Runs.Along Pool.apply Pool.Admits (pool l.storage) ms
  pool : pool t.storage = Runs.run Pool.apply ms (pool l.storage)
  announced : trades t = (ms.filterMap Move.event?).reverse ++ trades l

section Moves

theorem Traded.none (ht : YieldVault.pool t.storage = YieldVault.pool l.storage)
    (ha : trades t = trades l) : Traded l t [] := ⟨trivial,ht,ha⟩

theorem Traded.one {e : Move} (hp : (YieldVault.pool l.storage).Admits e)
    (ht : YieldVault.pool t.storage = (YieldVault.pool l.storage).apply e)
    (ha : trades t = e.event?.toList ++ trades l) : Traded l t [e] := by
  refine ⟨⟨hp,trivial⟩,ht,?_⟩
  rw [ha]
  cases e <;> rfl

theorem Traded.append {ms ns : List Move} (h : Traded l m ms) (h' : Traded m t ns) :
    Traded l t (ms ++ ns) := by
  refine ⟨Runs.along_append.mpr ⟨h.priced,?_⟩,?_,?_⟩
  · rw [← h.pool]
    exact h'.priced
  · rw [h'.pool,h.pool,Runs.run_append]
  · rw [h'.announced,h.announced,List.filterMap_append,List.reverse_append,List.append_assoc]

theorem trades_append {es : List Effect} (hlog : t.log = es ++ l.log)
    (h : ∀ e, .event e ∈ es → e.isTrade = false) : trades t = trades l := by
  simp only [trades,published,hlog,List.filterMap_append,List.filter_append]
  rw [List.filter_eq_nil_iff.mpr,List.nil_append]
  intro e he
  obtain ⟨effect,hmem,heffect⟩ := List.mem_filterMap.mp he
  cases effect with
  | event told =>
    obtain rfl := Option.some.inj heffect
    simp [h told hmem]
  | _ => exact absurd heffect (Option.some_ne_none _).symm

theorem FundsLogged.trades (h : FundsLogged l t) : trades t = YieldVault.trades l := by
  obtain ⟨es,hlog,hes⟩ := h
  refine trades_append hlog fun e he => ?_
  have htells := hes _ he
  cases e with
  | deposit _ _ => exact absurd htells Bool.false_ne_true
  | withdraw _ _ _ => exact absurd htells Bool.false_ne_true
  | _ => rfl

theorem Quiet.trades (h : Quiet env l t) : trades t = YieldVault.trades l := by
  obtain ⟨notices,hlog,hn⟩ := h.log
  refine trades_append hlog fun e he => ?_
  have hnotice := hn _ he
  cases e with
  | deposit _ _ => exact hnotice.elim
  | withdraw _ _ _ => exact hnotice.elim
  | _ => rfl

theorem pool_of_state {s s' : Storage} (h : s'.state = s.state) : pool s' = pool s := by
  rw [pool,pool,getState,getState,h]

end Moves

section Calls

def Move.isMint : Move → Bool
  | .mint _ _ => true
  | _ => false

/-- The moves of one call: any number of mints, or at most one move of another kind. -/
def OneCall (ms : List Move) : Prop := (∀ move ∈ ms, move.isMint = true) ∨ ms.length ≤ 1

def Trades (call : Call) (l t : Ledger σ) : Prop :=
  ∃ ms, Traded l t ms ∧ OneCall ms ∧ (call.isYield = false → ∀ move ∈ ms, move.isGain = false)

variable {call : Call}

theorem Trades.none (ht : pool t.storage = pool l.storage) (ha : trades t = trades l) :
    Trades call l t :=
  ⟨[],Traded.none ht ha,Or.inr (Nat.zero_le 1),fun _ _ he => absurd he List.not_mem_nil⟩

theorem Trades.one {move : Move} (h : Traded l t [move])
    (hg : call.isYield = false → move.isGain = false) : Trades call l t := by
  refine ⟨[move],h,Or.inr le_rfl,fun hy other he => ?_⟩
  rw [List.mem_singleton.mp he]
  exact hg hy

theorem doWithdraw_traded {user : Address} {shares paid r : ℤ} (hpos : 0 < shares)
    (hpaid : sharesToAssets shares (getState l.storage).totalShares
      (getState l.storage).totalAssets = .ok paid)
    (h : (doWithdraw env (getState l.storage) user shares paid).run l = .ok r t) :
    Traded l t [.burn user paid shares] := by
  obtain ⟨token,m,c,-,hcover,-,-,-,rfl⟩ := doWithdraw_ok.mp h
  have hm : trades m = trades l := (coverShortfall_movesFunds hcover).log.trades
  refine Traded.one ⟨hpos,hpaid⟩ rfl ?_
  change _ :: trades m = _
  rw [hm]
  rfl

theorem batchDeposit_traded {relayer : Address} {entries : List DepositEntry}
    {result : BatchDepositResult} (h : (batchDeposit env relayer entries).run l = .ok result t) :
    ∃ ms, Traded l t ms ∧ ∀ move ∈ ms, move.isMint = true := by
  obtain ⟨token,batch,m,-,-,-,-,-,hloop,-,rfl⟩ := batchDeposit_ok h
  let P : VaultState → Ledger σ → Prop := fun state m =>
    ∃ ms, Traded l (flushed state m) ms ∧ ∀ move ∈ ms, move.isMint = true
  have h0 : P (getState l.storage) l :=
    ⟨[],Traded.none rfl rfl,fun _ he => absurd he List.not_mem_nil⟩
  have hP : P batch.state m := by
    refine processEntries_invariant (P := P) ?_ hloop h0
    intro state state' user amount shares m m' hm hentry
    obtain ⟨ms,htraded,hmints⟩ := hm
    obtain ⟨c,hpos,-,hshares,-,-,-,-,-,rfl,rfl⟩ := processSingleBatchEntry_ok.mp hentry
    have hone := Traded.one (l := flushed state m) (e := .mint amount shares)
      (t := flushed (mintedState state amount shares) ⟨creditedDeposit env.timestamp user amount
        shares (storedTotalShares m.storage+shares) m.storage,c,.event (.deposit amount shares) ::
          .transfer token user env.host.vault amount :: m.log⟩) ⟨hpos,hshares⟩ rfl rfl
    refine ⟨ms ++ [.mint amount shares],htraded.append hone,?_⟩
    intro move he
    rcases List.mem_append.mp he with he | he
    · exact hmints move he
    · rw [List.mem_singleton.mp he]
      rfl
  obtain ⟨ms,htraded,hmints⟩ := hP
  exact ⟨ms,⟨htraded.priced,htraded.pool,htraded.announced⟩,hmints⟩

theorem applyEmergency_traded {proposal : EmergencyProposal} {u : Unit}
    (h : (applyEmergency env proposal).run l = .ok u t) :
    pool t.storage = pool l.storage ∧ trades t = trades l := by
  cases hkind : proposal.kind with
  | pause =>
    simp [applyEmergency,hkind] at h
    rw [← h]
    exact ⟨rfl,rfl⟩
  | unpause =>
    simp [applyEmergency,hkind] at h
    rw [← h]
    exact ⟨rfl,rfl⟩
  | emergencyDivest =>
    simp only [applyEmergency,hkind,expect_bind_eq_ok] at h
    obtain ⟨amount,-,h⟩ := h
    obtain ⟨_,-,_,-,-,-,rfl⟩ := divest_ok.mp h
    exact ⟨rfl,rfl⟩
  | forceUpgrade =>
    simp only [applyEmergency,hkind,expect_bind_eq_ok] at h
    obtain ⟨hash,-,h⟩ := h
    obtain ⟨c,-,rfl⟩ := call_eq_ok.mp h
    exact ⟨rfl,rfl⟩

theorem runStorageMigration_traded {target : ℕ} {u : Unit}
    (hs : l.storage.state.isSome = true)
    (h : (runStorageMigration target).run l = .ok u t) :
    pool t.storage = pool l.storage ∧ trades t = trades l := by
  obtain ⟨-,rfl⟩ := runStorageMigration_ok hs h
  exact ⟨rfl,rfl⟩

theorem Quiet.noTrades (h : Quiet env l t) : Trades call l t :=
  Trades.none (pool_of_state (congrArg Accounts.state h.accounts)) h.trades

theorem MovesFunds.noTrades (h : MovesFunds l t) : Trades call l t :=
  Trades.none (read_offFunds (f := pool) (fun _ => rfl) h.storage) h.log.trades

theorem PaysYield.traded {net : ℤ} (hy : call.isYield = true) (h : PaysYield net l t) :
    Trades call l t := by
  have hpool := read_offFunds (f := pool) (fun _ => rfl) h.storage
  exact Trades.one (Traded.one (e := .gain net) h.nonneg hpool h.log.trades) fun hn =>
    absurd (hn.symm.trans hy) Bool.false_ne_true

theorem upgrade_trades {hash : BytesN32} {u : Unit}
    (hs : l.storage.state.isSome = true ∨ l.storage.proxy.admin = none)
    (h : (upgrade env hash).run l = .ok u t) : Trades call l t := by
  obtain ⟨_,hadmin,-,h⟩ := requireAdmin_bind_eq_ok.mp h
  obtain ⟨_,m,hm,h⟩ := bind_eq_ok.mp h
  obtain ⟨c,-,rfl⟩ := call_eq_ok.mp h
  have hsome := hs.resolve_right (by simp [hadmin])
  have hmig := runStorageMigration_traded hsome (expectOk_ok hm)
  exact Trades.none hmig.1 hmig.2

theorem deposit_trades {user : Address} {amount shares : ℤ}
    (h : (deposit env user amount).run l = .ok shares t) : Trades (.deposit user amount) l t := by
  obtain ⟨token,c,-,-,hpos,-,-,hshares,-,-,-,-,rfl⟩ := deposit_ok.mp h
  have hone := Traded.one (l := l) (e := .mint amount shares) (t := ⟨setState
    (mintedState (getState l.storage) amount shares) (creditedDeposit env.timestamp user amount
      shares ((getState l.storage).totalShares+shares) l.storage),c,.event (.deposit amount shares)
        :: .transfer token user env.host.vault amount :: l.log⟩) ⟨hpos,hshares⟩ rfl rfl
  exact Trades.one hone fun _ => rfl

theorem batchDeposit_trades {relayer : Address} {entries : List DepositEntry}
    {result : BatchDepositResult} (h : (batchDeposit env relayer entries).run l = .ok result t) :
    Trades (.batchDeposit relayer entries) l t := by
  obtain ⟨ms,htraded,hmints⟩ := batchDeposit_traded h
  refine ⟨ms,htraded,Or.inl hmints,fun _ move he => ?_⟩
  have hmint := hmints move he
  cases move with
  | gain net => exact absurd hmint Bool.false_ne_true
  | _ => rfl

theorem withdraw_trades {user : Address} {shares r : ℤ}
    (h : (withdraw env user shares).run l = .ok r t) : Trades (.withdraw user shares) l t := by
  obtain ⟨hpos,paid,-,-,-,-,hpaid,⟨-,h⟩ | ⟨-,-,-,rfl⟩⟩ := withdraw_ok.mp h
  · exact Trades.one (doWithdraw_traded hpos hpaid h) fun _ => rfl
  · exact Trades.none rfl rfl

theorem executeWithdrawal_trades {user : Address} {r : ℤ}
    (h : (executeWithdrawal env user).run l = .ok r t) : Trades (.executeWithdrawal user) l t := by
  obtain ⟨pending,paid,-,-,-,hpaid,h⟩ := executeWithdrawal_ok.mp h
  let m : Ledger σ := { l with storage := setPendingWithdrawal user none l.storage }
  have hburn : Traded m t [.burn user paid pending.shares] :=
    doWithdraw_traded (l := m) pending.shares_pos hpaid h
  exact Trades.one ⟨hburn.priced,hburn.pool,hburn.announced⟩ fun _ => rfl

/-- Every successful call trades at the price of the moment and announces its trades. -/
theorem dispatch_trades {v : Value}
    (hs : l.storage.state.isSome = true ∨ l.storage.proxy.admin = none)
    (hfresh : isInitialized l.storage = false → getState l.storage = ⟨0,0,false⟩)
    (h : (dispatch env call).run l = .ok v t) : Trades call l t := by
  by_cases hq : call.isQuiet = true
  · exact (dispatch_quiet hq h).noTrades
  by_cases hf : call.movesFunds = true
  · exact (dispatch_movesFunds hf h).noTrades
  by_cases hy : call.isYield = true
  · obtain ⟨net,hyields⟩ := dispatch_yields hy h
    exact hyields.traded hy
  cases call with
  | initializeVault admin token =>
    obtain ⟨_,h,-⟩ := map_eq_ok.mp h
    obtain ⟨hi,rfl⟩ := initializeVault_ok h
    refine Trades.none ?_ rfl
    simp only [pool,hfresh hi]
    rfl
  | upgrade hash =>
    obtain ⟨_,h,-⟩ := map_eq_ok.mp h
    exact upgrade_trades hs h
  | migrateStorage version =>
    obtain ⟨_,h,-⟩ := map_eq_ok.mp h
    obtain ⟨_,hadmin,-,h⟩ := requireAdmin_bind_eq_ok.mp h
    have hmig := runStorageMigration_traded (hs.resolve_right (by simp [hadmin])) h
    exact Trades.none hmig.1 hmig.2
  | pause reason =>
    obtain ⟨_,h,-⟩ := map_eq_ok.mp h
    obtain ⟨_,-,-,rfl⟩ := pause_ok.mp h
    exact Trades.none rfl rfl
  | unpause =>
    obtain ⟨_,h,-⟩ := map_eq_ok.mp h
    obtain ⟨_,-,-,rfl⟩ := unpause_ok.mp h
    exact Trades.none rfl rfl
  | proposeEmergencyAction initiator kind code amount hash =>
    obtain ⟨n,h,-⟩ := map_eq_ok.mp h
    obtain ⟨-,-,-,-,rfl⟩ := proposeEmergencyAction_ok.mp h
    exact Trades.none rfl rfl
  | confirmEmergencyAction confirmer id =>
    obtain ⟨_,h,-⟩ := map_eq_ok.mp h
    obtain ⟨p,m,-,happly,rfl⟩ := confirmEmergencyAction_ok h
    have hem := applyEmergency_traded happly
    exact Trades.none hem.1 hem.2
  | deposit user amount =>
    obtain ⟨_,h,-⟩ := map_eq_ok.mp h
    exact deposit_trades h
  | batchDeposit relayer entries =>
    obtain ⟨_,h,-⟩ := map_eq_ok.mp h
    exact batchDeposit_trades h
  | withdraw user shares =>
    obtain ⟨_,h,-⟩ := map_eq_ok.mp h
    exact withdraw_trades h
  | executeWithdrawal user =>
    obtain ⟨_,h,-⟩ := map_eq_ok.mp h
    exact executeWithdrawal_trades h
  | _ => first | exact absurd rfl hq | exact absurd rfl hf | exact absurd rfl hy

end Calls

namespace Pool

variable {q r : Pool} {move : Move} {ms : List Move}

section Bounds

def Open (q : Pool) : Prop := 0 < q.shares ∧ 0 < q.assets

/-- What the views quote at `q` bounds the trade: no more is minted, no less is paid. -/
def Binds (q : Pool) : Move → Prop
  | .mint amount shares =>
    ∀ quote, assetsToShares amount q.shares q.assets = .ok quote → shares ≤ quote
  | .burn _ paid shares =>
    ∀ quote, sharesToAssets shares q.shares q.assets = .ok quote → quote ≤ paid
  | .gain _ => True

abbrev PriceLe (q r : Pool) : Prop := ProRata.PriceLe q.assets q.shares r.assets r.shares

theorem assetsToShares_open (hq : q.Open) {amount shares : ℤ} (hpos : 0 < amount)
    (h : assetsToShares amount q.shares q.assets = .ok shares) :
    shares = amount*q.shares / q.assets ∧ 0 ≤ shares ∧ shares*q.assets ≤ amount*q.shares := by
  have hne : ¬ (q.assets = 0 ∨ q.shares = 0) := by
    rintro (h0 | h0)
    · exact hq.2.ne' h0
    · exact hq.1.ne' h0
  rw [assetsToShares_eq_ok,if_neg hne] at h
  have hp := ProRata.tdiv_portion (mul_nonneg hpos.le hq.1.le) hq.2
  rw [h.2.2] at hp
  exact ⟨hp.1,hp.2.1,hp.2.2.1⟩

/-- A trade is bound by every quote that was given at a lower price. -/
theorem binds_of_priceLe (hq : q.Open) (hr : r.Open) (hle : PriceLe q r) (h : r.Admits move) :
    q.Binds move := by
  cases move with
  | mint amount shares =>
    intro quote hquote
    rw [(assetsToShares_open hr h.1 h.2).1,(assetsToShares_open hq h.1 hquote).1]
    refine ProRata.floor_mono h.1.le hr.2 hq.2 ?_
    calc r.shares*q.assets = q.assets*r.shares := mul_comm _ _
      _ ≤ r.assets*q.shares := hle
      _ = q.shares*r.assets := mul_comm _ _
  | burn user paid shares =>
    intro quote hquote
    rw [(sharesToAssets_portion h.1.le hr.1 hr.2.le h.2).1,
      (sharesToAssets_portion h.1.le hq.1 hq.2.le hquote).1]
    exact ProRata.floor_mono h.1.le hq.1 hr.1 hle
  | gain net => trivial

theorem apply_open (hr : r.Open) (h : r.Admits move) (hs : 0 < (r.apply move).shares) :
    (r.apply move).Open ∧ PriceLe r (r.apply move) := by
  cases move with
  | mint amount shares =>
    have hp := assetsToShares_open hr h.1 h.2
    exact ⟨⟨hs,add_pos hr.2 h.1⟩,ProRata.mint_price hp.2.2⟩
  | burn user paid shares =>
    have hp := sharesToAssets_portion h.1.le hr.1 hr.2.le h.2
    have hlt : shares < r.shares := sub_pos.mp hs
    exact ⟨⟨hs,ProRata.burn_assets_pos hr.1 hr.2 hlt hp.2.2⟩,ProRata.burn_price hp.2.2⟩
  | gain net =>
    exact ⟨⟨hr.1,add_pos_of_pos_of_nonneg hr.2 h⟩,ProRata.gain_price h hr.1.le⟩

/-- The price at `r` is at least the price at `q`, if there are shares to have a price. -/
def From (q r : Pool) : Prop := 0 < r.shares → r.Open ∧ PriceLe q r

theorem From.apply (hq : q.Open) (h : From q r) (hs : 0 < r.shares) (ha : r.Admits move) :
    q.Binds move ∧ From q (r.apply move) := by
  obtain ⟨hr,hle⟩ := h hs
  refine ⟨binds_of_priceLe hq hr hle ha,fun hs' => ?_⟩
  have hnext := apply_open hr ha hs'
  exact ⟨hnext.1,hle.trans hq.1.le hs hs'.le hnext.2⟩

/-- The moves of one call are bound one by one. -/
theorem From.oneCall (hq : q.Open) (h : From q r) (hs : 0 < r.shares) (hone : OneCall ms)
    (ha : Runs.Along Pool.apply Pool.Admits r ms) :
    (∀ move ∈ ms, q.Binds move) ∧ From q (Runs.run Pool.apply ms r) := by
  induction ms generalizing r with
  | nil => exact ⟨fun _ he => absurd he List.not_mem_nil,h⟩
  | cons move ms ih =>
    have hfirst := h.apply hq hs ha.1
    rcases hone with hmints | hlen
    · have hs' : 0 < (r.apply move).shares := by
        have hmint := hmints move List.mem_cons_self
        cases move with
        | mint amount shares =>
          have hp := assetsToShares_open (h hs).1 ha.1.1 ha.1.2
          exact add_pos_of_pos_of_nonneg hs hp.2.1
        | _ => exact absurd hmint Bool.false_ne_true
      have hrest := ih hfirst.2 hs' (Or.inl fun m hm => hmints m (List.mem_cons_of_mem _ hm)) ha.2
      exact ⟨List.forall_mem_cons.mpr ⟨hfirst.1,hrest.1⟩,hrest.2⟩
    · obtain rfl : ms = [] := List.eq_nil_of_length_eq_zero (by simpa using hlen)
      exact ⟨fun m hm => List.mem_singleton.mp hm ▸ hfirst.1,hfirst.2⟩

end Bounds

section Par

def AtPar (q : Pool) : Prop := q.assets = q.shares ∧ 0 ≤ q.shares

theorem AtPar.apply (hr : r.AtPar) (h : r.Admits move) (hg : move.isGain = false)
    (hs : 0 ≤ (r.apply move).shares) : move.AtPar ∧ (r.apply move).AtPar := by
  cases move with
  | mint amount shares =>
    have hm : shares = amount := by
      have hshares := assetsToShares_eq_ok.mp h.2
      split_ifs at hshares with h0
      · exact hshares.symm
      · rw [← hshares.2.2,hr.1]
        exact Int.mul_tdiv_cancel amount fun he => h0 (Or.inr he)
    exact ⟨hm,congrArg₂ (·+·) hr.1 hm.symm,hs⟩
  | burn user paid shares =>
    have hpos : 0 < r.shares := lt_of_lt_of_le h.1 (sub_nonneg.mp hs)
    have hpaid := sharesToAssets_eq_ok.mp h.2
    rw [if_neg hpos.ne',hr.1,Int.mul_tdiv_cancel shares hpos.ne'] at hpaid
    have hp : paid = shares := hpaid.2.2.symm
    exact ⟨hp,congrArg₂ (·-·) hr.1 hp,hs⟩
  | gain net => exact absurd hg Bool.true_eq_false_eq_False

theorem AtPar.oneCall (hr : r.AtPar) (hone : OneCall ms)
    (ha : Runs.Along Pool.apply Pool.Admits r ms) (hg : ∀ move ∈ ms, move.isGain = false)
    (hs : 0 ≤ (Runs.run Pool.apply ms r).shares) :
    (∀ move ∈ ms, move.AtPar) ∧ (Runs.run Pool.apply ms r).AtPar := by
  induction ms generalizing r with
  | nil => exact ⟨fun _ he => absurd he List.not_mem_nil,hr⟩
  | cons move ms ih =>
    have hs' : 0 ≤ (r.apply move).shares := by
      rcases hone with hmints | hlen
      · have hmint := hmints move List.mem_cons_self
        cases move with
        | mint amount shares =>
          rcases assetsToShares_portion ha.1.1 hr.2 (hr.1 ▸ hr.2) ha.1.2 with hp | hp
          · exact add_nonneg hr.2 hp.1
          · exact add_nonneg hr.2 (hp.2 ▸ ha.1.1.le)
        | _ => exact absurd hmint Bool.false_ne_true
      · obtain rfl : ms = [] := List.eq_nil_of_length_eq_zero (by simpa using hlen)
        exact hs
    have hfirst := hr.apply ha.1 (hg move List.mem_cons_self) hs'
    have hone' : OneCall ms := hone.imp (fun h m hm => h m (List.mem_cons_of_mem _ hm))
      fun h => (Nat.le_of_succ_le_succ h).trans (Nat.zero_le 1)
    have hrest := ih hfirst.2 hone' ha.2 (fun m hm => hg m (List.mem_cons_of_mem _ hm)) hs
    exact ⟨List.forall_mem_cons.mpr ⟨hfirst.1,hrest.1⟩,hrest.2⟩

end Par

end Pool

section Runs

variable {host : Host σ}

/-- What the views quote at `s` bounds the announced trade. -/
def BindsTrade (s : Storage) : Event → Prop
  | .deposit amount shares => ∀ quote, calculateShares s amount = .ok quote → shares ≤ quote
  | .withdraw _ paid shares => ∀ quote, calculateAssets s shares = .ok quote → quote ≤ paid
  | _ => True

theorem bindsTrade_of_binds {s : Storage} {ms : List Move}
    (h : ∀ move ∈ ms, (pool s).Binds move) :
    ∀ e ∈ (ms.filterMap Move.event?).reverse, BindsTrade s e := by
  intro e he
  obtain ⟨move,hm,hev⟩ := List.mem_filterMap.mp (List.mem_reverse.mp he)
  have hb := h move hm
  cases move with
  | mint amount shares =>
    obtain rfl := Option.some.inj hev
    exact hb
  | burn user paid shares =>
    obtain rfl := Option.some.inj hev
    exact hb
  | gain net => exact absurd hev (Option.some_ne_none e).symm

/-- The trades announced between two ledgers are bound by what was quoted at `s`. -/
def Bound (s : Storage) (l t : Ledger σ) : Prop :=
  ∃ es, trades t = es ++ trades l ∧ ∀ e ∈ es, BindsTrade s e

theorem Bound.refl (s : Storage) (l : Ledger σ) : Bound s l l :=
  ⟨[],rfl,fun _ he => absurd he List.not_mem_nil⟩

theorem Bound.trans {s : Storage} (h : Bound s l m) (h' : Bound s m t) : Bound s l t := by
  obtain ⟨es,hlog,hes⟩ := h
  obtain ⟨fs,hlog',hfs⟩ := h'
  refine ⟨fs ++ es,by rw [hlog',hlog,List.append_assoc],fun e he => ?_⟩
  exact (List.mem_append.mp he).elim (hfs e) (hes e)

theorem step_bound {s : Storage} (hq : (pool s).Open) (hf : Founded l)
    (hfrom : (pool s).From (pool l.storage)) (hs : 0 < (getState l.storage).totalShares)
    (a : Action host) :
    (pool s).From (pool (step host a l).storage) ∧ Bound s l (step host a l) := by
  cases a with
  | outside c => exact ⟨hfrom,Bound.refl s l⟩
  | invoke inv =>
    show (pool s).From (pool (invoke inv l).storage) ∧ Bound s l (invoke inv l)
    rcases invoke_cases inv l with ⟨v,hv⟩ | hsame
    · obtain ⟨ms,htraded,hone,-⟩ := dispatch_trades hf.stateOrNoAdmin hf.fresh hv
      have hb := hfrom.oneCall hq hs hone htraded.priced
      rw [htraded.pool]
      exact ⟨hb.2,_,htraded.announced,bindsTrade_of_binds hb.1⟩
    · rw [hsame]
      exact ⟨hfrom,Bound.refl s l⟩

/-- What the views quote is binding: as long as shares stay outstanding, no later deposit
or batch entry is given more shares than `calculate_shares` quoted for its amount, and no
later withdrawal, deferred or not, is paid less than `calculate_assets` quoted for its
shares, whatever else happens in between. -/
theorem quotes_bind (hl : Reachable host l) (hs : 0 < (getState l.storage).totalShares)
    (ha : 0 < (getState l.storage).totalAssets) {acts : List (Action host)}
    (hacts : Runs.Along (step host) (fun m _ => 0 < (getState m.storage).totalShares) l acts) :
    ∃ es, trades (Runs.run (step host) acts l) = es ++ trades l ∧
      ∀ e ∈ es, BindsTrade l.storage e := by
  have hq : (pool l.storage).Open := ⟨hs,ha⟩
  let I : Ledger σ → Prop := fun m => Founded m ∧ (pool l.storage).From (pool m.storage)
  have hI : I l := ⟨reachable_founded hl,fun _ => ⟨hq,ProRata.PriceLe.refl _ _⟩⟩
  have hstep : ∀ m a, I m → 0 < (getState m.storage).totalShares →
      I (step host a m) ∧ Bound l.storage m (step host a m) := by
    intro m a hm hguard
    have hnext := step_bound hq hm.1 hm.2 hguard a
    exact ⟨⟨step_founded hm.1 a,hnext.1⟩,hnext.2⟩
  exact hacts.relate (fun m _ => Bound.refl l.storage m) (fun _ _ _ h h' => h.trans h') hstep hI

section Example

open SimpleHost

def quotedAt : Ledger Bank := runFrom (simpleHost id 0) bank
  [signed admin 0 (.initializeVault admin token),
    signed alice 1 (.deposit alice 1000),
    signed admin 2 (.accrueYield 500)]

def afterQuote : List (Action (simpleHost id 0)) :=
  [signed bob 3 (.deposit bob 300),
    signed admin 4 (.accrueYield 100),
    signed alice 5 (.withdraw alice 400)]

theorem quotes_bind_afterQuote :
    ∃ es, trades (Runs.run (step (simpleHost id 0)) afterQuote quotedAt) = es ++ trades quotedAt ∧
      ∀ e ∈ es, BindsTrade quotedAt.storage e :=
  quotes_bind ⟨bank,_,rfl⟩ (by decide) (by decide) ⟨by decide,by decide,by decide,trivial⟩

end Example

def Action.isYield : Action host → Bool
  | .invoke inv => inv.call.isYield
  | .outside _ => false

def TradedAtPar : Event → Prop
  | .deposit amount shares => shares = amount
  | .withdraw _ paid shares => paid = shares
  | _ => True

theorem tradedAtPar_of_moves {ms : List Move} (h : ∀ move ∈ ms, move.AtPar) :
    ∀ e ∈ (ms.filterMap Move.event?).reverse, TradedAtPar e := by
  intro e he
  obtain ⟨move,hm,hev⟩ := List.mem_filterMap.mp (List.mem_reverse.mp he)
  have hb := h move hm
  cases move with
  | mint amount shares =>
    obtain rfl := Option.some.inj hev
    exact hb
  | burn user paid shares =>
    obtain rfl := Option.some.inj hev
    exact hb
  | gain net => exact absurd hev (Option.some_ne_none e).symm

/-- The vault has only ever traded one to one, and its books say so. -/
structure Par (l : Ledger σ) : Prop where
  pool : (pool l.storage).AtPar
  trades : ∀ e ∈ trades l, TradedAtPar e

theorem Par.step (hf : Founded l) (hp : Par l) {a : Action host} (hs : KeepsSupply l a)
    (hy : a.isYield = false) : Par (step host a l) := by
  cases a with
  | outside c => exact ⟨hp.pool,hp.trades⟩
  | invoke inv =>
    show Par (invoke inv l)
    change 0 ≤ (YieldVault.pool (invoke inv l).storage).shares at hs
    rcases invoke_cases inv l with ⟨v,hv⟩ | hsame
    · obtain ⟨ms,htraded,hone,hgain⟩ := dispatch_trades hf.stateOrNoAdmin hf.fresh hv
      rw [htraded.pool] at hs
      have hpar := hp.pool.oneCall hone htraded.priced (hgain hy) hs
      refine ⟨htraded.pool ▸ hpar.2,?_⟩
      rw [htraded.announced]
      exact List.forall_mem_append.mpr ⟨tradedAtPar_of_moves hpar.1,hp.trades⟩
    · rw [hsame]
      exact hp

/-- Without yield the vault holds exactly one unit for every share, and every deposit, batch
entry and withdrawal ever announced was made one to one, however funds are moved between
strategies meanwhile: rounding never costs anything. -/
theorem par_without_yield {chain : σ} {acts : List (Action host)}
    (ha : Runs.Along (step host) (fun l a => KeepsSupply l a ∧ a.isYield = false)
      (genesis chain) acts) :
    (getState (runFrom host chain acts).storage).totalAssets =
        (getState (runFrom host chain acts).storage).totalShares ∧
      ∀ e ∈ trades (runFrom host chain acts), TradedAtPar e := by
  have hinv : ∀ (l : Ledger σ) a, Founded l ∧ Par l → KeepsSupply l a ∧ a.isYield = false →
      Founded (step host a l) ∧ Par (step host a l) :=
    fun _ a hi hg => ⟨step_founded hi.1 a,hi.2.step hi.1 hg.1 hg.2⟩
  have hstart : Founded (genesis chain) ∧ Par (genesis chain) :=
    ⟨Or.inl (unfounded_genesis chain),⟨rfl,le_rfl⟩,fun _ he => absurd he List.not_mem_nil⟩
  have hend := (ha.invariant hinv hstart).2
  exact ⟨hend.pool.1,hend.trades⟩

section Example

open SimpleHost

/-- Funds go to a strategy and are recalled; no yield is booked. -/
def plainRun : List (Action (simpleHost id 0)) :=
  [signed admin 0 (.initializeVault admin token),
    signed admin 1 (.setting (.whitelist strategyA true)),
    signed admin 2 (.setting (.strategy strategyA)),
    signed alice 3 (.deposit alice 1000),
    signed admin 4 (.invest 600),
    signed bob 5 (.deposit bob 7),
    signed alice 6 (.withdraw alice 500)]

theorem par_without_yield_plainRun :
    (getState (runFrom (simpleHost id 0) bank plainRun).storage).totalAssets =
        (getState (runFrom (simpleHost id 0) bank plainRun).storage).totalShares ∧
      ∀ e ∈ trades (runFrom (simpleHost id 0) bank plainRun), TradedAtPar e :=
  par_without_yield
    ⟨by decide,by decide,by decide,by decide,by decide,by decide,by decide,trivial⟩

end Example

end Runs

end YieldVault
