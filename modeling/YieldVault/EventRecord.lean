import YieldVault.FundMoves
import YieldVault.Founding
import YieldVault.Projections

/-! What an indexer that sees only the published events can know of the vault. An event
states the new value of what it announces, or by how much it has moved; replayed from
deployment on, the events give these parts of the storage at every reachable ledger. -/
namespace YieldVault

open FixedWidth Contract Projections

variable {σ : Type} {env : Env σ} {l t : Ledger σ}

/-- The parts of the storage that the events account for. -/
structure Observed where
  supply : ℤ
  paused : Bool
  pendingAdmin : Option Address
  feeBps : ℤ
  minDeposit : ℤ
  minLiquidityBuffer : ℤ
  withdrawalCooldown : ℕ
  checkpoint : ℕ
  emergencyProposals : ℕ
  deriving DecidableEq

def observe (s : Storage) : Observed where
  supply := (getState s).totalShares
  paused := (getState s).isPaused
  pendingAdmin := s.proxy.pendingAdmin
  feeBps := feeBps s
  minDeposit := minDeposit s
  minLiquidityBuffer := minLiquidityBuffer s
  withdrawalCooldown := withdrawalCooldown s
  checkpoint := s.checkpointNonce.getD 0
  emergencyProposals := s.emergencyProposalNonce.getD 0

/-- What the execution of an emergency action tells about the pause flag: the dual
approval publishes no event of its own for it. -/
def pausedBy (kind : ℕ) (paused : Bool) : Bool :=
  if kind = EmergencyActionKind.pause.code then true
  else if kind = EmergencyActionKind.unpause.code then false else paused

def applyEvent : Event → Observed → Observed
  | .deposit _ shares, o => { o with supply := o.supply+shares }
  | .withdraw _ _ shares, o => { o with supply := o.supply-shares }
  | .paused _, o => { o with paused := true }
  | .unpaused, o => { o with paused := false }
  | .emergencyExecuted _ kind, o => { o with paused := pausedBy kind o.paused }
  | .emergencyProposed id _, o => { o with emergencyProposals := id }
  | .adminProposed _ _ next, o => { o with pendingAdmin := some next }
  | .adminTransferred _ _, o => { o with pendingAdmin := none }
  | .adminCancelled _ _, o => { o with pendingAdmin := none }
  | .feeChanged _ new, o => { o with feeBps := new }
  | .minDepositChanged _ new, o => { o with minDeposit := new }
  | .liquidityBufferChanged _ new, o => { o with minLiquidityBuffer := new }
  | .withdrawalCooldownChanged _ new, o => { o with withdrawalCooldown := new }
  | .checkpoint id, o => { o with checkpoint := id }
  | _, o => o

def Effect.event? : Effect → Option Event
  | .event e => some e
  | _ => none

def published (l : Ledger σ) : List Event := l.log.filterMap Effect.event?

abbrev Recorded (l t : Ledger σ) : Prop :=
  Follows published (fun l => observe l.storage) applyEvent l t

section Setters

/-! Setters of the funds are not observed. -/

variable (s : Storage) (v : ℤ)

@[simp] theorem observe_offFunds : observe (offFunds s) = observe s := rfl

@[simp] theorem observe_setIdleAssets : observe (setIdleAssets v s) = observe s := rfl

/-- The supply and the flag come from the state record, wherever it is written last. -/
theorem observe_setState (state : VaultState) :
    observe (setState state s) =
      { observe s with supply := state.totalShares, paused := state.isPaused } := rfl

@[simp] theorem observe_setUserDeposit (user : Address) :
    observe (setUserDeposit user v s) = observe s := rfl

@[simp] theorem observe_setShareBalance (user : Address) :
    observe (setShareBalance user v s) = observe s := rfl

@[simp] theorem observe_setStoredTotalShares : observe (setStoredTotalShares v s) = observe s := rfl

@[simp] theorem observe_setLastDepositTime (user : Address) (time : ℕ) :
    observe (setLastDepositTime user time s) = observe s := rfl

@[simp] theorem observe_creditedDeposit (user : Address) (time : ℕ) (amount shares : ℤ) :
    observe (creditedDeposit time user amount shares v s) = observe s := by
  simp [creditedDeposit]

@[simp] theorem observe_setShipment (id : ℕ) (status : ShipmentStatus) :
    observe (setShipment id status s) = observe s := rfl

@[simp] theorem observe_setShipmentList (status : ShipmentStatus) (ids : List ℕ) :
    observe (setShipmentList status ids s) = observe s := rfl

end Setters

/-- Effects on the funds are published, if at all, by events that nothing observed
depends on. -/
theorem published_funds {es : List Effect} (h : ∀ e ∈ es, e.tellsFunds = true) :
    ∀ e ∈ es.filterMap Effect.event?, ∀ o, applyEvent e o = o := by
  intro e he o
  obtain ⟨effect,hmem,heffect⟩ := List.mem_filterMap.mp he
  have htells := h effect hmem
  cases effect with
  | event told =>
    obtain rfl := Option.some.inj heffect
    cases told with
    | feeAccrued _ _ => rfl
    | feesClaimed _ _ => rfl
    | watermarkRaised _ _ _ => rfl
    | _ => exact absurd htells Bool.false_ne_true
  | _ => exact absurd heffect (Option.some_ne_none _).symm

theorem FundsLogged.recorded (h : FundsLogged l t)
    (ho : observe t.storage = observe l.storage) : Recorded l t := by
  obtain ⟨es,hlog,hes⟩ := h
  refine Follows.silent (published_funds hes) ?_ ho
  rw [published,hlog,List.filterMap_append]
  rfl

section Calls

theorem setting_recorded {setting : Setting} {u : Unit}
    (h : (applySetting env setting).run l = .ok u t) : Recorded l t := by
  cases setting with
  | perUserCap cap =>
    simp [applySetting,setPerUserCap] at h
    obtain ⟨_,_,_,rfl⟩ := h
    exact Follows.still rfl rfl
  | feeBps bps =>
    obtain ⟨_,-,-,hok,rfl⟩ := adminSetting_ok.mp h
    refine ⟨[.feeChanged (feeBps l.storage) bps],rfl,?_⟩
    rw [dif_pos (of_decide_eq_true hok)]
    rfl
  | minDeposit amount =>
    obtain ⟨_,-,-,-,rfl⟩ := adminSetting_ok.mp h
    exact ⟨[.minDepositChanged (minDeposit l.storage) amount],rfl,rfl⟩
  | minLiquidityBuffer buffer =>
    obtain ⟨_,-,-,-,rfl⟩ := adminSetting_ok.mp h
    exact ⟨[.liquidityBufferChanged (minLiquidityBuffer l.storage) buffer],rfl,rfl⟩
  | withdrawalCooldown seconds =>
    obtain ⟨_,-,-,-,rfl⟩ := adminSetting_ok.mp h
    exact ⟨[.withdrawalCooldownChanged (withdrawalCooldown l.storage) seconds],rfl,rfl⟩
  | _ =>
    obtain ⟨_,-,-,-,rfl⟩ := adminSetting_ok.mp h
    exact Follows.still rfl rfl

theorem MovesFunds.recorded (h : MovesFunds l t) : Recorded l t :=
  h.log.recorded (read_offFunds observe_offFunds h.storage)

theorem PaysYield.recorded {net : ℤ} (h : PaysYield net l t) : Recorded l t := by
  have hview := read_offFunds observe_offFunds h.storage
  exact h.log.recorded hview

/-- A payout publishes the shares it burns, and burns them from the record that was
loaded before a recall. -/
theorem doWithdraw_recorded {user : Address} {shares paid r : ℤ}
    (h : (doWithdraw env (getState l.storage) user shares paid).run l = .ok r t) :
    Recorded l t := by
  obtain ⟨token,m,c,-,hcover,-,-,-,rfl⟩ := doWithdraw_ok.mp h
  have hcovered := coverShortfall_movesFunds hcover
  have hm : observe m.storage = observe l.storage := read_offFunds observe_offFunds hcovered.storage
  refine hcovered.recorded.trans ⟨[.withdraw user paid shares],rfl,?_⟩
  change { observe m.storage with
    supply := (getState l.storage).totalShares-shares
    paused := (getState l.storage).isPaused } =
      applyEvent (.withdraw user paid shares) (observe m.storage)
  rw [hm]
  rfl

theorem applyEmergency_recorded {proposal : EmergencyProposal} {u : Unit}
    (h : (applyEmergency env proposal).run l = .ok u t) :
    published t = published l ∧ observe t.storage =
      { observe l.storage with
        paused := pausedBy proposal.kind.code (observe l.storage).paused } := by
  cases hkind : proposal.kind with
  | pause =>
    simp [applyEmergency,hkind] at h
    rw [← h]
    exact ⟨rfl,rfl⟩
  | unpause =>
    simp [applyEmergency,hkind] at h
    rw [← h]
    exact ⟨rfl,rfl⟩
  | emergencyDivest =>
    simp only [applyEmergency,hkind,expect_bind_eq_ok] at h
    obtain ⟨amount,-,h⟩ := h
    obtain ⟨_,-,_,-,-,-,rfl⟩ := divest_ok.mp h
    exact ⟨rfl,rfl⟩
  | forceUpgrade =>
    simp only [applyEmergency,hkind,expect_bind_eq_ok] at h
    obtain ⟨hash,-,h⟩ := h
    obtain ⟨c,-,rfl⟩ := call_eq_ok.mp h
    exact ⟨rfl,rfl⟩

theorem runStorageMigration_recorded {target : ℕ} {u : Unit}
    (hs : l.storage.state.isSome = true)
    (h : (runStorageMigration target).run l = .ok u t) : Recorded l t := by
  obtain ⟨-,rfl⟩ := runStorageMigration_ok hs h
  exact ⟨[.migrated (storageVersion l.storage) target],rfl,rfl⟩

/-- The loop of a batch: the record in memory, once written, shows what the entries have
published. -/
theorem batchDeposit_recorded {relayer : Address} {entries : List DepositEntry}
    {result : BatchDepositResult} (h : (batchDeposit env relayer entries).run l = .ok result t) :
    Recorded l t := by
  obtain ⟨token,batch,m,-,-,-,-,-,hloop,-,rfl⟩ := batchDeposit_ok h
  let flushed : VaultState → Ledger σ → Ledger σ :=
    fun state m => { m with storage := setState state m.storage }
  have hP : Recorded l (flushed batch.state m) := by
    refine processEntries_invariant (P := fun state m => Recorded l (flushed state m)) ?_ hloop ?_
    · intro state state' user amount shares m m' hm hentry
      obtain ⟨c,-,-,-,-,-,-,-,-,rfl,rfl⟩ := processSingleBatchEntry_ok.mp hentry
      refine hm.trans ⟨[.deposit amount shares],rfl,?_⟩
      change observe (setState _ _) = _
      rw [observe_setState,observe_creditedDeposit]
      rfl
    · exact Follows.still rfl rfl
  exact hP.trans ⟨[.batchDeposit _ _ _],rfl,rfl⟩

theorem upgrade_recorded {hash : BytesN32} {u : Unit}
    (hs : l.storage.state.isSome = true ∨ l.storage.proxy.admin = none)
    (h : (upgrade env hash).run l = .ok u t) : Recorded l t := by
  obtain ⟨_,hadmin,-,h⟩ := requireAdmin_bind_eq_ok.mp h
  obtain ⟨_,m,hm,h⟩ := bind_eq_ok.mp h
  obtain ⟨c,-,rfl⟩ := call_eq_ok.mp h
  have hsome := hs.resolve_right (by simp [hadmin])
  exact (runStorageMigration_recorded hsome (expectOk_ok hm)).trans (Follows.still rfl rfl)

theorem deposit_recorded {user : Address} {amount shares : ℤ}
    (h : (deposit env user amount).run l = .ok shares t) : Recorded l t := by
  obtain ⟨token,c,-,-,-,-,-,-,-,-,-,-,rfl⟩ := deposit_ok.mp h
  refine ⟨[.deposit amount shares],rfl,?_⟩
  change observe (setState _ _) = _
  rw [observe_setState,observe_creditedDeposit]
  rfl

theorem withdraw_recorded {user : Address} {shares r : ℤ}
    (h : (withdraw env user shares).run l = .ok r t) : Recorded l t := by
  obtain ⟨_,_,-,-,-,-,-,⟨-,h⟩ | ⟨-,-,-,rfl⟩⟩ := withdraw_ok.mp h
  · exact doWithdraw_recorded h
  · exact ⟨[.pendingWithdrawal user shares (env.timestamp+86400)],rfl,rfl⟩

theorem executeWithdrawal_recorded {user : Address} {r : ℤ}
    (h : (executeWithdrawal env user).run l = .ok r t) : Recorded l t := by
  obtain ⟨pending,_,-,-,-,-,h⟩ := executeWithdrawal_ok.mp h
  let m : Ledger σ := { l with storage := setPendingWithdrawal user none l.storage }
  have hm : Recorded l m := Follows.still rfl rfl
  exact hm.trans (doWithdraw_recorded (l := m) h)

theorem quiet_recorded {call : Call} {v : Value} (hq : call.isQuiet = true)
    (h : (dispatch env call).run l = .ok v t) : Recorded l t := by
  cases call with
  | proposeAdmin newAdmin =>
    simp [dispatch,proposeAdmin] at h
    obtain ⟨admin,_,_,rfl,-⟩ := h
    exact ⟨[.adminProposed admin l.storage.proxy.pendingAdmin newAdmin],rfl,rfl⟩
  | acceptAdmin =>
    simp [dispatch,acceptAdmin] at h
    obtain ⟨pending,_,_,previous,_,rfl,-⟩ := h
    exact ⟨[.adminTransferred previous pending],rfl,rfl⟩
  | cancelAdminRotation =>
    simp [dispatch,cancelAdminRotation] at h
    obtain ⟨admin,_,_,rfl,-⟩ := h
    exact ⟨[.adminCancelled admin l.storage.proxy.pendingAdmin],rfl,rfl⟩
  | setting setting =>
    obtain ⟨_,h,-⟩ := map_eq_ok.mp h
    exact setting_recorded h
  | createCheckpoint =>
    obtain ⟨n,h,-⟩ := map_eq_ok.mp h
    obtain ⟨_,-,-,-,-,rfl⟩ := createCheckpoint_ok.mp h
    exact ⟨[.checkpoint n],rfl,rfl⟩
  | snapshotUserBalance user =>
    obtain ⟨_,h,-⟩ := map_eq_ok.mp h
    obtain ⟨_,-,-,rfl⟩ := snapshotUserBalance_ok.mp h
    exact Follows.still rfl rfl
  | createStrategyProposal proposer strategy =>
    obtain ⟨_,h,-⟩ := map_eq_ok.mp h
    obtain ⟨-,-,-,rfl⟩ := createStrategyProposal_ok.mp h
    exact Follows.still rfl rfl
  | voteOnProposal voter id support weight =>
    obtain ⟨_,h,-⟩ := map_eq_ok.mp h
    obtain ⟨_,_,-,-,-,-,-,-,rfl⟩ := voteOnProposal_ok.mp h
    exact Follows.still rfl rfl
  | executeStrategyProposal id =>
    obtain ⟨_,h,-⟩ := map_eq_ok.mp h
    obtain ⟨_,-,-,-,-,rfl⟩ := executeStrategyProposal_ok.mp h
    exact Follows.still rfl rfl
  | addShipment id status =>
    obtain ⟨_,h,-⟩ := map_eq_ok.mp h
    obtain ⟨_,-,-,-,rfl⟩ := addShipment_ok.mp h
    refine Follows.still rfl ?_
    simp [shipmentAdded]
  | updateShipmentStatus id status =>
    obtain ⟨_,h,-⟩ := map_eq_ok.mp h
    obtain ⟨_,_,-,-,-,h⟩ := updateShipmentStatus_ok.mp h
    split_ifs at h
    · rw [← h]
      apply Follows.refl
    · rw [← h]
      refine Follows.still rfl ?_
      simp [shipmentMoved]
  | _ => exact absurd hq Bool.false_ne_true

theorem dispatch_recorded {call : Call} {v : Value}
    (hs : l.storage.state.isSome = true ∨ l.storage.proxy.admin = none)
    (hfresh : isInitialized l.storage = false → getState l.storage = ⟨0,0,false⟩)
    (h : (dispatch env call).run l = .ok v t) : Recorded l t := by
  by_cases hq : call.isQuiet = true
  · exact quiet_recorded hq h
  by_cases hf : call.movesFunds = true
  · exact (dispatch_movesFunds hf h).recorded
  by_cases hy : call.isYield = true
  · obtain ⟨net,hyields⟩ := dispatch_yields hy h
    exact hyields.recorded
  cases call with
  | initializeVault admin token =>
    obtain ⟨_,h,-⟩ := map_eq_ok.mp h
    obtain ⟨hi,rfl⟩ := initializeVault_ok h
    refine Follows.still rfl ?_
    simp only [observe,hfresh hi]
    rfl
  | upgrade hash =>
    obtain ⟨_,h,-⟩ := map_eq_ok.mp h
    exact upgrade_recorded hs h
  | migrateStorage version =>
    obtain ⟨_,h,-⟩ := map_eq_ok.mp h
    obtain ⟨_,hadmin,-,h⟩ := requireAdmin_bind_eq_ok.mp h
    exact runStorageMigration_recorded (hs.resolve_right (by simp [hadmin])) h
  | pause reason =>
    obtain ⟨_,h,-⟩ := map_eq_ok.mp h
    obtain ⟨_,-,-,rfl⟩ := pause_ok.mp h
    exact ⟨[.paused reason.code],rfl,rfl⟩
  | unpause =>
    obtain ⟨_,h,-⟩ := map_eq_ok.mp h
    obtain ⟨_,-,-,rfl⟩ := unpause_ok.mp h
    exact ⟨[.unpaused],rfl,rfl⟩
  | proposeEmergencyAction initiator kind code amount hash =>
    obtain ⟨n,h,-⟩ := map_eq_ok.mp h
    obtain ⟨-,-,-,-,rfl⟩ := proposeEmergencyAction_ok.mp h
    exact ⟨[.emergencyProposed n kind.code],rfl,rfl⟩
  | confirmEmergencyAction confirmer id =>
    obtain ⟨_,h,-⟩ := map_eq_ok.mp h
    obtain ⟨p,m,-,happly,rfl⟩ := confirmEmergencyAction_ok h
    obtain ⟨hlog,hview⟩ := applyEmergency_recorded happly
    exact ⟨[.emergencyExecuted id p.kind.code],congrArg (List.cons _) hlog,hview⟩
  | deposit user amount =>
    obtain ⟨_,h,-⟩ := map_eq_ok.mp h
    exact deposit_recorded h
  | batchDeposit relayer entries =>
    obtain ⟨_,h,-⟩ := map_eq_ok.mp h
    exact batchDeposit_recorded h
  | withdraw user shares =>
    obtain ⟨_,h,-⟩ := map_eq_ok.mp h
    exact withdraw_recorded h
  | executeWithdrawal user =>
    obtain ⟨_,h,-⟩ := map_eq_ok.mp h
    exact executeWithdrawal_recorded h
  | _ => first | exact absurd rfl hq | exact absurd rfl hf | exact absurd rfl hy

end Calls

section Runs

variable {host : Host σ}

theorem Founded.stateOrNoAdmin (hf : Founded l) :
    l.storage.state.isSome = true ∨ l.storage.proxy.admin = none := by
  apply hf.symm.imp Live.state fun hu => hu.blank.admin

theorem Founded.fresh (hf : Founded l) (hi : isInitialized l.storage = false) :
    getState l.storage = ⟨0,0,false⟩ := by
  rcases hf with hu | hl
  · have hstate : l.storage.state = none := congrArg Accounts.state hu.blank.accounts
    rw [getState,hstate]
    rfl
  · exact absurd hl.initialized (by simp [hi])

theorem step_recorded (hf : Founded l) (a : Action host) : Recorded l (step host a l) := by
  cases a with
  | outside c => exact Follows.still rfl rfl
  | invoke inv =>
    rcases invoke_cases inv l with ⟨v,hv⟩ | hsame
    · exact dispatch_recorded hf.stateOrNoAdmin hf.fresh hv
    · change Recorded l (invoke inv l)
      rw [hsame]
      apply Follows.refl

/-- After every run the published events, replayed on an empty record, give the share
supply, the pause flag, the pending admin, the four announced settings and the two
counters as the vault has them. -/
theorem observe_eq_replay (chain : σ) (acts : List (Action host)) :
    observe (runFrom host chain acts).storage =
      replay applyEvent (published (runFrom host chain acts)) (observe {}) := by
  have hstart : Founded (genesis chain) := Or.inl (unfounded_genesis chain)
  have hrun : Recorded (genesis chain) (runFrom host chain acts) :=
    Follows.run (fun _ a h => step_founded h a) (fun _ a h => step_recorded h a) hstart acts
  exact hrun.replayed rfl

end Runs

end YieldVault
