import YieldVault.FundMoves

/-! The office of the contract: the proxy slots with the admin, the nominee and the
storage version, and the code it runs on. Only the first call, upgrades, migrations, the
handshake of the admins and confirmed emergency actions touch the office. -/
namespace YieldVault

open FixedWidth Contract

variable {σ : Type} {env : Env σ} {l t : Ledger σ}

def codeUpdates : List Effect → List BytesN32
  | [] => []
  | .updateWasm hash :: rest => hash :: codeUpdates rest
  | _ :: rest => codeUpdates rest

def office (l : Ledger σ) : ProxyStorage × List BytesN32 := (l.storage.proxy,codeUpdates l.log)

def Call.holdsOffice : Call → Bool
  | .initializeVault _ _ | .upgrade _ | .migrateStorage _ | .proposeAdmin _ | .acceptAdmin
  | .cancelAdminRotation | .confirmEmergencyAction _ _ => true
  | _ => false

section Calls

variable {u : Unit}

theorem codeUpdates_funds {es log : List Effect} (h : ∀ e ∈ es, e.tellsFunds = true) :
    codeUpdates (es ++ log) = codeUpdates log := by
  induction es with
  | nil => rfl
  | cons e es ih =>
    obtain ⟨he,hes⟩ := List.forall_mem_cons.mp h
    cases e with
    | updateWasm hash => exact absurd he Bool.false_ne_true
    | _ => exact ih hes

theorem FundsLogged.codeUpdates (h : FundsLogged l t) :
    YieldVault.codeUpdates t.log = YieldVault.codeUpdates l.log := by
  obtain ⟨es,hlog,hes⟩ := h
  rw [hlog,codeUpdates_funds hes]

theorem MovesFunds.office (h : MovesFunds l t) : office t = office l :=
  Prod.ext (read_offFunds (f := Storage.proxy) (fun _ => rfl) h.storage) h.log.codeUpdates

theorem PaysYield.office {net : ℤ} (h : PaysYield net l t) : office t = office l := by
  have hproxy := read_offFunds (f := Storage.proxy) (fun _ => rfl) h.storage
  exact Prod.ext hproxy h.log.codeUpdates

theorem doWithdraw_office {user : Address} {shares paid r : ℤ} {state : VaultState}
    (h : (doWithdraw env state user shares paid).run l = .ok r t) :
    office t = office l := by
  obtain ⟨token,m,c,-,hcover,-,-,-,rfl⟩ := doWithdraw_ok.mp h
  have hm : office m = office l := (coverShortfall_movesFunds hcover).office
  exact hm

/-- Only a forced upgrade replaces code; it writes nothing. -/
theorem forceUpgrade_ok {proposal : EmergencyProposal} (hkind : proposal.kind = .forceUpgrade)
    (h : (applyEmergency env proposal).run l = .ok u t) :
    ∃ hash c, proposal.wasmHash = some hash ∧
      t = ⟨l.storage,c,.updateWasm hash :: l.log⟩ := by
  simp only [applyEmergency,hkind,expect_bind_eq_ok] at h
  obtain ⟨hash,hhash,h⟩ := h
  obtain ⟨c,-,rfl⟩ := call_eq_ok.mp h
  exact ⟨hash,c,hhash,rfl⟩

theorem applyEmergency_office {proposal : EmergencyProposal} (hkind : proposal.kind ≠ .forceUpgrade)
    (h : (applyEmergency env proposal).run l = .ok u t) : office t = office l := by
  cases hk : proposal.kind with
  | pause =>
    simp [applyEmergency,hk] at h
    rw [← h]
    rfl
  | unpause =>
    simp [applyEmergency,hk] at h
    rw [← h]
    rfl
  | emergencyDivest =>
    simp only [applyEmergency,hk,expect_bind_eq_ok] at h
    obtain ⟨amount,-,h⟩ := h
    exact (divest_movesFunds h).office
  | forceUpgrade => exact absurd hk hkind

theorem applyEmergency_proxy {proposal : EmergencyProposal}
    (h : (applyEmergency env proposal).run l = .ok u t) : t.storage.proxy = l.storage.proxy := by
  by_cases hkind : proposal.kind = .forceUpgrade
  · obtain ⟨hash,c,-,rfl⟩ := forceUpgrade_ok hkind h
    rfl
  · exact congrArg Prod.fst (applyEmergency_office hkind h)

theorem setting_office {setting : Setting} (h : (applySetting env setting).run l = .ok u t) :
    office t = office l := by
  cases setting with
  | perUserCap cap =>
    simp [applySetting,setPerUserCap] at h
    obtain ⟨_,_,_,rfl⟩ := h
    rfl
  | feeBps bps =>
    obtain ⟨_,_,_,_,rfl⟩ := adminSetting_ok.mp h
    split_ifs <;> rfl
  | _ =>
    obtain ⟨_,_,_,_,rfl⟩ := adminSetting_ok.mp h
    rfl

theorem batchDeposit_office {relayer : Address} {entries : List DepositEntry}
    {result : BatchDepositResult} (h : (batchDeposit env relayer entries).run l = .ok result t) :
    office t = office l := by
  obtain ⟨token,batch,m,-,-,-,-,-,hloop,-,rfl⟩ := batchDeposit_ok h
  let P : VaultState → Ledger σ → Prop := fun _ m => office m = office l
  have hP : P batch.state m := by
    refine processEntries_invariant ?_ hloop rfl
    rintro state state' user amount shares m m' hm hentry
    obtain ⟨c,-,-,-,-,-,-,-,-,-,rfl⟩ := processSingleBatchEntry_ok.mp hentry
    exact hm
  exact hP

theorem quiet_office {call : Call} {v : Value} (hk : call.holdsOffice = false)
    (hq : call.isQuiet = true) (h : (dispatch env call).run l = .ok v t) : office t = office l := by
  cases call with
  | setting setting =>
    obtain ⟨_,h,-⟩ := map_eq_ok.mp h
    exact setting_office h
  | createCheckpoint =>
    obtain ⟨_,h,-⟩ := map_eq_ok.mp h
    obtain ⟨_,-,-,-,-,rfl⟩ := createCheckpoint_ok.mp h
    rfl
  | snapshotUserBalance user =>
    obtain ⟨_,h,-⟩ := map_eq_ok.mp h
    obtain ⟨_,-,-,rfl⟩ := snapshotUserBalance_ok.mp h
    rfl
  | createStrategyProposal proposer strategy =>
    obtain ⟨_,h,-⟩ := map_eq_ok.mp h
    obtain ⟨-,-,-,rfl⟩ := createStrategyProposal_ok.mp h
    rfl
  | voteOnProposal voter id support weight =>
    obtain ⟨_,h,-⟩ := map_eq_ok.mp h
    obtain ⟨_,_,-,-,-,-,-,-,rfl⟩ := voteOnProposal_ok.mp h
    rfl
  | executeStrategyProposal id =>
    obtain ⟨_,h,-⟩ := map_eq_ok.mp h
    obtain ⟨_,-,-,-,-,rfl⟩ := executeStrategyProposal_ok.mp h
    rfl
  | addShipment id status =>
    obtain ⟨_,h,-⟩ := map_eq_ok.mp h
    obtain ⟨_,-,-,-,rfl⟩ := addShipment_ok.mp h
    rfl
  | updateShipmentStatus id status =>
    obtain ⟨_,h,-⟩ := map_eq_ok.mp h
    obtain ⟨_,_,-,-,-,h⟩ := updateShipmentStatus_ok.mp h
    split_ifs at h
    · rw [← h]
    · rw [← h]
      rfl
  | _ => first | exact absurd hk.symm Bool.false_ne_true | exact absurd hq Bool.false_ne_true

theorem dispatch_office {call : Call} {v : Value} (hk : call.holdsOffice = false)
    (h : (dispatch env call).run l = .ok v t) : office t = office l := by
  by_cases hq : call.isQuiet = true
  · exact quiet_office hk hq h
  by_cases hf : call.movesFunds = true
  · exact (dispatch_movesFunds hf h).office
  by_cases hy : call.isYield = true
  · obtain ⟨net,hyields⟩ := dispatch_yields hy h
    exact hyields.office
  cases call with
  | pause reason =>
    obtain ⟨_,h,-⟩ := map_eq_ok.mp h
    obtain ⟨_,-,-,rfl⟩ := pause_ok.mp h
    rfl
  | unpause =>
    obtain ⟨_,h,-⟩ := map_eq_ok.mp h
    obtain ⟨_,-,-,rfl⟩ := unpause_ok.mp h
    rfl
  | proposeEmergencyAction initiator kind code amount hash =>
    obtain ⟨_,h,-⟩ := map_eq_ok.mp h
    obtain ⟨-,-,-,-,rfl⟩ := proposeEmergencyAction_ok.mp h
    rfl
  | deposit user amount =>
    obtain ⟨_,h,-⟩ := map_eq_ok.mp h
    obtain ⟨token,c,-,-,-,-,-,-,-,-,-,-,rfl⟩ := deposit_ok.mp h
    rfl
  | batchDeposit relayer entries =>
    obtain ⟨_,h,-⟩ := map_eq_ok.mp h
    exact batchDeposit_office h
  | withdraw user shares =>
    obtain ⟨_,h,-⟩ := map_eq_ok.mp h
    obtain ⟨_,_,-,-,-,-,-,⟨-,h⟩ | ⟨-,-,-,rfl⟩⟩ := withdraw_ok.mp h
    · exact doWithdraw_office h
    · rfl
  | executeWithdrawal user =>
    obtain ⟨_,h,-⟩ := map_eq_ok.mp h
    obtain ⟨pending,_,-,-,-,-,h⟩ := executeWithdrawal_ok.mp h
    have hpaid := doWithdraw_office h
    exact hpaid
  | _ => first | exact absurd hk.symm Bool.false_ne_true | exact absurd rfl hq |
      exact absurd rfl hf | exact absurd rfl hy

end Calls

end YieldVault
