import YieldVault.CodeUpgrades
import YieldVault.PauseFlag
import YieldVault.FundAuthority

/-! The effects of emergency actions, seen from outside: the pause is set or lifted, funds
move between the vault and a strategy, the code is replaced. What shows one of them and is no
call with that right of its own is the confirmation of a proposal. -/
namespace YieldVault

open FixedWidth Contract

variable {σ : Type} {host : Host σ} {env : Env σ} {chain : σ} {l t : Ledger σ} {a : Action host}

/-- What a step shows of each kind of emergency action. -/
def Shows (l t : Ledger σ) : EmergencyActionKind → Prop
  | .pause => isPaused t.storage = true ∧
      (isPaused t.storage,t.storage.pauseReason) ≠ (isPaused l.storage,l.storage.pauseReason)
  | .unpause => isPaused t.storage = false ∧
      (isPaused t.storage,t.storage.pauseReason) ≠ (isPaused l.storage,l.storage.pauseReason)
  | .emergencyDivest => strategyFlows t.log ≠ strategyFlows l.log
  | .forceUpgrade => codeUpdates t.log ≠ codeUpdates l.log

/-- The calls that have such an effect in their own right. -/
def Call.ownRight : EmergencyActionKind → Call → Bool
  | .pause, .pause _ => true
  | .unpause, .unpause => true
  | .emergencyDivest, .invest _ | .emergencyDivest, .divest _
  | .emergencyDivest, .rebalance _ _ _ _ _ | .emergencyDivest, .withdraw _ _
  | .emergencyDivest, .executeWithdrawal _ => true
  | .forceUpgrade, .upgrade _ => true
  | _, _ => false

def Confirms (host : Host σ) (kind : EmergencyActionKind) (l : Ledger σ) (a : Action host) : Prop :=
  ∃ id inv confirmer p, a = .invoke inv ∧ p.kind = kind ∧ CarriesOut id l a ∧
    ExecutedBy host confirmer id p inv l (step host a l)

section Steps

theorem CarriesOut.confirms {id : ℕ} {proposal : EmergencyProposal} {kind : EmergencyActionKind}
    (h : CarriesOut id l a) (hp : l.storage.emergencyProposal id = some proposal)
    (hkind : proposal.kind = kind) : Confirms host kind l a := by
  obtain ⟨inv,confirmer,p,ha,hby⟩ := h.by_secondary
  obtain rfl := Option.some.inj (hp.symm.trans hby.confirmable.stored)
  exact ⟨id,inv,confirmer,_,ha,hkind,h,hby⟩

theorem ordered_confirms {inv : Invocation host.vault} {v : Value} {paused : Bool}
    {kind : EmergencyActionKind} (hv : (dispatch inv.env inv.call).run l = .ok v t)
    (horder : pauseOrder l.storage inv.call = some paused) (hkind : kind.pauseOrder = some paused) :
    inv.call.ownRight kind = true ∨ Confirms host kind l (.invoke inv) := by
  cases hcall : inv.call with
  | pause reason =>
    rw [hcall] at horder
    obtain rfl := Option.some.inj horder
    cases kind with
    | pause => exact Or.inl rfl
    | _ => simp [EmergencyActionKind.pauseOrder] at hkind
  | unpause =>
    rw [hcall] at horder
    obtain rfl := Option.some.inj horder
    cases kind with
    | unpause => exact Or.inl rfl
    | _ => simp [EmergencyActionKind.pauseOrder] at hkind
  | confirmEmergencyAction confirmer id =>
    rw [hcall] at horder
    obtain ⟨proposal,hproposal,hpaused⟩ := Option.bind_eq_some_iff.mp horder
    have hsame : proposal.kind = kind := by
      cases hp : proposal.kind <;> cases kind <;> cases paused <;>
        simp [hp,EmergencyActionKind.pauseOrder] at hpaused hkind ⊢
    have hex : CarriesOut id l (.invoke inv : Action host) :=
      ⟨inv,confirmer,v,t,rfl,hcall,hv⟩
    exact Or.inr (hex.confirms hproposal hsame)
  | _ =>
    rw [hcall] at horder
    exact absurd horder.symm (Option.some_ne_none _)

theorem step_shows_pause (hf : Founded l) {kind : EmergencyActionKind} {paused : Bool}
    (hkind : kind.pauseOrder = some paused) (hflag : isPaused (step host a l).storage = paused)
    (hchanged : (isPaused (step host a l).storage,(step host a l).storage.pauseReason) ≠
      (isPaused l.storage,l.storage.pauseReason)) :
    (∃ inv, a = .invoke inv ∧ inv.call.ownRight kind = true) ∨ Confirms host kind l a := by
  rcases step_pause hf a with ⟨inv,v,ordered,rfl,hv,horder,hnow,-⟩ | ⟨hsame,hreason⟩
  · obtain rfl : ordered = paused := hnow.symm.trans hflag
    rcases ordered_confirms hv horder hkind with hown | hconfirms
    · exact Or.inl ⟨inv,rfl,hown⟩
    · exact Or.inr hconfirms
  · exact absurd (Prod.ext hsame hreason) hchanged

theorem reportBenjiYield_flows {strategy : Address} {amount : ℤ} {u : Unit}
    (h : (reportBenjiYield env strategy amount).run l = .ok u t) :
    strategyFlows t.log = strategyFlows l.log := by
  obtain ⟨_,_,c,-,-,-,-,-,-,-,-,-,-,rfl⟩ := reportBenjiYield_ok h
  exact strategyFlows_notices (isNotice_watermarkNotice _ _ _)

theorem step_shows_flows (h : strategyFlows (step host a l).log ≠ strategyFlows l.log) :
    (∃ inv, a = .invoke inv ∧ inv.call.ownRight .emergencyDivest = true) ∨
      Confirms host .emergencyDivest l a := by
  cases a with
  | outside c => exact absurd rfl h
  | invoke inv =>
    rcases invoke_cases inv l with ⟨v,hv⟩ | hsame
    · have hrun : (dispatch inv.env inv.call).run l = .ok v (step host (.invoke inv) l) := hv
      rcases dispatch_entitled hrun with hfunds | hentitled | ⟨amount,hcall,-⟩
      · exact absurd hfunds.flows h
      · cases hentitled with
        | admin manages signed =>
          refine Or.inl ⟨inv,rfl,?_⟩
          revert manages
          cases inv.call <;> simp [Call.managesFunds,Call.ownRight]
        | emergency confirmer id proposal confirms confirmable kind =>
          have hex : CarriesOut id l (.invoke inv : Action host) :=
            ⟨inv,confirmer,v,_,rfl,confirms,hrun⟩
          exact Or.inr (hex.confirms confirmable.stored kind)
        | benji strategy amount reports signed configured =>
          rw [reports] at hrun
          obtain ⟨_,hrun,-⟩ := map_eq_ok.mp hrun
          exact absurd (reportBenjiYield_flows hrun) h
        | withdrawal user shares withdraws signed shortfall =>
          exact Or.inl ⟨inv,rfl,by rw [withdraws]; rfl⟩
        | execution user executes signed shortfall =>
          exact Or.inl ⟨inv,rfl,by rw [executes]; rfl⟩
      · exact Or.inl ⟨inv,rfl,by rw [hcall]; rfl⟩
    · exact absurd (congrArg (fun m : Ledger σ => strategyFlows m.log) hsame) h

theorem step_shows_code (before : List (Action host)) (a : Action host)
    (h : codeUpdates (step host a (runFrom host chain before)).log ≠
      codeUpdates (runFrom host chain before).log) :
    (∃ inv, a = .invoke inv ∧ inv.call.ownRight .forceUpgrade = true) ∨
      Confirms host .forceUpgrade (runFrom host chain before) a := by
  obtain ⟨hash,-,hadmin | happrovers⟩ := (step_code before a).resolve_left h
  · obtain ⟨inv,A,rfl,hcall,-⟩ := hadmin
    exact Or.inl ⟨inv,rfl,by rw [hcall]; rfl⟩
  · obtain ⟨inv,confirmer,id,p,rfl,hkind,-,-,hby⟩ := happrovers
    rcases invoke_cases inv (runFrom host chain before) with ⟨v,hv⟩ | hsame
    · exact Or.inr ⟨id,inv,confirmer,p,rfl,hkind,⟨inv,confirmer,v,_,rfl,hby.call,hv⟩,hby⟩
    · exact absurd (congrArg (fun m : Ledger σ => codeUpdates m.log) hsame) h

/-- A step that shows an effect is a call with that right, or a confirmation. -/
theorem step_shows (before : List (Action host)) (a : Action host) {kind : EmergencyActionKind}
    (h : Shows (runFrom host chain before) (step host a (runFrom host chain before)) kind) :
    (∃ inv, a = .invoke inv ∧ inv.call.ownRight kind = true) ∨
      Confirms host kind (runFrom host chain before) a := by
  cases kind with
  | pause => exact step_shows_pause (run_founded before) rfl h.1 h.2
  | unpause => exact step_shows_pause (run_founded before) rfl h.1 h.2
  | emergencyDivest => exact step_shows_flows h
  | forceUpgrade => exact step_shows_code before a h

end Steps

section Runs

/-- In every run a stored proposal is confirmed exactly if it is executed, was issued once,
by the primary approver of the moment, and is executed exactly if a confirmation carried its
effect out. There is at most one such confirmation, by the secondary approver of its moment,
who is not the initiator. Whatever fails on the way leaves the proposal open. And a step that
sets or lifts the pause, moves funds between the vault and a strategy or replaces the code is
one of the calls that do so in their own right, or such a confirmation, of a proposal of that
kind. -/
theorem emergency_dual_approval (acts : List (Action host)) :
    (∀ id p, (runFrom host chain acts).storage.emergencyProposal id = some p →
      p.confirmed = p.executed ∧ IssuedOnce host chain id p acts ∧
      (p.executed = true ↔ ∃ before a after, acts = before ++ a :: after ∧
        CarriesOut id (runFrom host chain before) a)) ∧
    (∀ id before a after, acts = before ++ a :: after → CarriesOut id (runFrom host chain before) a →
      (∃ inv confirmer p, a = .invoke inv ∧ IssuedOnce host chain id p before ∧
        ExecutedBy host confirmer id p inv (runFrom host chain before)
          (step host a (runFrom host chain before))) ∧
      ∀ before' b after', acts = before' ++ b :: after' →
        CarriesOut id (runFrom host chain before') b → before' = before ∧ b = a) ∧
    (∀ (inv : Invocation host.vault) confirmer id,
      inv.call = .confirmEmergencyAction confirmer id →
      ¬ CarriesOut id (runFrom host chain acts) (.invoke inv : Action host) →
      step host (.invoke inv) (runFrom host chain acts) = runFrom host chain acts) ∧
    (∀ (inv : Invocation host.vault) confirmer id p,
      inv.call = .confirmEmergencyAction confirmer id →
      (runFrom host chain acts).storage.emergencyProposal id = some p →
      (∀ m, (applyEmergency inv.env p).run (marked id p (runFrom host chain acts)) ≠ .ok () m) →
      ¬ CarriesOut id (runFrom host chain acts) (.invoke inv : Action host)) ∧
    ∀ before a after kind, acts = before ++ a :: after →
      Shows (runFrom host chain before) (step host a (runFrom host chain before)) kind →
        (∃ inv, a = .invoke inv ∧ inv.call.ownRight kind = true) ∨
        ∃ id inv confirmer p, a = .invoke inv ∧ p.kind = kind ∧
          CarriesOut id (runFrom host chain before) a ∧ IssuedOnce host chain id p before ∧
          ExecutedBy host confirmer id p inv (runFrom host chain before)
            (step host a (runFrom host chain before)) := by
  have hnumbered : Numbered (runFrom host chain acts).storage :=
    run_numbered acts
  refine ⟨fun id p hp => ⟨hnumbered.settled id p hp,stored_issuedOnce hp,?_,?_⟩,?_,?_,?_,?_⟩
  · intro hexecuted
    have h0 : ¬ SettledAt id (genesis chain).storage := by
      rintro ⟨q,hq,-⟩
      exact absurd hq (by simp [genesis])
    have hend : SettledAt id (Runs.run (step host) acts (genesis chain)).storage :=
      ⟨p,hp,hexecuted⟩
    obtain ⟨before,a,after,hacts,hbefore,hafter⟩ :=
      Runs.turning_point (fun l : Ledger σ => SettledAt id l.storage) h0 hend
    exact ⟨before,a,after,hacts,carriesOut_of_settledAt hbefore hafter⟩
  · rintro ⟨before,a,after,rfl,hex⟩
    obtain ⟨q,hq,hexecuted⟩ : SettledAt id (runFrom host chain (before ++ a :: after)).storage :=
      Runs.latched (I := fun l => Numbered l.storage) (L := fun l => SettledAt id l.storage)
        step_numbered (fun _ _ _ => CarriesOut.settledAt) step_settledAt (numbered_genesis chain) hex
    obtain rfl := Option.some.inj (hp.symm.trans hq)
    exact hexecuted
  · rintro id before a after rfl hex
    refine ⟨?_,fun before' b after' h hb => carriesOut_once h hex hb⟩
    obtain ⟨inv,confirmer,p,ha,hby⟩ := hex.by_secondary
    exact ⟨inv,confirmer,p,ha,stored_issuedOnce hby.confirmable.stored,hby⟩
  · intro inv confirmer id hcall hno
    rcases invoke_cases inv (runFrom host chain acts) with ⟨v,hv⟩ | hsame
    · exact absurd ⟨inv,confirmer,v,_,rfl,hcall,hv⟩ hno
    · exact hsame
  · intro inv confirmer id p _ hp hfail
    exact failed_effect_not_carriesOut hp hfail
  · rintro before a after kind rfl hshows
    rcases step_shows before a hshows with hown | ⟨id,inv,confirmer,p,ha,hkind,hex,hby⟩
    · exact Or.inl hown
    · exact Or.inr ⟨id,inv,confirmer,p,ha,hkind,hex,stored_issuedOnce hby.confirmable.stored,hby⟩

open SimpleHost

def stopProposed : List (Action (simpleHost id 0)) :=
  [signed admin 0 (.initializeVault admin token),
    signed admin 1 (.setting (.emergencyApprovers alice bob)),
    signed alice 2 (.proposeEmergencyAction alice .pause 1 none none)]

def bobConfirms : Action (simpleHost id 0) := signed bob 3 (.confirmEmergencyAction bob 1)

def stopProposal : EmergencyProposal := ⟨.pause,1,none,none,alice,true,true⟩

theorem stopProposal_approved :
    (stopProposal.confirmed = stopProposal.executed ∧
      IssuedOnce (simpleHost id 0) bank 1 stopProposal (stopProposed ++ [bobConfirms]) ∧
      (stopProposal.executed = true ↔
        ∃ before a after, stopProposed ++ [bobConfirms] = before ++ a :: after ∧
          CarriesOut 1 (runFrom (simpleHost id 0) bank before) a)) ∧
    ∃ n inv confirmer p, bobConfirms = .invoke inv ∧ p.kind = .pause ∧
      CarriesOut n (runFrom (simpleHost id 0) bank stopProposed) bobConfirms ∧
      IssuedOnce (simpleHost id 0) bank n p stopProposed ∧
      ExecutedBy (simpleHost id 0) confirmer n p inv
        (runFrom (simpleHost id 0) bank stopProposed)
        (step (simpleHost id 0) bobConfirms (runFrom (simpleHost id 0) bank stopProposed)) := by
  obtain ⟨hstored,-,-,-,hshown⟩ := @emergency_dual_approval _ (simpleHost id 0)
    bank (stopProposed ++ [bobConfirms])
  refine ⟨hstored 1 stopProposal rfl,?_⟩
  rcases hshown stopProposed bobConfirms [] .pause rfl ⟨rfl,by decide⟩ with ⟨inv,ha,hown⟩ | hby
  · obtain rfl := Action.invoke.inj ha
    exact absurd hown (by decide)
  · exact hby

end Runs

end YieldVault
