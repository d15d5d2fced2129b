import YieldVault.EmergencyProposals

/-! Emergency actions take two approvers. Every proposal is issued once by the primary
approver of the moment and executed at most once, by the secondary approver of a later
moment; a confirmation that does not go through leaves the proposal open. -/
namespace YieldVault

open FixedWidth Contract

variable {σ : Type} {host : Host σ} {env : Env σ} {chain : σ} {l t : Ledger σ} {a : Action host}
  {id : ℕ}

def Issues (id : ℕ) (l : Ledger σ) (a : Action host) : Prop :=
  ∃ inv p t, a = .invoke inv ∧ inv.call = EmergencyProposal.request p ∧
    (dispatch inv.env inv.call).run l = .ok (.id id) t

/-- The action confirms the proposal with this id, which carries out its effect. -/
def CarriesOut (id : ℕ) (l : Ledger σ) (a : Action host) : Prop :=
  ∃ inv confirmer v t, a = .invoke inv ∧ inv.call = .confirmEmergencyAction confirmer id ∧
    (dispatch inv.env inv.call).run l = .ok v t

/-- The ledger in which a proposal's effect is carried out. -/
def marked (id : ℕ) (p : EmergencyProposal) (l : Ledger σ) : Ledger σ :=
  { l with storage := setEmergencyProposal id { p with confirmed := true } l.storage }

/-- An execution by the secondary approver, of a proposal that another one made: its effect
is carried out once, and the proposal is settled. -/
structure ExecutedBy (host : Host σ) (confirmer : Address) (id : ℕ) (p : EmergencyProposal)
    (inv : Invocation host.vault) (l t : Ledger σ) : Prop where
  call : inv.call = .confirmEmergencyAction confirmer id
  confirmable : Confirmable inv.env l.storage confirmer id p
  effect : ∃ m, (applyEmergency inv.env p).run (marked id p l) = .ok () m ∧
    t = ⟨setEmergencyProposal id p.settled m.storage,m.chain,
      .event (.emergencyExecuted id p.kind.code) :: m.log⟩

theorem CarriesOut.by_secondary (h : CarriesOut id l a) : ∃ inv confirmer p, a = .invoke inv ∧
    ExecutedBy host confirmer id p inv l (step host a l) := by
  obtain ⟨inv,confirmer,v,t,rfl,hcall,hrun⟩ := h
  have hd := hrun
  rw [hcall] at hd
  obtain ⟨_,hd,-⟩ := map_eq_ok.mp hd
  obtain ⟨p,m,hconf,happly,ht⟩ := confirmEmergencyAction_ok hd
  refine ⟨inv,confirmer,p,rfl,hcall,hconf,m,happly,?_⟩
  rw [step_of_ok hrun]
  exact ht

theorem ExecutedBy.stored {confirmer : Address} {p : EmergencyProposal}
    {inv : Invocation host.vault} (h : ExecutedBy host confirmer id p inv l t) :
    t.storage.emergencyProposal id = some p.settled := by
  obtain ⟨m,-,rfl⟩ := h.effect
  exact Function.update_self _ _ _

/-- The next id is above every id in use, and a stored proposal is confirmed and
executed, or neither. -/
structure Numbered (s : Storage) : Prop where
  issued : ∀ id p, s.emergencyProposal id = some p → id ≤ s.emergencyProposalNonce.getD 0
  settled : ∀ id p, s.emergencyProposal id = some p → p.confirmed = p.executed

def SettledAt (id : ℕ) (s : Storage) : Prop :=
  ∃ p, s.emergencyProposal id = some p ∧ p.executed = true

section Steps

theorem ProposalStep.numbered {call : Call} {s s' : Storage} (h : ProposalStep env call s s')
    (hn : Numbered s) : Numbered s' := by
  cases h with
  | kept proposals nonce =>
    refine ⟨fun id p hp => ?_,fun id p hp => ?_⟩
    · rw [proposals] at hp
      rw [nonce]
      exact hn.issued id p hp
    · rw [proposals] at hp
      exact hn.settled id p hp
  | confirmed confirmer id' p' confirms confirmable proposals nonce =>
    refine ⟨fun id p hp => ?_,fun id p hp => ?_⟩
    · rw [nonce]
      rw [proposals] at hp
      by_cases hid : id = id'
      · subst hid
        exact hn.issued id p' confirmable.stored
      · rw [Function.update_of_ne hid] at hp
        exact hn.issued id p hp
    · rw [proposals] at hp
      by_cases hid : id = id'
      · subst hid
        rw [Function.update_self] at hp
        obtain rfl := Option.some.inj hp
        rfl
      · rw [Function.update_of_ne hid] at hp
        exact hn.settled id p hp
  | proposed id' p' requests signed primary fresh next proposals nonce =>
    refine ⟨fun id p hp => ?_,fun id p hp => ?_⟩
    · rw [nonce,Option.getD_some]
      rw [proposals] at hp
      by_cases hid : id = id'
      · exact hid.le
      · rw [Function.update_of_ne hid] at hp
        have h1 := hn.issued id p hp
        omega
    · rw [proposals] at hp
      by_cases hid : id = id'
      · subst hid
        rw [Function.update_self] at hp
        obtain rfl := Option.some.inj hp
        rw [fresh.1,fresh.2]
      · rw [Function.update_of_ne hid] at hp
        exact hn.settled id p hp

theorem ProposalStep.nonce_le {call : Call} {s s' : Storage} (h : ProposalStep env call s s') :
    s.emergencyProposalNonce.getD 0 ≤ s'.emergencyProposalNonce.getD 0 := by
  cases h with
  | kept proposals nonce => rw [nonce]
  | confirmed confirmer id' p' confirms confirmable proposals nonce => rw [nonce]
  | proposed id' p' requests signed primary fresh next proposals nonce =>
    rw [nonce,Option.getD_some,next]
    exact Nat.le_succ _

theorem ProposalStep.settledAt {call : Call} {s s' : Storage} (h : ProposalStep env call s s')
    (hn : Numbered s) (hs : SettledAt id s) : SettledAt id s' := by
  obtain ⟨p,hp,hexecuted⟩ := hs
  refine ⟨p,?_,hexecuted⟩
  cases h with
  | kept proposals nonce => rw [proposals,hp]
  | confirmed confirmer id' p' confirms confirmable proposals nonce =>
    have hid : id ≠ id' := by
      rintro rfl
      obtain rfl := Option.some.inj (hp.symm.trans confirmable.stored)
      exact absurd (hexecuted.symm.trans confirmable.pending.1) Bool.noConfusion
    rw [proposals,Function.update_of_ne hid,hp]
  | proposed id' p' requests signed primary fresh next proposals nonce =>
    have hle := hn.issued id p hp
    have hid : id ≠ id' := by omega
    rw [proposals,Function.update_of_ne hid,hp]

theorem step_numbered (l : Ledger σ) (a : Action host) (h : Numbered l.storage) :
    Numbered (step host a l).storage :=
  step_storage (fun _ _ _ _ hrun hn => (dispatch_proposals hrun).numbered hn) l a h

theorem step_settledAt (l : Ledger σ) (a : Action host) (hn : Numbered l.storage)
    (h : SettledAt id l.storage) : SettledAt id (step host a l).storage := by
  have hkeep : ∀ (inv : Invocation host.vault) (l t : Ledger σ) (v : Value),
      (dispatch inv.env inv.call).run l = .ok v t →
      Numbered l.storage ∧ SettledAt id l.storage → Numbered t.storage ∧ SettledAt id t.storage :=
    fun _ _ _ _ hrun hboth =>
      ⟨(dispatch_proposals hrun).numbered hboth.1,(dispatch_proposals hrun).settledAt hboth.1 hboth.2⟩
  exact (step_storage (P := fun s => Numbered s ∧ SettledAt id s) hkeep l a ⟨hn,h⟩).2

theorem numbered_genesis (chain : σ) : Numbered (genesis chain).storage :=
  ⟨fun _ _ h => absurd h (by simp [genesis]),fun _ _ h => absurd h (by simp [genesis])⟩

theorem CarriesOut.settledAt (h : CarriesOut id l a) : SettledAt id (step host a l).storage := by
  obtain ⟨inv,confirmer,p,rfl,hby⟩ := h.by_secondary
  exact ⟨p.settled,hby.stored,rfl⟩

theorem SettledAt.not_carriesOut (h : SettledAt id l.storage) : ¬ CarriesOut id l a := by
  intro hex
  obtain ⟨p,hp,hexecuted⟩ := h
  obtain ⟨inv,confirmer,p',rfl,hby⟩ := hex.by_secondary
  obtain rfl := Option.some.inj (hp.symm.trans hby.confirmable.stored)
  exact absurd (hexecuted.symm.trans hby.confirmable.pending.1) Bool.noConfusion

theorem dispatch_request (p : EmergencyProposal) : dispatch env p.request =
    .id <$> proposeEmergencyAction env p.initiator p.kind p.pauseReasonCode p.divestAmount
      p.wasmHash := rfl

/-- An issue writes an open proposal under the next id. -/
theorem Issues.spec (h : Issues id l a) : ∃ inv p, a = .invoke inv ∧
    inv.call = EmergencyProposal.request p ∧ inv.auth p.initiator = true ∧
    l.storage.emergencyApproverPrimary = some p.initiator ∧
    id = l.storage.emergencyProposalNonce.getD 0+1 ∧
    (step host a l).storage.emergencyProposalNonce = some id ∧
    (step host a l).storage.emergencyProposal id =
      some { p with confirmed := false, executed := false } := by
  obtain ⟨inv,p,t,rfl,hcall,hrun⟩ := h
  have hd := hrun
  rw [hcall,dispatch_request] at hd
  obtain ⟨n,hpropose,hn⟩ := map_eq_ok.mp hd
  obtain rfl : n = id := Value.id.inj hn
  obtain ⟨hauth,hprimary,-,hid,ht⟩ := proposeEmergencyAction_ok.mp hpropose
  rw [step_of_ok hrun,← ht]
  exact ⟨inv,p,rfl,hcall,hauth,hprimary,hid.symm,rfl,Function.update_self _ _ _⟩

/-- The request behind a stored proposal changes only where the proposal is issued. -/
theorem request_kept (h : ¬ Issues id l a) :
    ((step host a l).storage.emergencyProposal id).map EmergencyProposal.request =
      (l.storage.emergencyProposal id).map EmergencyProposal.request := by
  cases a with
  | outside c => rfl
  | invoke inv =>
    rcases invoke_cases inv l with ⟨v,hv⟩ | hsame
    · have hrun : (dispatch inv.env inv.call).run l = .ok v (step host (.invoke inv) l) := hv
      cases dispatch_proposals hrun with
      | kept proposals nonce => rw [proposals]
      | confirmed confirmer id' p confirms confirmable proposals nonce =>
        rw [proposals]
        by_cases hid : id = id'
        · subst hid
          rw [Function.update_self,confirmable.stored]
          rfl
        · rw [Function.update_of_ne hid]
      | proposed id' p requests signed primary fresh next proposals nonce =>
        have hid : id ≠ id' := by
          rintro rfl
          refine h ⟨inv,p,step host (.invoke inv) l,rfl,requests,?_⟩
          have hd := hrun
          rw [requests,dispatch_request] at hd
          obtain ⟨n,hd,hn⟩ := map_eq_ok.mp hd
          obtain ⟨-,-,-,hnext,-⟩ := proposeEmergencyAction_ok.mp hd
          rw [hrun,← hn,← hnext,next]
        rw [proposals,Function.update_of_ne hid]
    · exact congrArg (fun m : Ledger σ =>
        (m.storage.emergencyProposal id).map EmergencyProposal.request) hsame

theorem carriesOut_of_settledAt (h0 : ¬ SettledAt id l.storage)
    (h : SettledAt id (step host a l).storage) : CarriesOut id l a := by
  obtain ⟨p,hp,hexecuted⟩ := h
  cases a with
  | outside c => exact absurd ⟨p,hp,hexecuted⟩ h0
  | invoke inv =>
    rcases invoke_cases inv l with ⟨v,hv⟩ | hsame
    · have hrun : (dispatch inv.env inv.call).run l = .ok v (step host (.invoke inv) l) := hv
      cases dispatch_proposals hrun with
      | kept proposals nonce =>
        rw [proposals] at hp
        exact absurd ⟨p,hp,hexecuted⟩ h0
      | confirmed confirmer id' p' confirms confirmable proposals nonce =>
        rw [proposals] at hp
        by_cases hid : id = id'
        · subst hid
          exact ⟨inv,confirmer,v,_,rfl,confirms,hrun⟩
        · rw [Function.update_of_ne hid] at hp
          exact absurd ⟨p,hp,hexecuted⟩ h0
      | proposed id' p' requests signed primary fresh next proposals nonce =>
        rw [proposals] at hp
        by_cases hid : id = id'
        · subst hid
          rw [Function.update_self] at hp
          obtain rfl := Option.some.inj hp
          exact absurd (fresh.2.symm.trans hexecuted) Bool.noConfusion
        · rw [Function.update_of_ne hid] at hp
          exact absurd ⟨p,hp,hexecuted⟩ h0
    · change (invoke inv l).storage.emergencyProposal id = some p at hp
      rw [hsame] at hp
      exact absurd ⟨p,hp,hexecuted⟩ h0

end Steps

section Runs

variable {before after before' after' acts : List (Action host)} {b : Action host}

theorem issues_once (h : before ++ a :: after = before' ++ b :: after')
    (ha : Issues id (runFrom host chain before) a) (hb : Issues id (runFrom host chain before') b) :
    before' = before ∧ b = a := by
  have hnonce : ∀ (l : Ledger σ) (a : Action host), True →
      id ≤ l.storage.emergencyProposalNonce.getD 0 →
      id ≤ (step host a l).storage.emergencyProposalNonce.getD 0 :=
    fun l a _ hle => step_storage (P := fun s => id ≤ s.emergencyProposalNonce.getD 0)
      (fun _ _ _ _ hrun hn => hn.trans (dispatch_proposals hrun).nonce_le) l a hle
  have htrip : ∀ (l : Ledger σ) (a : Action host), True → Issues id l a →
      id ≤ (step host a l).storage.emergencyProposalNonce.getD 0 := by
    intro l a _ hissue
    obtain ⟨inv,p,-,-,-,-,-,hstored,-⟩ := hissue.spec
    rw [hstored,Option.getD_some]
  have hblock : ∀ (l : Ledger σ) (a : Action host), True →
      id ≤ l.storage.emergencyProposalNonce.getD 0 → ¬ Issues id l a := by
    intro l a _ hle hissue
    obtain ⟨inv,p,-,-,-,-,hid,-⟩ := hissue.spec
    omega
  exact Runs.at_most_once (fun _ _ _ => trivial) htrip hnonce hblock trivial h ha hb

theorem run_numbered (acts : List (Action host)) : Numbered (runFrom host chain acts).storage := by
  have hstep : ∀ (l : Ledger σ) (a : Action host), Numbered l.storage →
      Numbered (step host a l).storage := step_numbered
  exact Runs.invariant hstep acts (numbered_genesis chain)

theorem carriesOut_once (h : before ++ a :: after = before' ++ b :: after')
    (ha : CarriesOut id (runFrom host chain before) a)
    (hb : CarriesOut id (runFrom host chain before') b) : before' = before ∧ b = a :=
  Runs.at_most_once (I := fun l => Numbered l.storage) (L := fun l => SettledAt id l.storage)
    step_numbered (fun _ _ _ => CarriesOut.settledAt) step_settledAt
    (fun _ _ _ => SettledAt.not_carriesOut) (numbered_genesis chain) h ha hb

/-- In this run the id was issued once, for this proposal, by the primary approver of the
moment. -/
def IssuedOnce (host : Host σ) (chain : σ) (id : ℕ) (p : EmergencyProposal)
    (acts : List (Action host)) : Prop :=
  ∃ before inv after, acts = before ++ .invoke inv :: after ∧
    Issues id (runFrom host chain before) (.invoke inv) ∧ inv.call = p.request ∧
    inv.auth p.initiator = true ∧
    (runFrom host chain before).storage.emergencyApproverPrimary = some p.initiator ∧
    ∀ before' b after', acts = before' ++ b :: after' → Issues id (runFrom host chain before') b →
      before' = before ∧ b = .invoke inv

theorem stored_issuedOnce {p : EmergencyProposal}
    (hp : (runFrom host chain acts).storage.emergencyProposal id = some p) :
    IssuedOnce host chain id p acts := by
  let f : Ledger σ → Option Call := fun l =>
    (l.storage.emergencyProposal id).map EmergencyProposal.request
  have hend : f (runFrom host chain acts) = some p.request := by simp [f,hp]
  have hkeep : ∀ l a, ¬ Issues id l a → f (step host a l) = f l := fun _ _ h => request_kept h
  rcases Runs.last_writer (step host) f hkeep (genesis chain) acts with ⟨-,hsame⟩ | ⟨before,a,after,rfl,hissue,-,hsame⟩
  · exact absurd (hsame.symm.trans hend) (by simp [f,genesis])
  · obtain ⟨inv,q,rfl,hcall,hauth,hprimary,-,-,hstored⟩ := hissue.spec
    have hq : f (step host (.invoke inv) (runFrom host chain before)) = some q.request :=
      congrArg (Option.map EmergencyProposal.request) hstored
    have hrequest : q.request = p.request :=
      Option.some.inj (hq.symm.trans (hsame.symm.trans hend))
    obtain ⟨hinitiator,-⟩ := Call.proposeEmergencyAction.inj hrequest
    rw [hinitiator] at hauth hprimary
    refine ⟨before,inv,after,rfl,hissue,hcall.trans hrequest,hauth,hprimary,?_⟩
    intro before' b after' h hb
    exact issues_once h hissue hb

/-- A confirmation whose effect fails executes nothing. -/
theorem failed_effect_not_carriesOut {p : EmergencyProposal}
    {inv : Invocation host.vault} (hp : l.storage.emergencyProposal id = some p)
    (hfail : ∀ m, (applyEmergency inv.env p).run (marked id p l) ≠ .ok () m) :
    ¬ CarriesOut id l (.invoke inv : Action host) := by
  intro hex
  obtain ⟨inv',confirmer',p',ha,hby⟩ := hex.by_secondary
  obtain rfl := Action.invoke.inj ha
  obtain rfl := Option.some.inj (hp.symm.trans hby.confirmable.stored)
  obtain ⟨m,happly,-⟩ := hby.effect
  exact hfail m happly

end Runs

end YieldVault
