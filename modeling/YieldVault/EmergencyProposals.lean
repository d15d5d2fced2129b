import YieldVault.StorageParts

/-! The life of an emergency proposal. The primary approver makes it, a confirmation
by the secondary approver settles it, and no other call touches it. -/
namespace YieldVault

open FixedWidth Contract

variable {σ : Type} {host : Host σ} {env : Env σ} {chain : σ} {l t : Ledger σ}

/-- The call that makes a proposal; a confirmation does not change it. -/
def EmergencyProposal.request (p : EmergencyProposal) : Call :=
  .proposeEmergencyAction p.initiator p.kind p.pauseReasonCode p.divestAmount p.wasmHash

def EmergencyProposal.settled (p : EmergencyProposal) : EmergencyProposal :=
  { p with confirmed := true, executed := true }

inductive ProposalStep (env : Env σ) (call : Call) (s s' : Storage) : Prop
  | kept (proposals : s'.emergencyProposal = s.emergencyProposal)
      (nonce : s'.emergencyProposalNonce = s.emergencyProposalNonce)
  | confirmed (confirmer : Address) (id : ℕ) (p : EmergencyProposal)
      (confirms : call = .confirmEmergencyAction confirmer id)
      (confirmable : Confirmable env s confirmer id p)
      (proposals : s'.emergencyProposal = Function.update s.emergencyProposal id (some p.settled))
      (nonce : s'.emergencyProposalNonce = s.emergencyProposalNonce)
  | proposed (id : ℕ) (p : EmergencyProposal) (requests : call = p.request)
      (signed : env.auth p.initiator = true)
      (primary : s.emergencyApproverPrimary = some p.initiator)
      (fresh : p.confirmed = false ∧ p.executed = false)
      (next : id = s.emergencyProposalNonce.getD 0+1)
      (proposals : s'.emergencyProposal = Function.update s.emergencyProposal id (some p))
      (nonce : s'.emergencyProposalNonce = some id)

/-- The two slots that only the emergency calls write. -/
def emergencySlots (s : Storage) : (ℕ → Option EmergencyProposal) × Option ℕ :=
  (s.emergencyProposal,s.emergencyProposalNonce)

theorem ProposalStep.of_slots {call : Call} {s s' : Storage}
    (h : emergencySlots s' = emergencySlots s) : ProposalStep env call s s' :=
  .kept (congrArg Prod.fst h) (congrArg Prod.snd h)

theorem emergencySlots_of_part {s s' : Storage} (h : part .emergency s' = part .emergency s) :
    emergencySlots s' = emergencySlots s := read_of_part (fun _ => rfl) h

theorem dispatch_proposals {call : Call} {v : Value} (h : (dispatch env call).run l = .ok v t) :
    ProposalStep env call l.storage t.storage := by
  by_cases hw : Part.emergency ∈ call.writes
  · cases call with
    | proposeEmergencyAction initiator kind code amount hash =>
      obtain ⟨_,h,-⟩ := map_eq_ok.mp h
      obtain ⟨hauth,hprimary,-,rfl,rfl⟩ := proposeEmergencyAction_ok.mp h
      exact .proposed _ ⟨kind,code,amount,hash,initiator,false,false⟩ rfl hauth hprimary ⟨rfl,rfl⟩
        rfl rfl rfl
    | confirmEmergencyAction confirmer id =>
      obtain ⟨_,h,-⟩ := map_eq_ok.mp h
      obtain ⟨p,m,hconf,happly,rfl⟩ := confirmEmergencyAction_ok h
      have hm := emergencySlots_of_part (applyEmergency_part (k := .emergency) (by decide) happly)
      have h1 : m.storage.emergencyProposal = _ := congrArg Prod.fst hm
      refine .confirmed confirmer id p rfl hconf ?_ (congrArg Prod.snd hm)
      change Function.update m.storage.emergencyProposal id _ = _
      rw [h1]
      exact Function.update_idem _ _ _
    | setting setting => cases setting <;> simp [Call.writes] at hw
    | _ => simp [Call.writes] at hw
  · exact .of_slots (emergencySlots_of_part (dispatch_part hw h))

/-- The proposal was made in the run by whoever was the primary approver at the time. -/
def Proposed (host : Host σ) (chain : σ) (acts : List (Action host)) (p : EmergencyProposal) : Prop :=
  ∃ before inv after, acts = before ++ .invoke inv :: after ∧ inv.call = p.request ∧
    inv.auth p.initiator = true ∧
    (runFrom host chain before).storage.emergencyApproverPrimary = some p.initiator

theorem Proposed.concat {acts : List (Action host)} {p : EmergencyProposal}
    (h : Proposed host chain acts p) (a : Action host) : Proposed host chain (acts ++ [a]) p := by
  obtain ⟨before,inv,after,rfl,hcall,hauth,hprimary⟩ := h
  exact ⟨before,inv,after ++ [a],by simp,hcall,hauth,hprimary⟩

theorem stored_proposed (acts : List (Action host)) :
    ∀ id p, (runFrom host chain acts).storage.emergencyProposal id = some p →
      Proposed host chain acts p := by
  induction acts using List.reverseRecOn with
  | nil =>
    intro id p hp
    exact absurd hp (by simp [runFrom,genesis])
  | append_singleton acts a ih =>
    have hrun : runFrom host chain (acts ++ [a]) = step host a (runFrom host chain acts) :=
      Runs.run_concat _ _ _ _
    intro id p hp
    rw [hrun] at hp
    cases a with
    | outside c => exact (ih id p hp).concat _
    | invoke inv =>
      change (invoke inv (runFrom host chain acts)).storage.emergencyProposal id = some p at hp
      rcases invoke_cases inv (runFrom host chain acts) with ⟨v,hv⟩ | hsame
      · cases dispatch_proposals hv with
        | kept proposals nonce =>
          rw [proposals] at hp
          exact (ih id p hp).concat _
        | confirmed confirmer id' p' confirms confirmable proposals nonce =>
          rw [proposals] at hp
          by_cases hid : id = id'
          · subst hid
            rw [Function.update_self] at hp
            obtain rfl := Option.some.inj hp
            obtain ⟨before,inv',after,hacts,hcall,hrest⟩ := ih id p' confirmable.stored
            exact Proposed.concat ⟨before,inv',after,hacts,hcall,hrest⟩ _
          · rw [Function.update_of_ne hid] at hp
            exact (ih id p hp).concat _
        | proposed id' p' requests signed primary fresh next proposals nonce =>
          rw [proposals] at hp
          by_cases hid : id = id'
          · subst hid
            rw [Function.update_self] at hp
            obtain rfl := Option.some.inj hp
            exact ⟨acts,inv,[],rfl,requests,signed,primary⟩
          · rw [Function.update_of_ne hid] at hp
            exact (ih id p hp).concat _
      · rw [hsame] at hp
        exact (ih id p hp).concat _

end YieldVault
