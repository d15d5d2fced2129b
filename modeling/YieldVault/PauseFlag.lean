import YieldVault.PauseGuard
import YieldVault.StorageParts

/-! The pause flag lives in the state record, which most calls load, change and store again.
Only the calls that order it change the flag, and a reason is on record just while it is set. -/
namespace YieldVault

open FixedWidth Contract

variable {σ : Type} {host : Host σ} {env : Env σ} {chain : σ} {l t : Ledger σ}

def EmergencyActionKind.pauseOrder : EmergencyActionKind → Option Bool
  | .pause => some true
  | .unpause => some false
  | _ => none

/-- What a call orders for the flag: the admin's pause and unpause, and the confirmation of an
emergency proposal for one of the two. -/
def pauseOrder (s : Storage) : Call → Option Bool
  | .pause _ => some true
  | .unpause => some false
  | .confirmEmergencyAction _ id => (s.emergencyProposal id).bind fun p => p.kind.pauseOrder
  | _ => none

theorem pauseOrder_confirm {s : Storage} {confirmer : Address} {id : ℕ}
    {proposal : EmergencyProposal} (h : s.emergencyProposal id = some proposal) :
    pauseOrder s (.confirmEmergencyAction confirmer id) = proposal.kind.pauseOrder :=
  congrArg (fun stored => stored.bind fun p => p.kind.pauseOrder) h

def IsSetPaused : Entry → Prop
  | .setPaused _ => True
  | _ => False

theorem paused_postAll {b : Books} {es : List Entry} (h : ∀ e ∈ es, ¬ IsSetPaused e) :
    (Books.postAll es b).paused = b.paused := by
  induction es generalizing b with
  | nil => rfl
  | cons e es ih =>
    have hrest := ih (b := Books.post e b) fun e' he' => h e' (List.mem_cons_of_mem _ he')
    have he := h e List.mem_cons_self
    refine hrest.trans ?_
    cases e with
    | setPaused paused => exact absurd trivial he
    | _ => rfl

theorem unpaused_singleton {e : Entry} (he : ¬ IsSetPaused e) : ∀ e' ∈ [e], ¬ IsSetPaused e' := by
  intro e' he'
  rw [List.mem_singleton.mp he']
  exact he

theorem burnPage_unpaused (idle : ℤ) (user : Address) (shares paid : ℤ) :
    ∀ e ∈ burnPage idle user shares paid, ¬ IsSetPaused e := by
  intro e he
  unfold burnPage shortfall at he
  split_ifs at he
  · rcases List.mem_cons.mp he with rfl | he
    · exact id
    · exact unpaused_singleton id e he
  · exact unpaused_singleton id e he

theorem page_unpaused {s : Storage} {call : Call} {es : List Entry} (h : Page s call es)
    (ho : pauseOrder s call = none) : ∀ e ∈ es, ¬ IsSetPaused e := by
  cases call with
  | pause reason => exact absurd ho (Option.some_ne_none _)
  | unpause => exact absurd ho (Option.some_ne_none _)
  | confirmEmergencyAction confirmer id =>
    obtain ⟨proposal,hstored,rfl⟩ := h
    rw [pauseOrder_confirm hstored] at ho
    unfold emergencyPage
    cases hkind : proposal.kind with
    | pause => simp [hkind,EmergencyActionKind.pauseOrder] at ho
    | unpause => simp [hkind,EmergencyActionKind.pauseOrder] at ho
    | emergencyDivest => exact unpaused_singleton fun h => h
    | forceUpgrade => simp
  | deposit user amount =>
    obtain ⟨-,shares,rfl⟩ := h
    exact unpaused_singleton id
  | batchDeposit relayer entries =>
    intro e he hset
    have hmint := h.2 e he
    cases e with
    | setPaused paused => exact hmint
    | _ => exact hset
  | withdraw user shares =>
    obtain ⟨-,-,rfl | ⟨paid,rfl⟩⟩ := h
    · simp
    · exact burnPage_unpaused _ _ _ _
  | executeWithdrawal user =>
    obtain ⟨_,_,-,rfl⟩ := h
    exact burnPage_unpaused _ _ _ _
  | rebalance fromStrategy toStrategy amount minDivest minInvest =>
    obtain ⟨_,rfl⟩ := h
    exact unpaused_singleton id
  | accrueYield amount =>
    obtain ⟨_,rfl⟩ := h
    exact unpaused_singleton id
  | reportBenjiYield strategy amount =>
    obtain ⟨_,rfl⟩ := h
    exact unpaused_singleton id
  | accrueKoreanDebtYield =>
    obtain ⟨_,rfl⟩ := h
    exact unpaused_singleton id
  | invest amount => exact h ▸ unpaused_singleton id
  | divest amount => exact h ▸ unpaused_singleton id
  | claimFees => exact h ▸ unpaused_singleton id
  | _ =>
    have h0 : es = [] := h
    simp [h0]

section Calls

variable {call : Call} {v : Value}

/-- A call that goes through carries its order out, in the flag and in the reason. -/
theorem dispatch_ordered {paused : Bool} (h : (dispatch env call).run l = .ok v t)
    (ho : pauseOrder l.storage call = some paused) :
    isPaused t.storage = paused ∧ t.storage.pauseReason.isSome = paused := by
  cases call with
  | pause reason =>
    obtain ⟨_,h,-⟩ := map_eq_ok.mp h
    obtain ⟨_,-,-,rfl⟩ := pause_ok.mp h
    obtain rfl := Option.some.inj ho
    exact ⟨rfl,rfl⟩
  | unpause =>
    obtain ⟨_,h,-⟩ := map_eq_ok.mp h
    obtain ⟨_,-,-,rfl⟩ := unpause_ok.mp h
    obtain rfl := Option.some.inj ho
    exact ⟨rfl,rfl⟩
  | confirmEmergencyAction confirmer id =>
    obtain ⟨_,h,-⟩ := map_eq_ok.mp h
    obtain ⟨proposal,m,hconf,happly,rfl⟩ := confirmEmergencyAction_ok h
    rw [pauseOrder_confirm hconf.stored] at ho
    cases hkind : proposal.kind with
    | pause =>
      rw [hkind] at ho
      obtain rfl := Option.some.inj ho
      simp [applyEmergency,hkind] at happly
      subst happly
      exact ⟨rfl,rfl⟩
    | unpause =>
      rw [hkind] at ho
      obtain rfl := Option.some.inj ho
      simp [applyEmergency,hkind] at happly
      subst happly
      exact ⟨rfl,rfl⟩
    | emergencyDivest => simp [hkind,EmergencyActionKind.pauseOrder] at ho
    | forceUpgrade => simp [hkind,EmergencyActionKind.pauseOrder] at ho
  | _ => exact absurd ho.symm (Option.some_ne_none _)

theorem dispatch_reason (h : (dispatch env call).run l = .ok v t)
    (ho : pauseOrder l.storage call = none) : t.storage.pauseReason = l.storage.pauseReason := by
  by_cases hw : Part.pauseReason ∈ call.writes
  · cases call with
    | pause reason => exact absurd ho (Option.some_ne_none _)
    | unpause => exact absurd ho (Option.some_ne_none _)
    | confirmEmergencyAction confirmer id =>
      obtain ⟨_,h,-⟩ := map_eq_ok.mp h
      obtain ⟨proposal,m,hconf,happly,rfl⟩ := confirmEmergencyAction_ok h
      rw [pauseOrder_confirm hconf.stored] at ho
      cases hkind : proposal.kind with
      | pause => simp [hkind,EmergencyActionKind.pauseOrder] at ho
      | unpause => simp [hkind,EmergencyActionKind.pauseOrder] at ho
      | emergencyDivest =>
        simp only [applyEmergency,hkind,expect_bind_eq_ok] at happly
        obtain ⟨amount,-,happly⟩ := happly
        obtain ⟨_,-,c,-,-,-,rfl⟩ := divest_ok.mp happly
        rfl
      | forceUpgrade =>
        simp only [applyEmergency,hkind,expect_bind_eq_ok] at happly
        obtain ⟨hash,-,happly⟩ := happly
        obtain ⟨c,-,rfl⟩ := call_eq_ok.mp happly
        rfl
    | setting setting => cases setting <;> simp [Call.writes] at hw
    | _ => simp [Call.writes] at hw
  · have hpart := dispatch_part hw h
    exact read_of_part (k := .pauseReason) (f := Storage.pauseReason) (fun _ => rfl) hpart

/-- The flag and the reason after a step: as ordered, or as before. -/
theorem step_pause (hf : Founded l) (a : Action host) :
    (∃ inv v paused, a = .invoke inv ∧ (dispatch inv.env inv.call).run l = .ok v (step host a l) ∧
      pauseOrder l.storage inv.call = some paused ∧ isPaused (step host a l).storage = paused ∧
        (step host a l).storage.pauseReason.isSome = paused) ∨
    isPaused (step host a l).storage = isPaused l.storage ∧
      (step host a l).storage.pauseReason = l.storage.pauseReason := by
  cases a with
  | outside c => exact Or.inr ⟨rfl,rfl⟩
  | invoke inv =>
    rcases invoke_cases inv l with ⟨v,hv⟩ | hsame
    · cases ho : pauseOrder l.storage inv.call with
      | some paused =>
        obtain ⟨hflag,hreason⟩ := dispatch_ordered hv ho
        exact Or.inl ⟨inv,v,paused,rfl,hv,ho,hflag,hreason⟩
      | none =>
        refine Or.inr ⟨?_,dispatch_reason hv ho⟩
        change (books (invoke inv l)).paused = (books l).paused
        rcases hf with hu | hl
        · rcases unfounded_call hu hv with hu' | ⟨-,hempty⟩
          · rw [hu'.books,hu.books]
          · rw [hempty,hu.books]
        · obtain ⟨es,hpage,hbook⟩ := journal hl.state (fun _ _ _ => hl.initialized) hv
          rw [hbook.posted]
          exact paused_postAll (page_unpaused hpage ho)
    · refine Or.inr ?_
      change isPaused (invoke inv l).storage = _ ∧ (invoke inv l).storage.pauseReason = _
      rw [hsame]
      exact ⟨rfl,rfl⟩

end Calls

/-- A reason is on record exactly while the flag is set. -/
def PauseRecorded (s : Storage) : Prop := isPaused s = s.pauseReason.isSome

theorem run_pauseRecorded (acts : List (Action host)) :
    PauseRecorded (runFrom host chain acts).storage := by
  have hstep : ∀ l a, Founded l ∧ PauseRecorded l.storage →
      Founded (step host a l) ∧ PauseRecorded (step host a l).storage := by
    rintro l a ⟨hf,hp⟩
    refine ⟨step_founded hf a,?_⟩
    rcases step_pause hf a with ⟨_,_,paused,-,-,-,hflag,hreason⟩ | ⟨hflag,hreason⟩
    · exact hflag.trans hreason.symm
    · rw [PauseRecorded,hflag,hreason]
      exact hp
  exact (Runs.invariant hstep acts ⟨Or.inl (unfounded_genesis chain),rfl⟩).2

/-- In every reachable state the flag is set exactly when a reason is stored, and exactly then
the view shows one; and only a call that goes through and orders it changes the flag. -/
theorem pauseFlag_framed (host : Host σ) (chain : σ) (acts : List (Action host)) :
    (isPaused (runFrom host chain acts).storage = true ↔
      ∃ reason, (runFrom host chain acts).storage.pauseReason = some reason) ∧
    ((∃ reason, pauseReason (runFrom host chain acts).storage = some reason) ↔
      isPaused (runFrom host chain acts).storage = true) ∧
    ∀ a, isPaused (step host a (runFrom host chain acts)).storage ≠
        isPaused (runFrom host chain acts).storage →
      ∃ inv v, a = .invoke inv ∧
        (dispatch inv.env inv.call).run (runFrom host chain acts) =
          .ok v (step host a (runFrom host chain acts)) ∧
        pauseOrder (runFrom host chain acts).storage inv.call =
          some (isPaused (step host a (runFrom host chain acts)).storage) := by
  have hrecorded : PauseRecorded (runFrom host chain acts).storage := run_pauseRecorded acts
  have hstored : isPaused (runFrom host chain acts).storage = true ↔
      ∃ reason, (runFrom host chain acts).storage.pauseReason = some reason := by
    rw [hrecorded,Option.isSome_iff_exists]
  refine ⟨hstored,?_,fun a hne => ?_⟩
  · constructor
    · rintro ⟨reason,hreason⟩
      by_contra hno
      rw [pauseReason,if_neg hno] at hreason
      exact absurd hreason.symm (Option.some_ne_none _)
    · intro hp
      rw [pauseReason,if_pos hp]
      exact hstored.mp hp
  · rcases step_pause (run_founded acts) a with ⟨inv,v,paused,rfl,hv,ho,hflag,-⟩ | ⟨hflag,-⟩
    · exact ⟨inv,v,rfl,hv,hflag ▸ ho⟩
    · exact absurd hflag hne

section Runs

open SimpleHost

/-- The pause of a vault is the admin's, and a reason is on record. -/
theorem pausedVault_framed :
    (∃ reason, (runFrom (simpleHost id 0) bank pausedVault).storage.pauseReason = some reason) ∧
      isPaused (step (simpleHost id 0) (signed bob 5 (.deposit bob 1000))
        (runFrom (simpleHost id 0) bank pausedVault)).storage = true := by
  obtain ⟨hstored,-,honly⟩ := pauseFlag_framed (simpleHost id 0) bank pausedVault
  have hpaused : isPaused (runFrom (simpleHost id 0) bank pausedVault).storage = true := by decide
  refine ⟨hstored.mp hpaused,?_⟩
  by_contra hno
  obtain ⟨inv,_,ha,-,ho⟩ := honly (signed bob 5 (.deposit bob 1000)) (by rw [hpaused]; exact hno)
  obtain rfl := Action.invoke.inj ha
  exact absurd ho.symm (Option.some_ne_none _)

end Runs

end YieldVault
