import YieldVault.Backend.Retries

/-! The allowlist of the private beta. It stands before the operations of two of the three
routes; the third is gated by its feature flag alone. -/
namespace YieldVault.Backend

/-- The gates of the route have let the request in while the wallet was on the allowlist. -/
def ApprovedAtGate (cfg : VaultConfig) (events : List VaultEvent) (id : ℕ) (wallet : String) :
    Prop :=
  ∃ before now route headers body signed flagEnabled after,
    events = before ++ .arrive now route headers body signed flagEnabled :: after ∧
      (VaultServer.runFrom cfg before).next = id ∧
      wallet ∈ (VaultServer.runFrom cfg before).allowedAddresses

/-- No request to the second version of the deposits passes its gates for a wallet that is
not on the allowlist. -/
def V2Approved (cfg : VaultConfig) (s : VaultServer) (event : VaultEvent) : Prop :=
  ∀ now headers body signed flagEnabled body',
    event = .arrive now .depositsV2 headers body signed flagEnabled →
    VaultRoute.depositsV2.gates cfg s.allowedAddresses headers signed flagEnabled body =
      .ok body' → cfg.normalizeWalletAddress body'.walletAddress ∈ s.allowedAddresses

def VaultRequest.Open (request : VaultRequest) : Prop :=
  ∀ response, request.phase ≠ .answered response

theorem ApprovedAtGate.append {cfg : VaultConfig} {events : List VaultEvent} {id : ℕ}
    {wallet : String} (h : ApprovedAtGate cfg events id wallet) (event : VaultEvent) :
    ApprovedAtGate cfg (events ++ [event]) id wallet := by
  obtain ⟨before,now,route,headers,body,signed,flagEnabled,after,rfl,hnext,hallowed⟩ := h
  exact ⟨before,now,route,headers,body,signed,flagEnabled,after ++ [event],by simp,hnext,hallowed⟩

namespace VaultServer

variable {cfg : VaultConfig} {s : VaultServer}

/-- The allowlist is asked for the wallet that the operation is executed for: the schema
accepts no body without one, so that the header is not read. -/
theorem gates_approved {route : VaultRoute} {headers : VaultHeaders}
    {signed : Except SignedActionError Unit} {flagEnabled : Bool}
    {body body' : VaultOperationBody} (henabled : cfg.allowlistEnabled = true)
    (hroute : route ≠ .depositsV2)
    (h : route.gates cfg s.allowedAddresses headers signed flagEnabled body = .ok body') :
    cfg.normalizeWalletAddress body'.walletAddress ∈ s.allowedAddresses := by
  have hwallet : body'.walletAddress ≠ "" := walletAddress_ne_empty (gates_accept h)
  have hgate : allowlistMiddleware cfg s.allowedAddresses headers body' = .ok () := by
    cases hsigned : requireSignedWalletAction cfg signed body with
    | error refused =>
      unfold VaultRoute.gates at h
      rw [hsigned] at h
      cases h
    | ok body'' =>
      rw [gates_eq hsigned] at h
      split at h
      · cases h
      · next hgate =>
        have hsame : body'' = body' := by
          split_ifs at h
          exact Except.ok.inj h
        rw [← hsame]
        cases route with
        | deposits => exact hgate
        | withdrawals => exact hgate
        | depositsV2 => exact absurd rfl hroute
  have htruthy : truthy (some body'.walletAddress) = some body'.walletAddress := by
    simp [truthy,hwallet]
  have hisAllowed : isAllowed cfg s.allowedAddresses body'.walletAddress = true := by
    by_contra hrefused
    simp [allowlistMiddleware,henabled,htruthy,hrefused] at hgate
  exact of_decide_eq_true hisAllowed

theorem eq_of_put {id : ℕ} {request request' : VaultRequest}
    (h : (s.put id request').requests id = some request) : request' = request := by
  have hself : (s.put id request').requests id = some request' := Function.update_self _ _ _
  exact Option.some.inj (hself.symm.trans h)

theorem arrive_open {now : ℕ} {route : VaultRoute} {headers : VaultHeaders}
    {body : VaultOperationBody} {signed : Except SignedActionError Unit} {flagEnabled : Bool}
    {request : VaultRequest} (hopen : request.Open)
    (h : (s.arrive cfg now route headers body signed flagEnabled).requests s.next =
      some request) :
    route.gates cfg s.allowedAddresses headers signed flagEnabled body = .ok request.body := by
  unfold arrive at h
  split at h
  · obtain rfl := eq_of_put h
    exact absurd rfl (hopen _)
  · next body' hgates =>
    dsimp only at h
    split_ifs at h
    · obtain rfl := eq_of_put h
      exact hgates
    · have hentered := entered_enter cfg { s with next := s.next+1 } now s.next
        ⟨route,headers.key,body',.awaiting,none,none⟩
      revert hentered h
      generalize enter cfg now s.next ⟨route,headers.key,body',.awaiting,none,none⟩
        { s with next := s.next+1 } = t
      intro h hentered
      have hbody : request.body = body' := by
        cases hentered with
        | locked busy =>
          obtain rfl := eq_of_put h
          rfl
        | keyless free key =>
          obtain rfl := eq_of_put h
          rfl
        | keyed free key hkey answer store execute =>
          obtain rfl := eq_of_put h
          rfl
      rw [hbody]
      exact hgates

/-- Where an open request comes from: it has been open before, or it arrives. -/
theorem open_serve (h : Wired cfg s) {event : VaultEvent} {id : ℕ} {request : VaultRequest}
    (hopen : request.Open) (found : (serve cfg event s).requests id = some request) :
    (∃ old, s.requests id = some old ∧ old.Open ∧ old.body = request.body) ∨
      id = s.next ∧ ∃ now route headers body signed flagEnabled,
        event = .arrive now route headers body signed flagEnabled ∧
          route.gates cfg s.allowedAddresses headers signed flagEnabled body =
            .ok request.body := by
  by_cases htarget : event.target s = some id
  · cases event with
    | arrive now route headers body signed flagEnabled =>
      obtain rfl : s.next = id := Option.some.inj htarget
      exact Or.inr ⟨rfl,now,route,headers,body,signed,flagEnabled,rfl,arrive_open hopen found⟩
    | proceed other progress =>
      obtain rfl : other = id := Option.some.inj htarget
      left
      cases hold : s.requests other with
      | none =>
        rw [serve,hold] at found
        exact absurd (hold.symm.trans found) (by simp)
      | some old =>
        obtain ⟨new,hnew,hfollows⟩ := follows_serve h (.proceed other progress) hold
        obtain rfl := Option.some.inj (hnew.symm.trans found)
        exact ⟨old,rfl,fun response hphase => hopen response (hfollows.answered response hphase),
          hfollows.body.symm⟩
    | _ => cases htarget
  · rw [requests_serve cfg htarget] at found
    exact Or.inl ⟨request,found,hopen,rfl⟩

end VaultServer

section Runs

open VaultServer

variable {cfg : VaultConfig}

/-- The gates of an event let requests in for approved wallets only. -/
theorem gates_approved_of_v2 {s : VaultServer} {now : ℕ} {route : VaultRoute}
    {headers : VaultHeaders} {body body' : VaultOperationBody}
    {signed : Except SignedActionError Unit} {flagEnabled : Bool}
    (henabled : cfg.allowlistEnabled = true)
    (hv2 : V2Approved cfg s (.arrive now route headers body signed flagEnabled))
    (hgates : route.gates cfg s.allowedAddresses headers signed flagEnabled body = .ok body') :
    cfg.normalizeWalletAddress body'.walletAddress ∈ s.allowedAddresses := by
  by_cases hroute : route = .depositsV2
  · subst hroute
    exact hv2 now headers body signed flagEnabled body' rfl hgates
  · exact gates_approved henabled hroute hgates

theorem open_approved (henabled : cfg.allowlistEnabled = true) {events : List VaultEvent}
    (hv2 : Runs.Along (serve cfg) (V2Approved cfg) {} events) {id : ℕ} {request : VaultRequest}
    (hopen : request.Open) (found : (runFrom cfg events).requests id = some request) :
    ApprovedAtGate cfg events id (request.wallet cfg) := by
  induction events using List.reverseRecOn generalizing id request with
  | nil => cases found
  | append_singleton events event ih =>
    obtain ⟨hbefore,hevent,-⟩ := Runs.along_append.mp hv2
    rw [runFrom,Runs.run_concat] at found
    rcases open_serve (run_wired cfg events) hopen found with
      ⟨old,hold,hopen,hbody⟩ | ⟨rfl,now,route,headers,body,signed,flagEnabled,rfl,hgates⟩
    · have hwallet : old.wallet cfg = request.wallet cfg := by
        rw [VaultRequest.wallet,hbody,VaultRequest.wallet]
      exact hwallet ▸ (ih hbefore hopen hold).append event
    · exact ⟨events,now,route,headers,body,signed,flagEnabled,[],rfl,rfl,
        gates_approved_of_v2 henabled hevent hgates⟩

/-- Where the second version of the deposits lets in approved wallets only, a request whose
operation is submitted has passed its gates while its wallet was on the allowlist. -/
theorem operating_approved (henabled : cfg.allowlistEnabled = true) {events : List VaultEvent}
    (hv2 : Runs.Along (serve cfg) (V2Approved cfg) {} events) (id : ℕ) (request : VaultRequest)
    (step : OperationStep) (found : (runFrom cfg events).requests id = some request)
    (hphase : request.phase = .operating step) :
    ApprovedAtGate cfg events id (request.wallet cfg) := by
  have hopen : request.Open := fun response hanswered => by
    rw [hphase] at hanswered
    cases hanswered
  exact open_approved henabled hv2 hopen found

def betaConfig : VaultConfig := { openConfig with allowlistEnabled := true }

def aliceAllowed : List VaultEvent := [.allow aliceWallet,aliceSends .deposits 0 1000]

theorem aliceAllowed_approved : ApprovedAtGate betaConfig aliceAllowed 0 aliceWallet := by
  have hv2 : Runs.Along (serve betaConfig) (V2Approved betaConfig) {} aliceAllowed := by
    refine ⟨?_,?_,trivial⟩
    · rintro _ _ _ _ _ _ ⟨⟩
    · rintro _ _ _ _ _ _ ⟨⟩
  exact operating_approved rfl hv2 0 ⟨.deposits,some "key",aliceBody 1000,
    .operating .submitting,some 0,none⟩ .submitting rfl rfl

/-- The second version of the deposits submits the operation of a wallet that is not on
the allowlist. -/
theorem v2_not_approved : ¬ ∀ (cfg : VaultConfig) (events : List VaultEvent),
    cfg.allowlistEnabled = true → ∀ id request step,
      (runFrom cfg events).requests id = some request → request.phase = .operating step →
      ApprovedAtGate cfg events id (request.wallet cfg) := by
  intro h
  obtain ⟨before,now,route,headers,body,signed,flagEnabled,after,hevents,-,hallowed⟩ :=
    h betaConfig [.arrive 0 .depositsV2 {} (aliceBody 1000) (.ok ()) true] rfl 0
      ⟨.depositsV2,none,aliceBody 1000,.operating .submitting,none,none⟩ .submitting rfl rfl
  have hbefore : before = [] := by
    cases before with
    | nil => rfl
    | cons first rest => simp at hevents
  rw [hbefore] at hallowed
  cases hallowed

end Runs

end YieldVault.Backend
