import YieldVault.Backend.VaultHandler
import YieldVault.Backend.KeyLifetime

/-! What a step does to a server's requests, and how they are wired to the calls of the
store of idempotency keys. -/
namespace YieldVault.Backend

def RequestPhase.isEarly : RequestPhase → Prop
  | .summing _ | .evaluating _ _ => True
  | _ => False

def VaultResponse.isRefusal : VaultResponse → Prop
  | .created _ _ | .keyConflict | .serviceUnavailable _ | .simulationFailed _ _ _
  | .internalError => False
  | _ => True

def RequestPhase.isOutside : RequestPhase → Prop
  | .answered response => response.isRefusal
  | phase => phase.isEarly

def VaultEvent.now : VaultEvent → Option ℕ
  | .arrive now _ _ _ _ _ | .proceed _ (.evaluate now) | .proceed _ (.settle now) => some now
  | _ => none

def VaultEvent.Within (since last : ℕ) (event : VaultEvent) : Prop :=
  ∀ now, event.now = some now → since ≤ now ∧ now ≤ last

def VaultEvent.target (s : VaultServer) : VaultEvent → Option ℕ
  | .arrive _ _ _ _ _ _ => some s.next
  | .proceed id _ => some id
  | _ => none

def VaultEvent.Deletes (key : String) : VaultEvent → Prop
  | .deleteKey other => other = key
  | .clear => True
  | _ => False

/-- A request arrives, or it is one that stands before the handler. -/
def VaultServer.Comes (s : VaultServer) (id next : ℕ) (request : VaultRequest) : Prop :=
  id = s.next ∧ next = s.next+1 ∧ request.call = none ∧ request.landed = none ∨
    next = s.next ∧ ∃ early, s.requests id = some early ∧ early.phase.isEarly ∧
      request = early.at request.phase

/-- The event lets the request into the handler. -/
inductive VaultServer.Enters (cfg : VaultConfig) (s : VaultServer) :
    VaultEvent → ℕ → ℕ → VaultRequest → Prop
  | arrives (now : ℕ) (route : VaultRoute) (headers : VaultHeaders)
      (body body' : VaultOperationBody) (signed : Except SignedActionError Unit)
      (flagEnabled : Bool) (deposit : route ≠ .withdrawals)
      (gates : route.gates cfg s.allowedAddresses headers signed flagEnabled body = .ok body') :
      Enters cfg s (.arrive now route headers body signed flagEnabled) now s.next
        ⟨route,headers.key,body',.awaiting,none,none⟩
  | evaluated (id now start : ℕ) (used : ℚ) (request : VaultRequest)
      (found : s.requests id = some request) (phase : request.phase = .evaluating start used)
      (within : withinDailyLimit cfg s.overrides now used request.body = true) :
      Enters cfg s (.proceed id (.evaluate now)) now id request

inductive VaultServer.Change (cfg : VaultConfig) (s : VaultServer) : VaultEvent → VaultServer → Prop
  | settings (event : VaultEvent) (t : VaultServer) (keyed : t.keyed = s.keyed)
      (wallets : t.inFlightWallets = s.inFlightWallets) (ledger : t.ledger = s.ledger)
      (requests : t.requests = s.requests) (next : t.next = s.next) : Change cfg s event t
  | deleted (event : VaultEvent)
      (deletion : StoreEvent String String OperationResult OperationError)
      (kind : (∃ key, event = .deleteKey key ∧ deletion = .deleteKey key) ∨
        event = .clear ∧ deletion = .clear) :
      Change cfg s event { s with keyed := s.keyed.serve cfg.ttlMs deletion }
  | gated (event : VaultEvent) (id next : ℕ) (request : VaultRequest)
      (comes : s.Comes id next request) (target : event.target s = some id)
      (outside : request.phase.isOutside)
      (accepted : request.phase.isEarly → vaultOperationSchema cfg request.body = true ∨
        ∃ early, s.requests id = some early ∧ early.phase.isEarly ∧ early.body = request.body) :
      Change cfg s event (put id request { s with next := next })
  | entered (event : VaultEvent) (now id next : ℕ) (request : VaultRequest)
      (comes : s.Comes id next request) (enters : s.Enters cfg event now id request) :
      Change cfg s event (enter cfg now id request { s with next := next })
  | operated (id : ℕ) (progress : Progress) (request : VaultRequest) (step step' : OperationStep)
      (ledger : Ledger) (found : s.requests id = some request)
      (operating : request.phase = .operating step)
      (operate : operate cfg request progress step s.ledger = some (step',ledger)) :
      Change cfg s (.proceed id progress) (put id { request with
        phase := .operating step'
        landed := progress.landed request.landed } { s with ledger := ledger })
  | settled (id now : ℕ) (request : VaultRequest) (found : s.requests id = some request) :
      Change cfg s (.proceed id (.settle now)) (s.settle cfg now request)
  | released (id : ℕ) (request : VaultRequest) (found : s.requests id = some request) :
      Change cfg s (.proceed id .release) (s.release cfg request)
  | responded (id : ℕ) (request : VaultRequest) (response : VaultResponse)
      (found : s.requests id = some request)
      (settlement : s.settlement request = some response) :
      Change cfg s (.proceed id .respond) (put id (request.at (.answered response))
        { s with inFlightWallets := s.inFlightWallets.erase (request.wallet cfg) })

namespace VaultServer

variable {cfg : VaultConfig} {s : VaultServer}

theorem Enters.time {event : VaultEvent} {now id : ℕ} {request : VaultRequest}
    (h : s.Enters cfg event now id request) : event.now = some now := by
  cases h <;> rfl

theorem Enters.target {event : VaultEvent} {now id : ℕ} {request : VaultRequest}
    (h : s.Enters cfg event now id request) : event.target s = some id := by
  cases h <;> rfl

theorem Change.idle (event : VaultEvent) : Change cfg s event s :=
  .settings event s rfl rfl rfl rfl rfl

section Gates

theorem requireSignedWalletAction_refuses {signed : Except SignedActionError Unit}
    {body : VaultOperationBody} {response : VaultResponse}
    (h : requireSignedWalletAction cfg signed body = .error response) : response.isRefusal := by
  unfold requireSignedWalletAction at h
  split_ifs at h
  · cases h
    trivial
  · cases signed <;> cases h
    trivial

theorem allowlistMiddleware_refuses {allowed : Finset String} {headers : VaultHeaders}
    {body : VaultOperationBody} {response : VaultResponse}
    (h : allowlistMiddleware cfg allowed headers body = .error response) : response.isRefusal := by
  unfold allowlistMiddleware at h
  split_ifs at h
  split at h
  · cases h
    trivial
  · split_ifs at h
    cases h
    trivial

theorem requireFlag_refuses {flagEnabled : Bool} {response : VaultResponse}
    (h : requireFlag flagEnabled = .error response) : response.isRefusal := by
  unfold requireFlag at h
  split_ifs at h
  cases h
  trivial

theorem gate_refuses {route : VaultRoute} {allowed : Finset String} {headers : VaultHeaders}
    {flagEnabled : Bool} {body : VaultOperationBody} {response : VaultResponse}
    (h : route.gate cfg allowed headers flagEnabled body = .error response) :
    response.isRefusal := by
  cases route with
  | deposits => exact allowlistMiddleware_refuses h
  | withdrawals => exact allowlistMiddleware_refuses h
  | depositsV2 => exact requireFlag_refuses h

variable {route : VaultRoute} {allowed : Finset String} {headers : VaultHeaders}
  {signed : Except SignedActionError Unit} {flagEnabled : Bool} {body body' : VaultOperationBody}

theorem gates_eq (hsigned : requireSignedWalletAction cfg signed body = .ok body') :
    route.gates cfg allowed headers signed flagEnabled body =
      match route.gate cfg allowed headers flagEnabled body' with
      | .error response => .error response
      | .ok _ =>
        if vaultOperationSchema cfg body' then
          if route = .withdrawals ∧ headers.overrideRequested then .error .overrideDenied
          else .ok body'
        else .error .invalidBody := by
  unfold VaultRoute.gates
  rw [hsigned]
  change (route.gate cfg allowed headers flagEnabled body' >>= fun _ => _) = _
  cases route.gate cfg allowed headers flagEnabled body' with
  | error response => rfl
  | ok _ =>
    change (validate cfg body' >>= fun _ => _) = _
    unfold validate
    by_cases hschema : vaultOperationSchema cfg body' = true
    · rw [if_pos hschema]
      dsimp only
      rw [if_pos hschema]
      change (if _ then _ else _) = _
      split_ifs <;> rfl
    · rw [if_neg hschema]
      dsimp only
      rw [if_neg hschema]
      rfl

theorem gates_refuse {response : VaultResponse}
    (h : route.gates cfg allowed headers signed flagEnabled body = .error response) :
    response.isRefusal := by
  cases hsigned : requireSignedWalletAction cfg signed body with
  | error refused =>
    unfold VaultRoute.gates at h
    rw [hsigned] at h
    cases h
    exact requireSignedWalletAction_refuses hsigned
  | ok body' =>
    rw [gates_eq hsigned] at h
    split at h
    · cases h
      exact gate_refuses ‹_›
    · split_ifs at h <;> cases h <;> trivial

theorem gates_accept (h : route.gates cfg allowed headers signed flagEnabled body = .ok body') :
    vaultOperationSchema cfg body' = true := by
  cases hsigned : requireSignedWalletAction cfg signed body with
  | error refused =>
    unfold VaultRoute.gates at h
    rw [hsigned] at h
    cases h
  | ok body'' =>
    rw [gates_eq hsigned] at h
    split at h
    · cases h
    · split_ifs at h with hschema
      cases h
      exact hschema

end Gates

theorem change_arrive (now : ℕ) (route : VaultRoute) (headers : VaultHeaders)
    (body : VaultOperationBody) (signed : Except SignedActionError Unit) (flagEnabled : Bool) :
    Change cfg s (.arrive now route headers body signed flagEnabled)
      (s.arrive cfg now route headers body signed flagEnabled) := by
  unfold arrive
  split
  · exact .gated _ _ _ _ (Or.inl ⟨rfl,rfl,rfl,rfl⟩) rfl (gates_refuse ‹_›) fun h => h.elim
  · dsimp only
    split_ifs
    · exact .gated _ _ _ _ (Or.inl ⟨rfl,rfl,rfl,rfl⟩) rfl trivial
        fun _ => Or.inl (gates_accept ‹_›)
    · exact .entered _ _ _ _ _ (Or.inl ⟨rfl,rfl,rfl,rfl⟩) (.arrives _ _ _ _ _ _ _ ‹_› ‹_›)

theorem change_proceed {id : ℕ} {progress : Progress} {request : VaultRequest}
    (found : s.requests id = some request) :
    Change cfg s (.proceed id progress) (s.proceed cfg id progress request) := by
  have hearly : ∀ phase, request.phase.isEarly → s.Comes id s.next (request.at phase) :=
    fun phase h => Or.inr ⟨rfl,request,found,h,rfl⟩
  unfold proceed
  split
  · have hphase : request.phase = .summing _ := ‹_›
    have early : request.phase.isEarly := by
      rw [hphase]
      trivial
    exact .gated _ _ _ _ (hearly _ early) rfl trivial
      fun _ => Or.inr ⟨request,found,early,rfl⟩
  · have hphase : request.phase = .evaluating _ _ := ‹_›
    have early : request.phase.isEarly := by
      rw [hphase]
      trivial
    unfold evaluate
    split_ifs
    · have hcomes : s.Comes id s.next request := Or.inr ⟨rfl,request,found,early,rfl⟩
      exact .entered _ _ id s.next request hcomes (.evaluated id _ _ _ request found hphase ‹_›)
    · exact .gated _ _ _ _ (hearly _ early) rfl trivial fun h => h.elim
  · exact .settled id _ request found
  · exact .released id request found
  · unfold respond
    split
    · exact .responded id request _ found ‹_›
    · exact .idle _
  · have hphase : request.phase = .operating _ := ‹_›
    split
    · exact .operated id _ request _ _ _ found hphase ‹_›
    · exact .idle _
  · exact .idle _

theorem change_serve (cfg : VaultConfig) (s : VaultServer) (event : VaultEvent) :
    Change cfg s event (serve cfg event s) := by
  cases event with
  | arrive now route headers body signed flagEnabled =>
    exact change_arrive now route headers body signed flagEnabled
  | proceed id progress =>
    cases found : s.requests id with
    | none =>
      simp only [serve,found]
      exact .idle _
    | some request =>
      simp only [serve,found]
      exact change_proceed found
  | allow wallet => exact .settings _ _ rfl rfl rfl rfl rfl
  | disallow wallet => exact .settings _ _ rfl rfl rfl rfl rfl
  | override wallet expiresAt => exact .settings _ _ rfl rfl rfl rfl rfl
  | deleteKey key => exact .deleted _ _ (Or.inl ⟨key,rfl,rfl⟩)
  | clear => exact .deleted _ _ (Or.inr ⟨rfl,rfl⟩)

/-- How a request stands to the phase of its call of the store. -/
inductive Fits (keyed : KeyedCalls String String OperationResult OperationError) :
    RequestPhase → Phase OperationResult OperationError → Prop
  | running (step : OperationStep) : Fits keyed (.operating step) .running
  | settled (outcome : Except OperationError OperationResult) :
      Fits keyed (.operating (.finished outcome)) (.settled outcome)
  | returned (outcome : Except OperationError OperationResult) :
      Fits keyed (.operating (.finished outcome)) (.returned outcome)
  | awaiting (answer : Answer OperationResult) (found : answer ≠ .started) :
      Fits keyed .awaiting (.answered answer)
  | done (response : VaultResponse) (outcome : Except OperationError OperationResult)
      (same : response = outcomeResponse false outcome) :
      Fits keyed (.answered response) (.returned outcome)
  | conflict : Fits keyed (.answered .keyConflict) (.answered .conflict)
  | replayed (result : OperationResult) :
      Fits keyed (.answered (.created result true)) (.answered (.replayed result))
  | waited (response : VaultResponse) (promise : ℕ)
      (outcome : Except OperationError OperationResult)
      (known : keyed.outcome promise = some outcome)
      (same : response = outcomeResponse true outcome) :
      Fits keyed (.answered response) (.answered (.waiting promise))

/-- Requests and calls of the store belong together: each call is made by one request, with
its key and the fingerprint of its body, and the two are in step. -/
structure Wired (cfg : VaultConfig) (s : VaultServer) : Prop where
  fresh : ∀ id, s.next ≤ id → s.requests id = none
  sound : s.keyed.Sound
  early : ∀ id request, s.requests id = some request → request.phase.isEarly →
    request.call = none ∧ request.landed = none
  linked : ∀ id request call, s.requests id = some request → request.call = some call →
    ∃ key phase, request.key = some key ∧
      s.keyed.calls call = some ⟨key,request.fingerprint cfg,phase⟩ ∧
      Fits s.keyed request.phase phase
  once : ∀ id id' request request' call, s.requests id = some request →
    s.requests id' = some request' → request.call = some call → request'.call = some call →
    id = id'
  owned : ∀ call entry, s.keyed.calls call = some entry →
    ∃ id request, s.requests id = some request ∧ request.call = some call
  keyless : ∀ id request step, s.requests id = some request →
    request.phase = .operating step → request.call = none → request.key = none

theorem Fits.mono {keyed keyed' : KeyedCalls String String OperationResult OperationError}
    (hmono : ∀ promise outcome, keyed.outcome promise = some outcome →
      keyed'.outcome promise = some outcome)
    {at_ : RequestPhase} {phase : Phase OperationResult OperationError} (h : Fits keyed at_ phase) :
    Fits keyed' at_ phase := by
  cases h with
  | running step => exact .running step
  | settled outcome => exact .settled outcome
  | returned outcome => exact .returned outcome
  | awaiting answer found => exact .awaiting answer found
  | done response outcome same => exact .done response outcome same
  | conflict => exact .conflict
  | replayed result => exact .replayed result
  | waited response promise outcome known same =>
    exact .waited response promise outcome (hmono _ _ known) same

theorem Wired.initial (cfg : VaultConfig) : Wired cfg {} :=
  have hrequests : ∀ {id : ℕ} {request : VaultRequest},
      ({} : VaultServer).requests id ≠ some request := nofun
  have hsound : ({} : VaultServer).keyed.Sound := KeyedCalls.run_sound cfg.ttlMs []
  ⟨fun _ _ => rfl,hsound,fun _ _ h => absurd h hrequests,fun _ _ _ h => absurd h hrequests,
    fun _ _ _ _ _ h => absurd h hrequests,nofun,fun _ _ _ h => absurd h hrequests⟩

theorem requests_update {t : VaultServer} {id other : ℕ} {request r : VaultRequest}
    (hrequests : t.requests = Function.update s.requests id (some request))
    (hr : t.requests other = some r) :
    other = id ∧ request = r ∨ other ≠ id ∧ s.requests other = some r := by
  rw [hrequests] at hr
  exact (update_eq_some.mp hr).imp (And.imp_right Option.some.inj) fun h => h

/-- A request changes but for its call, key and body, or is a new one without a call. -/
theorem Wired.replace (h : Wired cfg s) {t : VaultServer} {id : ℕ} {request : VaultRequest}
    (hkeyed : t.keyed = s.keyed)
    (hrequests : t.requests = Function.update s.requests id (some request))
    (hnext : s.next ≤ t.next) (hid : id < t.next)
    (hold : ∀ old, s.requests id = some old →
      request.call = old.call ∧ request.key = old.key ∧ request.body = old.body)
    (hnew : s.requests id = none → request.call = none)
    (hearly : request.phase.isEarly → request.call = none ∧ request.landed = none)
    (hfits : ∀ old call phase, s.requests id = some old → request.call = some call →
      s.keyed.calls call = some ⟨old.key.getD "",old.fingerprint cfg,phase⟩ →
      Fits s.keyed old.phase phase → Fits s.keyed request.phase phase)
    (hkeyless : ∀ step, request.phase = .operating step → request.call = none →
      request.key = none) : Wired cfg t := by
  have hcaller : ∀ {call : ℕ}, request.call = some call →
      ∃ old, s.requests id = some old ∧ old.call = some call := by
    intro call hcall
    cases hs : s.requests id with
    | none => exact absurd (hcall.symm.trans (hnew hs)) (by simp)
    | some old => exact ⟨old,rfl,(hold old hs).1.symm.trans hcall⟩
  refine ⟨?_,hkeyed ▸ h.sound,?_,?_,?_,?_,?_⟩
  · intro other hother
    rw [hrequests,Function.update_of_ne (by omega)]
    exact h.fresh other (hnext.trans hother)
  · intro other r hr hphase
    rcases requests_update hrequests hr with ⟨-,rfl⟩ | ⟨-,hr⟩
    · exact hearly hphase
    · exact h.early other r hr hphase
  · intro other r call hr hcall
    rw [hkeyed]
    rcases requests_update hrequests hr with ⟨-,rfl⟩ | ⟨-,hr⟩
    · obtain ⟨old,hs,hcall'⟩ := hcaller hcall
      obtain ⟨key,phase,hkey,hentry,hphase⟩ := h.linked id old call hs hcall'
      have hsame := hold old hs
      refine ⟨key,phase,hsame.2.1.trans hkey,?_,hfits old call phase hs hcall ?_ hphase⟩
      · rw [hentry,VaultRequest.fingerprint,VaultRequest.fingerprint,hsame.2.2]
      · rw [hentry,hkey]
        rfl
    · exact h.linked other r call hr hcall
  · intro a b r r' call ha hb hcall hcall'
    rcases requests_update hrequests ha with ⟨rfl,rfl⟩ | ⟨hane,ha⟩ <;>
      rcases requests_update hrequests hb with ⟨rfl,rfl⟩ | ⟨hbne,hb⟩
    · rfl
    · obtain ⟨old,hs,hold'⟩ := hcaller hcall
      exact h.once _ _ _ _ call hs hb hold' hcall'
    · obtain ⟨old,hs,hold'⟩ := hcaller hcall'
      exact h.once _ _ _ _ call ha hs hcall hold'
    · exact h.once _ _ _ _ call ha hb hcall hcall'
  · intro call entry hentry
    rw [hkeyed] at hentry
    obtain ⟨other,r,hr,hcall⟩ := h.owned call entry hentry
    by_cases hother : other = id
    · subst hother
      exact ⟨other,request,by rw [hrequests,Function.update_self],(hold r hr).1.trans hcall⟩
    · exact ⟨other,r,by rw [hrequests,Function.update_of_ne hother,hr],hcall⟩
  · intro other r step hr hphase hcall
    rcases requests_update hrequests hr with ⟨-,rfl⟩ | ⟨-,hr⟩
    · exact hkeyless step hphase hcall
    · exact h.keyless other r step hr hphase hcall

/-- The store serves an event that is no new call; an operation that settles has finished
in its request. -/
theorem Wired.store (h : Wired cfg s)
    (event : StoreEvent String String OperationResult OperationError)
    (hnext : (s.keyed.serve cfg.ttlMs event).next = s.keyed.next)
    (hsettles : ∀ id request call outcome, s.requests id = some request →
      request.call = some call →
      ((∃ now result, event = .fulfil now call result ∧ outcome = .ok result) ∨
        ∃ error, event = .reject call error ∧ outcome = .error error) →
      request.phase = .operating (.finished outcome)) :
    Wired cfg { s with keyed := s.keyed.serve cfg.ttlMs event } := by
  have hkept := fun call (entry : Call _ _ _ _) (hcall : s.keyed.calls call = some entry) =>
    KeyedCalls.serve_calls cfg.ttlMs event (h.sound.lt hcall)
  refine ⟨h.fresh,KeyedCalls.sound_serve cfg.ttlMs event h.sound,h.early,?_,h.once,?_,h.keyless⟩
  · intro id request call hr hcall
    obtain ⟨key,phase,hkey,hentry,hfits⟩ := h.linked id request call hr hcall
    have hmono := hfits.mono fun promise outcome ho =>
      h.sound.outcome_serve cfg.ttlMs event ho
    rcases hkept call _ hentry with hsame | ⟨_,_,outcome,⟨hrunning,hsettled⟩ | ⟨hsettled,-,hreturned⟩⟩
    · exact ⟨key,phase,hkey,hsame.trans hentry,hmono⟩
    · obtain ⟨rfl,rfl,rfl⟩ := Call.mk.inj (Option.some.inj (hentry.symm.trans hrunning))
      have hphase := hsettles id request call outcome hr hcall
        (KeyedCalls.settled_of_serve (h.sound.lt hentry) hrunning hsettled)
      exact ⟨key,_,hkey,hsettled,hphase ▸ .settled outcome⟩
    · obtain ⟨rfl,rfl,rfl⟩ := Call.mk.inj (Option.some.inj (hentry.symm.trans hsettled))
      cases hphase : request.phase with
      | operating step =>
        rw [hphase] at hfits
        cases hfits
        exact ⟨key,_,hkey,hreturned,.returned outcome⟩
      | summing start => rw [hphase] at hfits; cases hfits
      | evaluating start used => rw [hphase] at hfits; cases hfits
      | awaiting => rw [hphase] at hfits; cases hfits
      | answered response => rw [hphase] at hfits; cases hfits
  · intro call entry hentry
    have hlt : call < s.keyed.next :=
      hnext ▸ (KeyedCalls.sound_serve cfg.ttlMs event h.sound).lt hentry
    rcases KeyedCalls.serve_calls cfg.ttlMs event hlt with
      hsame | ⟨_,_,_,⟨hrunning,-⟩ | ⟨hsettled,-,-⟩⟩
    · exact h.owned call entry (hsame.symm.trans hentry)
    · exact h.owned call _ hrunning
    · exact h.owned call _ hsettled

/-- What is known of a request that comes to the gates or to the handler. -/
theorem Comes.early (h : Wired cfg s) {id next : ℕ} {request : VaultRequest}
    (hcomes : s.Comes id next request) :
    s.next ≤ next ∧ id < next ∧ request.call = none ∧ request.landed = none ∧
      ∀ old, s.requests id = some old →
        old.call = none ∧ old.landed = none ∧ old.phase.isEarly ∧ request = old.at request.phase := by
  rcases hcomes with ⟨rfl,rfl,hcall,hlanded⟩ | ⟨rfl,early,hearly,hphase,hrequest⟩
  · refine ⟨Nat.le_succ _,Nat.lt_succ_self _,hcall,hlanded,fun old hold => ?_⟩
    exact absurd (hold.symm.trans (h.fresh _ le_rfl)) (by simp)
  · obtain ⟨hcall,hlanded⟩ := h.early id early hearly hphase
    have hlt : id < s.next := by
      by_contra hno
      exact absurd (hearly.symm.trans (h.fresh id (not_lt.mp hno))) (by simp)
    refine ⟨le_rfl,hlt,?_,?_,fun old hold => ?_⟩
    · rw [hrequest]
      exact hcall
    · rw [hrequest]
      exact hlanded
    · obtain rfl := Option.some.inj (hold.symm.trans hearly)
      exact ⟨hcall,hlanded,hphase,hrequest⟩

theorem Wired.gated (h : Wired cfg s) {t : VaultServer} {id next : ℕ}
    {request : VaultRequest} (hcomes : s.Comes id next request) (phase : RequestPhase)
    (hkeyed : t.keyed = s.keyed) (hnext : t.next = next)
    (hrequests : t.requests = Function.update s.requests id (some (request.at phase)))
    (hphase : ∀ step, phase = .operating step → request.key = none) : Wired cfg t := by
  obtain ⟨hle,hlt,hcall,hlanded,hold⟩ := hcomes.early h
  refine h.replace hkeyed hrequests (hnext ▸ hle) (hnext ▸ hlt) ?_ (fun _ => hcall)
    (fun _ => ⟨hcall,hlanded⟩) ?_ (fun step hstep _ => hphase step hstep)
  · intro old hs
    obtain ⟨hnone,-,-,hrequest⟩ := hold old hs
    have hkey := congrArg VaultRequest.key hrequest
    have hbody := congrArg VaultRequest.body hrequest
    exact ⟨hcall.trans hnone.symm,hkey,hbody⟩
  · intro old call phase' _ hsome
    exact absurd (hsome.symm.trans hcall) (by simp)

theorem Answer.phase_of_ne {answer : Answer OperationResult} (h : answer ≠ .started) :
    answer.phase = .awaiting := by
  cases answer <;> first | rfl | exact absurd rfl h

/-- The handler lets a request in, unless its wallet is locked. -/
inductive Entered (cfg : VaultConfig) (s : VaultServer) (now id : ℕ) (request : VaultRequest) :
    VaultServer → Prop
  | locked (busy : request.wallet cfg = "" ∨ request.wallet cfg ∈ s.inFlightWallets) :
      Entered cfg s now id request
        (s.put id (request.at (.answered (.walletOperationInProgress (request.wallet cfg)))))
  | keyless (free : request.wallet cfg ≠ "" ∧ request.wallet cfg ∉ s.inFlightWallets)
      (key : request.key = none) :
      Entered cfg s now id request (put id (request.at (.operating .submitting))
        { s with inFlightWallets := insert (request.wallet cfg) s.inFlightWallets })
  | keyed (free : request.wallet cfg ≠ "" ∧ request.wallet cfg ∉ s.inFlightWallets)
      (key : String) (hkey : request.key = some key) (answer : Answer OperationResult)
      (store : IdempotencyStore String String OperationResult)
      (execute : s.keyed.store.execute cfg.ttlMs now key (request.fingerprint cfg) s.keyed.next =
        (answer,store)) :
      Entered cfg s now id request
        (put id { request with phase := answer.phase, call := some s.keyed.next }
          { s with
            inFlightWallets := insert (request.wallet cfg) s.inFlightWallets
            keyed := s.keyed.serve cfg.ttlMs (.execute now key (request.fingerprint cfg)) })

theorem entered_enter (cfg : VaultConfig) (s : VaultServer) (now id : ℕ) (request : VaultRequest) :
    Entered cfg s now id request (s.enter cfg now id request) := by
  unfold enter
  dsimp only
  split_ifs with hbusy
  · exact .locked hbusy
  · have hfree := not_or.mp hbusy
    split
    · exact .keyless hfree ‹_›
    · exact .keyed hfree _ ‹_› _ _ (Prod.mk.eta).symm

theorem Wired.called (h : Wired cfg s) {t : VaultServer} {id next now : ℕ}
    {request : VaultRequest} (hcomes : s.Comes id next request) {key : String}
    (hkey : request.key = some key) {answer : Answer OperationResult}
    {store : IdempotencyStore String String OperationResult}
    (execute : s.keyed.store.execute cfg.ttlMs now key (request.fingerprint cfg) s.keyed.next =
      (answer,store))
    (hkeyed : t.keyed = s.keyed.serve cfg.ttlMs (.execute now key (request.fingerprint cfg)))
    (hrequests : t.requests = Function.update s.requests id
      (some { request with phase := answer.phase, call := some s.keyed.next }))
    (hnext : t.next = next) : Wired cfg t := by
  obtain ⟨hle,hlt,hcall,hlanded,hold⟩ := hcomes.early h
  have hcalls : t.keyed.calls = Function.update s.keyed.calls s.keyed.next
      (some ⟨key,request.fingerprint cfg,.answered answer⟩) := by
    rw [hkeyed,KeyedCalls.serve_execute execute]
  have hkept : ∀ {other r}, s.requests other = some r → r.call ≠ some s.keyed.next := by
    intro other r hr hcall'
    obtain ⟨_,_,-,hentry,-⟩ := h.linked other r _ hr hcall'
    exact absurd (h.sound.lt hentry) (lt_irrefl _)
  refine ⟨?_,hkeyed ▸ KeyedCalls.sound_serve _ _ h.sound,?_,?_,?_,?_,?_⟩
  · intro other hother
    rw [hnext] at hother
    rw [hrequests,Function.update_of_ne (hlt.trans_le hother).ne']
    exact h.fresh other (hle.trans hother)
  · intro other r hr hphase
    rcases requests_update hrequests hr with ⟨-,rfl⟩ | ⟨-,hr⟩
    · cases answer <;> exact hphase.elim
    · exact h.early other r hr hphase
  · intro other r call hr hcall'
    rcases requests_update hrequests hr with ⟨-,rfl⟩ | ⟨-,hr⟩
    · obtain rfl := Option.some.inj hcall'
      refine ⟨key,_,hkey,by rw [hcalls,Function.update_self]; rfl,?_⟩
      by_cases hstarted : answer = .started
      · subst hstarted
        exact .running _
      · change Fits t.keyed answer.phase _
        rw [Answer.phase_of_ne hstarted]
        exact .awaiting answer hstarted
    · obtain ⟨key',phase,hkey',hentry,hfits⟩ := h.linked other r call hr hcall'
      refine ⟨key',phase,hkey',?_,hfits.mono fun promise outcome ho => ?_⟩
      · rw [hcalls,Function.update_of_ne (h.sound.lt hentry).ne,hentry]
      · rw [hkeyed]
        exact h.sound.outcome_serve _ _ ho
  · intro a b r r' call ha hb hcall' hcall''
    rcases requests_update hrequests ha with ⟨rfl,rfl⟩ | ⟨hane,ha⟩ <;>
      rcases requests_update hrequests hb with ⟨rfl,rfl⟩ | ⟨hbne,hb⟩
    · rfl
    · exact absurd (hcall''.trans hcall'.symm) (hkept hb)
    · exact absurd (hcall'.trans hcall''.symm) (hkept ha)
    · exact h.once a b r r' call ha hb hcall' hcall''
  · intro call entry hentry
    rw [hcalls] at hentry
    rcases update_eq_some.mp hentry with ⟨rfl,-⟩ | ⟨-,hentry⟩
    · exact ⟨id,_,by rw [hrequests,Function.update_self],rfl⟩
    · obtain ⟨other,r,hr,hr'⟩ := h.owned call entry hentry
      have hne : other ≠ id := by
        rintro rfl
        exact absurd ((hold r hr).1.symm.trans hr') (by simp)
      exact ⟨other,r,by rw [hrequests,Function.update_of_ne hne,hr],hr'⟩
  · intro other r step hr hphase hcall'
    rcases requests_update hrequests hr with ⟨-,rfl⟩ | ⟨-,hr⟩
    · cases hcall'
    · exact h.keyless other r step hr hphase hcall'

theorem Wired.entered (h : Wired cfg s) {id next : ℕ} {request : VaultRequest}
    (hcomes : s.Comes id next request) (now : ℕ) :
    Wired cfg (enter cfg now id request { s with next := next }) := by
  have hentered := entered_enter cfg { s with next := next } now id request
  revert hentered
  generalize enter cfg now id request { s with next := next } = t
  intro hentered
  cases hentered with
  | locked busy => exact h.gated hcomes _ rfl rfl rfl nofun
  | keyless free key => exact h.gated hcomes _ rfl rfl rfl fun _ _ => key
  | keyed free key hkey answer store execute =>
    exact h.called hcomes hkey execute rfl rfl rfl

theorem operate_step {request : VaultRequest} {progress : Progress} {step step' : OperationStep}
    {ledger ledger' : Ledger} (h : operate cfg request progress step ledger = some (step',ledger')) :
    ∀ outcome, step ≠ .finished outcome := by
  rintro outcome rfl
  unfold operate at h
  split at h <;> simp_all

theorem Wired.operated (h : Wired cfg s) {id : ℕ} {progress : Progress} {request : VaultRequest}
    {step step' : OperationStep} {ledger : Ledger} (found : s.requests id = some request)
    (operating : request.phase = .operating step)
    (operate : operate cfg request progress step s.ledger = some (step',ledger)) :
    Wired cfg (put id { request with
      phase := .operating step'
      landed := progress.landed request.landed } { s with ledger := ledger }) := by
  have hid : id < s.next := by
    by_contra hno
    exact absurd (found.symm.trans (h.fresh id (not_lt.mp hno))) (by simp)
  refine h.replace rfl rfl le_rfl hid ?_ ?_ (fun hearly => hearly.elim) ?_ ?_
  · intro old hold
    obtain rfl := Option.some.inj (found.symm.trans hold)
    exact ⟨rfl,rfl,rfl⟩
  · intro hnone
    exact absurd (found.symm.trans hnone) (by simp)
  · intro old call phase hold _ _ hfits
    obtain rfl := Option.some.inj (found.symm.trans hold)
    rw [operating] at hfits
    cases hfits with
    | running _ => exact .running _
    | settled outcome => exact absurd rfl (operate_step operate outcome)
    | returned outcome => exact absurd rfl (operate_step operate outcome)
  · intro _ _ hcall
    exact h.keyless id request step found operating hcall

theorem Wired.settled (h : Wired cfg s) {id : ℕ} {request : VaultRequest} (now : ℕ)
    (found : s.requests id = some request) : Wired cfg (s.settle cfg now request) := by
  have howner : ∀ {other r call}, s.requests other = some r → r.call = some call →
      request.call = some call → r.phase = request.phase := by
    intro other r call hr hcall hcall'
    obtain rfl := h.once _ _ _ _ call hr found hcall hcall'
    rw [Option.some.inj (hr.symm.trans found)]
  unfold settle
  split
  · refine h.store _ (KeyedCalls.next_serve _ _ nofun) ?_
    rintro other r call outcome hr hcall (⟨_,_,⟨⟩,rfl⟩ | ⟨_,⟨⟩,-⟩)
    exact (howner hr hcall ‹_›).trans ‹_›
  · refine h.store _ (KeyedCalls.next_serve _ _ nofun) ?_
    rintro other r call outcome hr hcall (⟨_,_,⟨⟩,-⟩ | ⟨_,⟨⟩,rfl⟩)
    exact (howner hr hcall ‹_›).trans ‹_›
  · exact h

theorem Wired.released (h : Wired cfg s) (request : VaultRequest) :
    Wired cfg (s.release cfg request) := by
  unfold release
  split
  · refine h.store _ (KeyedCalls.next_serve _ _ nofun) ?_
    rintro _ _ _ _ _ _ (⟨_,_,⟨⟩,-⟩ | ⟨_,⟨⟩,-⟩)
  · exact h

/-- What the handler answers stands to what the call of the store has come to. -/
theorem Fits.respond {request : VaultRequest} {response : VaultResponse} {call : ℕ}
    {key fingerprint : String} {phase : Phase OperationResult OperationError}
    (h : s.settlement request = some response) (hcall : request.call = some call)
    (hentry : s.keyed.calls call = some ⟨key,fingerprint,phase⟩)
    (hfits : Fits s.keyed request.phase phase) : Fits s.keyed (.answered response) phase := by
  unfold settlement at h
  rw [hcall] at h
  cases hphase : request.phase with
  | operating step =>
    rw [hphase] at h hfits
    cases hfits with
    | running step => cases step <;> simp [KeyedCalls.response,hentry] at h
    | settled outcome => simp [KeyedCalls.response,hentry] at h
    | returned outcome =>
      simp only [KeyedCalls.response,hentry,Option.map_some,Option.some.injEq] at h
      exact .done response outcome h.symm
  | awaiting =>
    rw [hphase] at h hfits
    cases hfits with
    | awaiting answer found =>
      cases answer with
      | replayed result =>
        simp only [KeyedCalls.response,hentry,Option.map_some,Option.some.injEq] at h
        obtain rfl := h
        exact .replayed result
      | conflict =>
        simp only [hentry,Option.some.injEq] at h
        obtain rfl := h
        exact .conflict
      | waiting promise =>
        simp only [KeyedCalls.response,hentry,Option.map_eq_some_iff] at h
        obtain ⟨outcome,hknown,hsame⟩ := h
        exact .waited response promise outcome hknown hsame.symm
      | started => exact absurd rfl found
  | summing start => rw [hphase] at hfits; cases hfits
  | evaluating start used => rw [hphase] at hfits; cases hfits
  | answered before => simp [hphase] at h

theorem Wired.responded (h : Wired cfg s) {id : ℕ} {request : VaultRequest}
    {response : VaultResponse} (found : s.requests id = some request)
    (settlement : s.settlement request = some response) :
    Wired cfg (put id (request.at (.answered response))
      { s with inFlightWallets := s.inFlightWallets.erase (request.wallet cfg) }) := by
  have hid : id < s.next := by
    by_contra hno
    exact absurd (found.symm.trans (h.fresh id (not_lt.mp hno))) (by simp)
  refine h.replace rfl rfl le_rfl hid ?_ ?_ (fun hearly => hearly.elim) ?_ nofun
  · intro old hold
    obtain rfl := Option.some.inj (found.symm.trans hold)
    exact ⟨rfl,rfl,rfl⟩
  · intro hnone
    exact absurd (found.symm.trans hnone) (by simp)
  · intro old call phase hold hcall hentry hfits
    obtain rfl := Option.some.inj (found.symm.trans hold)
    exact Fits.respond settlement hcall hentry hfits

theorem Wired.serve (h : Wired cfg s) (event : VaultEvent) : Wired cfg (serve cfg event s) := by
  have hchange := change_serve cfg s event
  revert hchange
  generalize VaultServer.serve cfg event s = t
  intro hchange
  cases hchange with
  | settings _ _ keyed wallets ledger requests next =>
    refine ⟨?_,keyed ▸ h.sound,?_,?_,?_,?_,?_⟩
    · rw [requests,next]
      exact h.fresh
    · rw [requests]
      exact h.early
    · rw [requests,keyed]
      exact h.linked
    · rw [requests]
      exact h.once
    · rw [requests,keyed]
      exact h.owned
    · rw [requests]
      exact h.keyless
  | deleted _ deletion kind =>
    rcases kind with ⟨key,-,rfl⟩ | ⟨-,rfl⟩ <;>
    · refine h.store _ rfl ?_
      rintro _ _ _ _ _ _ (⟨_,_,⟨⟩,-⟩ | ⟨_,⟨⟩,-⟩)
  | gated _ id next request comes target outside accepted =>
    refine h.gated comes request.phase rfl rfl rfl fun step hstep => ?_
    rw [hstep] at outside
    exact outside.elim
  | entered _ now id next request comes enters => exact h.entered comes now
  | operated id progress request step step' ledger found operating operate =>
    exact h.operated found operating operate
  | settled id now request found => exact h.settled now found
  | released id request found => exact h.released request
  | responded id request response found settlement => exact h.responded found settlement

theorem run_wired (cfg : VaultConfig) (events : List VaultEvent) : Wired cfg (runFrom cfg events) :=
  Runs.invariant (fun _ event h => h.serve event) events (Wired.initial cfg)

section Store

/-- Where a step changes the store, the store serves one event. -/
theorem keyed_serve (cfg : VaultConfig) (s : VaultServer) (event : VaultEvent) :
    (serve cfg event s).keyed = s.keyed ∨
      ∃ stored, (serve cfg event s).keyed = s.keyed.serve cfg.ttlMs stored ∧
        (∀ key, KeyedCalls.Deletes key stored → event.Deletes key) ∧
        ∀ since last, event.Within since last → stored.Within since last := by
  have hchange := change_serve cfg s event
  revert hchange
  generalize serve cfg event s = t
  intro hchange
  cases hchange with
  | settings _ _ keyed wallets ledger requests next => exact Or.inl keyed
  | deleted _ deletion kind =>
    rcases kind with ⟨key,rfl,rfl⟩ | ⟨rfl,rfl⟩
    · exact Or.inr ⟨.deleteKey key,rfl,fun _ h => h,fun _ _ _ => trivial⟩
    · exact Or.inr ⟨.clear,rfl,fun _ h => h,fun _ _ _ => trivial⟩
  | gated _ id next request comes target outside accepted => exact Or.inl rfl
  | entered _ now id next request comes enters =>
    have hentered := entered_enter cfg { s with next := next } now id request
    revert hentered
    generalize enter cfg now id request { s with next := next } = t
    intro hentered
    cases hentered with
    | locked busy => exact Or.inl rfl
    | keyless free key => exact Or.inl rfl
    | keyed free key hkey answer store execute =>
      exact Or.inr ⟨.execute now key (request.fingerprint cfg),rfl,fun _ h => False.elim h,
        fun since last hwithin => hwithin now enters.time⟩
  | operated id progress request step step' ledger found operating operate => exact Or.inl rfl
  | settled id now request found =>
    unfold settle
    split
    · exact Or.inr ⟨.fulfil now _ _,rfl,fun _ h => False.elim h,
        fun since last hwithin => hwithin now rfl⟩
    · exact Or.inr ⟨.reject _ _,rfl,fun _ h => False.elim h,fun _ _ _ => trivial⟩
    · exact Or.inl rfl
  | released id request found =>
    unfold release
    split
    · exact Or.inr ⟨.release _,rfl,fun _ h => False.elim h,fun _ _ _ => trivial⟩
    · exact Or.inl rfl
  | responded id request response found settlement => exact Or.inl rfl

variable {since : ℕ} {key : String} {event : VaultEvent}

theorem sole_serve (h : s.keyed.Sole cfg.ttlMs since key) (hdelete : ¬ event.Deletes key)
    (hwithin : event.Within since (since+cfg.ttlMs)) :
    (serve cfg event s).keyed.Sole cfg.ttlMs since key := by
  rcases keyed_serve cfg s event with hsame | ⟨stored,hstored,hdeletes,htime⟩
  · rw [hsame]
    exact h
  · rw [hstored]
    exact h.serve (fun hd => hdelete (hdeletes key hd)) (htime _ _ hwithin)

theorem stores_serve {stored : StoredResponse String OperationResult}
    (hstored : s.keyed.Stores key stored) (h : s.keyed.Sole cfg.ttlMs since key)
    (hdelete : ¬ event.Deletes key) :
    (serve cfg event s).keyed.Stores key stored := by
  rcases keyed_serve cfg s event with hsame | ⟨_,hserve,hdeletes,-⟩
  · rw [hsame]
    exact hstored
  · rw [hserve]
    exact hstored.serve h fun hd => hdelete (hdeletes key hd)

theorem ownsPending_serve (h : s.keyed.OwnsPending key) (hdelete : ¬ event.Deletes key) :
    (serve cfg event s).keyed.OwnsPending key := by
  rcases keyed_serve cfg s event with hsame | ⟨_,hserve,hdeletes,-⟩
  · rw [hsame]
    exact h
  · rw [hserve]
    exact h.serve fun hd => hdelete (hdeletes key hd)

theorem inFlight_serve (h : Wired cfg s) {call : ℕ} {event : VaultEvent}
    (hflight : s.keyed.InFlight call key) :
    (serve cfg event s).keyed.InFlight call key ∨
      ∃ id request outcome, s.requests id = some request ∧ request.call = some call ∧
        request.phase = .operating (.finished outcome) ∧
        ∀ result, outcome = .ok result →
          ∃ stored, (serve cfg event s).keyed.Stores key stored := by
  obtain ⟨fingerprint,hcall⟩ := hflight
  have hlt := h.sound.lt hcall
  have hkept : ∀ stored, (∀ now result, stored ≠ .fulfil now call result) →
      (∀ error, stored ≠ .reject call error) →
      (s.keyed.serve cfg.ttlMs stored).InFlight call key := by
    intro stored hfulfil hreject
    rcases KeyedCalls.inFlight_serve cfg.ttlMs stored hlt ⟨fingerprint,hcall⟩ with
      hstays | ⟨now,result,hevent⟩ | ⟨error,hevent⟩
    · exact hstays
    · exact absurd hevent (hfulfil now result)
    · exact absurd hevent (hreject error)
  have hchange := change_serve cfg s event
  revert hchange
  generalize serve cfg event s = t
  intro hchange
  cases hchange with
  | settings _ _ keyed wallets ledger requests next =>
    rw [keyed]
    exact Or.inl ⟨fingerprint,hcall⟩
  | deleted _ deletion kind =>
    rcases kind with ⟨other,rfl,rfl⟩ | ⟨rfl,rfl⟩ <;> exact Or.inl ⟨fingerprint,hcall⟩
  | gated _ id next request comes target outside accepted => exact Or.inl ⟨fingerprint,hcall⟩
  | entered _ now id next request comes enters =>
    have hentered := entered_enter cfg { s with next := next } now id request
    revert hentered
    generalize enter cfg now id request { s with next := next } = t
    intro hentered
    cases hentered with
    | locked busy => exact Or.inl ⟨fingerprint,hcall⟩
    | keyless free key => exact Or.inl ⟨fingerprint,hcall⟩
    | keyed free other hkey answer store execute =>
      exact Or.inl (hkept (.execute now other (request.fingerprint cfg)) nofun nofun)
  | operated id progress request step step' ledger found operating operate =>
    exact Or.inl ⟨fingerprint,hcall⟩
  | settled id now request found =>
    unfold settle
    split
    · rename_i result other hphase hother
      by_cases heq : other = call
      · subst heq
        exact Or.inr ⟨id,request,_,found,hother,hphase,
          fun _ _ => ⟨_,KeyedCalls.stores_fulfil hcall⟩⟩
      · exact Or.inl (hkept _ (fun _ _ h => heq (StoreEvent.fulfil.inj h).2.1) nofun)
    · rename_i error other hphase hother
      by_cases heq : other = call
      · subst heq
        exact Or.inr ⟨id,request,_,found,hother,hphase,nofun⟩
      · exact Or.inl (hkept _ nofun fun _ h => heq (StoreEvent.reject.inj h).1)
    · exact Or.inl ⟨fingerprint,hcall⟩
  | released id request found =>
    unfold release
    split
    · exact Or.inl (hkept _ nofun nofun)
    · exact Or.inl ⟨fingerprint,hcall⟩
  | responded id request response found settlement => exact Or.inl ⟨fingerprint,hcall⟩

theorem requests_serve (cfg : VaultConfig) {event : VaultEvent} {id : ℕ}
    (hother : event.target s ≠ some id) : (serve cfg event s).requests id = s.requests id := by
  have hchange := change_serve cfg s event
  revert hchange
  generalize serve cfg event s = t
  intro hchange
  have hne : ∀ {other}, event.target s = some other → id ≠ other := by
    rintro other htarget rfl
    exact hother htarget
  cases hchange with
  | settings _ _ keyed wallets ledger requests next => rw [requests]
  | deleted _ deletion kind => rfl
  | gated _ other next request comes target outside accepted =>
    exact Function.update_of_ne (hne target) _ _
  | entered _ now other next request comes enters =>
    have hentered := entered_enter cfg { s with next := next } now other request
    revert hentered
    generalize enter cfg now other request { s with next := next } = t
    intro hentered
    cases hentered with
    | locked busy => exact Function.update_of_ne (hne enters.target) _ _
    | keyless free key => exact Function.update_of_ne (hne enters.target) _ _
    | keyed free key hkey answer store execute =>
      exact Function.update_of_ne (hne enters.target) _ _
  | operated other progress request step step' ledger found operating operate =>
    exact Function.update_of_ne (hne rfl) _ _
  | settled other now request found =>
    unfold settle
    split <;> rfl
  | released other request found =>
    unfold release
    split <;> rfl
  | responded other request response found settlement =>
    exact Function.update_of_ne (hne rfl) _ _

theorem answered_serve (h : Wired cfg s) (event : VaultEvent) {call : ℕ}
    {key fingerprint : String} {answer : Answer OperationResult} (hne : answer ≠ .started)
    (hcall : s.keyed.calls call = some ⟨key,fingerprint,.answered answer⟩) :
    (serve cfg event s).keyed.calls call = some ⟨key,fingerprint,.answered answer⟩ := by
  rcases keyed_serve cfg s event with hsame | ⟨stored,hserve,-⟩
  · rw [hsame]
    exact hcall
  · rw [hserve]
    exact (KeyedCalls.answered_serve _ _ (h.sound.lt hcall) hne).mpr hcall

theorem outcome_serve (h : Wired cfg s) (event : VaultEvent) {call : ℕ}
    {outcome : Except OperationError OperationResult}
    (hcall : s.keyed.outcome call = some outcome) :
    (serve cfg event s).keyed.outcome call = some outcome := by
  rcases keyed_serve cfg s event with hsame | ⟨stored,hserve,-⟩
  · rw [hsame]
    exact hcall
  · rw [hserve]
    exact h.sound.outcome_serve _ _ hcall

end Store

end VaultServer

end YieldVault.Backend
