import YieldVault.Backend.WalletLocks

/-! Retries of a request that has been answered. A retry gets the stored response if it
comes to the handler with the same body to the last field, its wallet free and, where it is
a withdrawal, the daily limit not used up by then. -/
namespace YieldVault.Backend

/-- The body that leaves the gate of signed actions. -/
def signedBody (cfg : VaultConfig) (body : VaultOperationBody) : VaultOperationBody :=
  if cfg.signatureEnforced then
    { body with walletAddress := cfg.normalizeWalletAddress body.walletAddress }
  else body

/-- The request is sent again, with a nonce and a signature that are valid where they are
asked for, and its wallet is on the allowlist. -/
structure IsRetry (cfg : VaultConfig) (first : VaultRequest) (allowedAddresses : Finset String)
    (route : VaultRoute) (headers : VaultHeaders) (signed : Except SignedActionError Unit)
    (body : VaultOperationBody) : Prop where
  route : route = first.route
  key : headers.key = first.key
  signed : signed = .ok ()
  present : cfg.signatureEnforced = true → body.walletAddress ≠ "" ∧
    truthy body.nonce ≠ none ∧ truthy body.signature ≠ none
  wallet : cfg.normalizeWalletAddress (signedBody cfg body).walletAddress = first.wallet cfg
  amount : body.amount = first.body.amount
  asset : body.asset = first.body.asset
  email : body.email = first.body.email
  referralCode : body.referralCode = first.body.referralCode
  allowed : cfg.allowlistEnabled = true →
    isAllowed cfg allowedAddresses (signedBody cfg body).walletAddress = true

/-- Where request `retry` arrives, the handler has let in request `id`, and it is a retry of
that one. -/
def ArrivesAsRetry (cfg : VaultConfig) (id retry : ℕ) (s : VaultServer) : VaultEvent → Prop
  | .arrive _ route headers body signed _ => s.next = retry → ∃ first, s.requests id = some first ∧
      ¬ first.phase.isEarly ∧ IsRetry cfg first s.allowedAddresses route headers signed body
  | _ => True

/-- The retry has the body of the first request to the last field, the flag of its route is
on, it comes to the handler while its wallet is free, and a withdrawal is still within the
daily limit and does not ask for an override of it. -/
def ClearForRetry (cfg : VaultConfig) (id retry : ℕ) (s : VaultServer) : VaultEvent → Prop
  | .arrive _ route headers body _ flagEnabled => s.next = retry →
      ∀ first, s.requests id = some first →
        signedBody cfg body = first.body ∧ (route = .depositsV2 → flagEnabled = true) ∧
          (route ≠ .withdrawals → first.wallet cfg ∉ s.inFlightWallets) ∧
          (route = .withdrawals → headers.overrideRequested = false)
  | .proceed other (.evaluate now) => other = retry → ∀ request start used,
      s.requests retry = some request → request.phase = .evaluating start used →
      withinDailyLimit cfg s.overrides now used request.body = true ∧
        request.wallet cfg ∉ s.inFlightWallets
  | _ => True

section Gates

variable {cfg : VaultConfig} {first : VaultRequest} {allowed : Finset String} {route : VaultRoute}
  {headers : VaultHeaders} {signed : Except SignedActionError Unit} {body : VaultOperationBody}

theorem walletAddress_ne_empty (h : vaultOperationSchema cfg body = true) :
    body.walletAddress ≠ "" := by
  intro hempty
  simp only [vaultOperationSchema,Bool.and_eq_true] at h
  obtain ⟨⟨⟨⟨⟨-,hwallet⟩,-⟩,-⟩,-⟩,-⟩ := h
  rw [hempty] at hwallet
  exact absurd hwallet (by decide)

theorem IsRetry.allowlist (h : IsRetry cfg first allowed route headers signed body)
    (hne : (signedBody cfg body).walletAddress ≠ "") :
    allowlistMiddleware cfg allowed headers (signedBody cfg body) = .ok () := by
  have htruthy : truthy (some (signedBody cfg body).walletAddress) =
      some (signedBody cfg body).walletAddress := by simp [truthy,hne]
  unfold allowlistMiddleware
  cases henabled : cfg.allowlistEnabled with
  | false => rfl
  | true => simp [htruthy,h.allowed henabled]

/-- A retry with the same body passes all gates up to the daily limit. -/
theorem IsRetry.gates (h : IsRetry cfg first allowed route headers signed body)
    (hbody : signedBody cfg body = first.body)
    (hfirst : vaultOperationSchema cfg first.body = true) {flagEnabled : Bool}
    (hflag : route = .depositsV2 → flagEnabled = true)
    (hoverride : route = .withdrawals → headers.overrideRequested = false) :
    route.gates cfg allowed headers signed flagEnabled body = .ok first.body := by
  have hsigned : requireSignedWalletAction cfg signed body = .ok (signedBody cfg body) := by
    unfold requireSignedWalletAction signedBody
    rw [h.signed]
    cases henforced : cfg.signatureEnforced with
    | false => rfl
    | true =>
      obtain ⟨hwallet,hnonce,hsignature⟩ := h.present henforced
      simp [hwallet,hnonce,hsignature]
  have hallowed := h.allowlist (hbody ▸ walletAddress_ne_empty hfirst)
  have hgate : route.gate cfg allowed headers flagEnabled (signedBody cfg body) = .ok () := by
    cases route with
    | deposits => exact hallowed
    | withdrawals => exact hallowed
    | depositsV2 => simp [VaultRoute.gate,requireFlag,hflag rfl]
  rw [VaultServer.gates_eq hsigned,hgate,hbody,hfirst]
  have hdenied : ¬ (route = .withdrawals ∧ headers.overrideRequested = true) := by
    rintro ⟨hroute,hrequested⟩
    exact absurd (hrequested.symm.trans (hoverride hroute)) (by decide)
  simp only [if_true]
  rw [if_neg hdenied]

end Gates

/-- What a request may become in one step. -/
structure VaultRequest.Follows (old new : VaultRequest) : Prop where
  key : new.key = old.key
  body : new.body = old.body
  call : ∀ call, old.call = some call → new.call = some call
  landed : (∀ step, old.phase ≠ .operating step) → new.landed = old.landed
  inside : old.phase.isInside → new.phase.isInside ∨ ∃ response, new.phase = .answered response
  answered : ∀ response, old.phase = .answered response → new.phase = .answered response

theorem VaultRequest.Follows.refl (request : VaultRequest) : request.Follows request :=
  ⟨rfl,rfl,fun _ h => h,fun _ => rfl,Or.inl,fun _ h => h⟩

theorem VaultRequest.Follows.ofEarly {request : VaultRequest} (h : request.phase.isEarly)
    (hcall : request.call = none) (phase : RequestPhase) (call : Option ℕ) :
    request.Follows { request with phase := phase, call := call } := by
  refine ⟨rfl,rfl,fun _ hsome => absurd (hcall.symm.trans hsome) (by simp),fun _ => rfl,
    fun hinside => ?_,fun response hphase => ?_⟩
  · cases hphase : request.phase <;> rw [hphase] at h hinside <;>
      first | exact h.elim | exact hinside.elim
  · rw [hphase] at h
    exact h.elim

namespace VaultServer

variable {cfg : VaultConfig} {s : VaultServer}

/-- A request stays with its key and body, goes forward, and keeps its answer. -/
theorem follows_serve (h : Wired cfg s) (event : VaultEvent) {id : ℕ} {old : VaultRequest}
    (found : s.requests id = some old) :
    ∃ new, (serve cfg event s).requests id = some new ∧ old.Follows new := by
  have hchange := change_serve cfg s event
  revert hchange
  generalize serve cfg event s = t
  intro hchange
  have hput : ∀ {t : VaultServer} {other : ℕ} {request : VaultRequest},
      t.requests = Function.update s.requests other (some request) →
      (s.requests other = some old → old.Follows request) →
      ∃ new, t.requests id = some new ∧ old.Follows new := by
    intro t other request hrequests hfollows
    rw [hrequests]
    by_cases heq : id = other
    · subst heq
      exact ⟨request,Function.update_self _ _ _,hfollows found⟩
    · exact ⟨old,(Function.update_of_ne heq _ _).trans found,.refl old⟩
  have hcomes : ∀ {other next request}, s.Comes other next request →
      ∀ phase call, s.requests other = some old →
      old.Follows { request with phase := phase, call := call } := by
    intro other next request hcomes phase call hother
    obtain ⟨-,-,-,-,hold⟩ := hcomes.early h
    obtain ⟨hnone,-,hearly,hrequest⟩ := hold old hother
    rw [hrequest]
    exact .ofEarly hearly hnone phase call
  cases hchange with
  | settings _ _ keyed wallets ledger requests next => exact ⟨old,requests ▸ found,.refl old⟩
  | deleted _ deletion kind => exact ⟨old,found,.refl old⟩
  | gated _ other next request comes target outside accepted =>
    exact hput rfl (hcomes comes request.phase request.call)
  | entered _ now other next request comes enters =>
    have hentered := entered_enter cfg { s with next := next } now other request
    revert hentered
    generalize enter cfg now other request { s with next := next } = t
    intro hentered
    cases hentered with
    | locked busy => exact hput rfl (hcomes comes _ request.call)
    | keyless free key => exact hput rfl (hcomes comes _ request.call)
    | keyed free key hkey answer store execute => exact hput rfl (hcomes comes _ _)
  | operated other progress request step step' ledger found' operating operate =>
    refine hput rfl fun hother => ?_
    obtain rfl := Option.some.inj (found'.symm.trans hother)
    exact ⟨rfl,rfl,fun _ h => h,fun hno => absurd operating (hno step),fun _ => Or.inl trivial,
      fun response hphase => absurd (operating.symm.trans hphase) (by simp)⟩
  | settled other now request found' =>
    unfold settle
    split <;> exact ⟨old,found,.refl old⟩
  | released other request found' =>
    unfold release
    split <;> exact ⟨old,found,.refl old⟩
  | responded other request response found' settlement =>
    refine hput rfl fun hother => ?_
    obtain rfl := Option.some.inj (found'.symm.trans hother)
    refine ⟨rfl,rfl,fun _ h => h,fun _ => rfl,fun _ => Or.inr ⟨response,rfl⟩,fun before hphase => ?_⟩
    have hinside := isInside_of_settlement settlement
    rw [hphase] at hinside
    exact hinside.elim

theorem next_enter (cfg : VaultConfig) (s : VaultServer) (now id : ℕ) (request : VaultRequest) :
    (s.enter cfg now id request).next = s.next := by
  have hentered := entered_enter cfg s now id request
  revert hentered
  generalize s.enter cfg now id request = t
  intro hentered
  cases hentered <;> rfl

theorem next_proceed (cfg : VaultConfig) (s : VaultServer) (id : ℕ) (progress : Progress)
    (request : VaultRequest) : (s.proceed cfg id progress request).next = s.next := by
  unfold proceed
  split
  · rfl
  · unfold evaluate
    split_ifs
    · exact next_enter cfg s _ id request
    · rfl
  · unfold settle
    split <;> rfl
  · unfold release
    split <;> rfl
  · unfold respond
    split <;> rfl
  · split <;> rfl
  · rfl

theorem next_arrive (cfg : VaultConfig) (s : VaultServer) (now : ℕ) (route : VaultRoute)
    (headers : VaultHeaders) (body : VaultOperationBody) (signed : Except SignedActionError Unit)
    (flagEnabled : Bool) :
    (s.arrive cfg now route headers body signed flagEnabled).next = s.next+1 := by
  unfold arrive
  split
  · rfl
  · dsimp only
    split_ifs
    · rfl
    · exact next_enter cfg _ _ _ _

theorem next_serve (cfg : VaultConfig) (s : VaultServer) (event : VaultEvent) :
    (serve cfg event s).next = s.next ∨ event.target s = some s.next ∧
      (serve cfg event s).next = s.next+1 ∧ ∃ now route headers body signed flagEnabled,
        event = .arrive now route headers body signed flagEnabled := by
  cases event with
  | arrive now route headers body signed flagEnabled =>
    exact Or.inr ⟨rfl,next_arrive cfg s now route headers body signed flagEnabled,
      now,route,headers,body,signed,flagEnabled,rfl⟩
  | proceed id progress =>
    refine Or.inl ?_
    unfold serve
    dsimp only
    split
    · exact next_proceed cfg s id progress _
    · rfl
  | _ => exact Or.inl rfl

/-- The body of a request that the gates have let through is one that the schema accepts. -/
def Accepted (cfg : VaultConfig) (s : VaultServer) : Prop :=
  ∀ id request, s.requests id = some request → request.phase.isEarly ∨ request.phase.isInside →
    vaultOperationSchema cfg request.body = true

theorem Accepted.serve (ha : Accepted cfg s) (event : VaultEvent) :
    Accepted cfg (serve cfg event s) := by
  have hchange := change_serve cfg s event
  revert hchange
  generalize VaultServer.serve cfg event s = t
  intro hchange
  have hput : ∀ {t : VaultServer} {other : ℕ} {request : VaultRequest},
      t.requests = Function.update s.requests other (some request) →
      (request.phase.isEarly ∨ request.phase.isInside →
        vaultOperationSchema cfg request.body = true) → Accepted cfg t := by
    intro t other request hrequests hbody id r hr hphase
    rw [hrequests] at hr
    rcases update_eq_some.mp hr with ⟨-,hnew⟩ | ⟨-,hold⟩
    · obtain rfl := Option.some.inj hnew
      exact hbody hphase
    · exact ha id r hold hphase
  cases hchange with
  | settings _ _ keyed wallets ledger requests next =>
    unfold Accepted
    rw [requests]
    exact ha
  | deleted _ deletion kind => exact ha
  | gated _ id next request comes target outside accepted =>
    refine hput rfl fun hphase => ?_
    rcases hphase with hearly | hinside
    · rcases accepted hearly with hbody | ⟨early,hfound,hearly',hsame⟩
      · exact hbody
      · exact hsame ▸ ha id early hfound (Or.inl hearly')
    · exact absurd hinside (not_isInside_of_isOutside outside)
  | entered _ now id next request comes enters =>
    have hbody : vaultOperationSchema cfg request.body = true := by
      cases enters with
      | arrives now route headers body body' signed flagEnabled deposit gates =>
        exact gates_accept gates
      | evaluated _ now start used _ found phase within =>
        exact ha id request found (Or.inl (by rw [phase]; trivial))
    have hentered := entered_enter cfg { s with next := next } now id request
    revert hentered
    generalize enter cfg now id request { s with next := next } = t
    intro hentered
    cases hentered with
    | locked busy => exact hput rfl fun _ => hbody
    | keyless free key => exact hput rfl fun _ => hbody
    | keyed free key hkey answer store execute => exact hput rfl fun _ => hbody
  | operated id progress request step step' ledger found operating operate =>
    exact hput rfl fun _ => ha id request found (Or.inr (by rw [operating]; trivial))
  | settled id now request found =>
    unfold settle
    split <;> exact ha
  | released id request found =>
    unfold release
    split <;> exact ha
  | responded id request response found settlement =>
    exact hput rfl fun hphase => hphase.elim (fun h => h.elim) (fun h => h.elim)

section Waiting

variable {j now : ℕ} {key : Option String} {body : VaultOperationBody} {event : VaultEvent}

def Waiting (j : ℕ) (key : Option String) (body : VaultOperationBody) (s : VaultServer) : Prop :=
  ∃ request, s.requests j = some request ∧ request.phase.isEarly ∧ request.key = key ∧
    request.body = body

theorem Waiting.serve (hw : Wired cfg s) (h : s.Waiting j key body) (event : VaultEvent) :
    (serve cfg event s).Waiting j key body ∨
      ∃ now start used request, event = .proceed j (.evaluate now) ∧
        s.requests j = some request ∧ request.phase = .evaluating start used ∧
        request.key = key ∧ request.body = body ∧
        VaultServer.serve cfg event s = s.evaluate cfg now j start used request := by
  obtain ⟨request,found,hearly,hkey,hbody⟩ := h
  by_cases htarget : event.target s = some j
  · obtain ⟨hcall,-⟩ := hw.early j request found hearly
    cases event with
    | arrive now route headers body' signed flagEnabled =>
      obtain rfl := Option.some.inj htarget
      exact absurd (found.symm.trans (hw.fresh _ le_rfl)) (by simp)
    | proceed id progress =>
      obtain rfl := Option.some.inj htarget
      have hserve : VaultServer.serve cfg (.proceed id progress) s =
          s.proceed cfg id progress request := by simp only [VaultServer.serve,found]
      rw [hserve]
      cases hphase : request.phase with
      | summing start =>
        refine Or.inl ?_
        cases progress <;>
          simp only [proceed,hphase,settle,release,respond,settlement,hcall] <;>
          first
            | exact ⟨request,found,hearly,hkey,hbody⟩
            | exact ⟨_,Function.update_self _ _ _,trivial,hkey,hbody⟩
      | evaluating start used =>
        cases progress with
        | evaluate now =>
          refine Or.inr ⟨now,start,used,request,rfl,found,hphase,hkey,hbody,?_⟩
          simp only [proceed,hphase]
        | _ =>
          refine Or.inl ⟨request,?_,hearly,hkey,hbody⟩
          simp only [proceed,hphase,settle,release,respond,settlement,hcall,found]
      | _ =>
        rw [hphase] at hearly
        exact hearly.elim
    | _ => cases htarget
  · exact Or.inl ⟨request,(requests_serve cfg htarget).trans found,hearly,hkey,hbody⟩

end Waiting

theorem arrive_retry (now : ℕ) {first : VaultRequest} {route : VaultRoute} {headers : VaultHeaders}
    {body : VaultOperationBody} {signed : Except SignedActionError Unit} {flagEnabled : Bool}
    (hretry : IsRetry cfg first s.allowedAddresses route headers signed body)
    (hbody : signedBody cfg body = first.body)
    (hfirst : vaultOperationSchema cfg first.body = true)
    (hflag : route = .depositsV2 → flagEnabled = true)
    (hoverride : route = .withdrawals → headers.overrideRequested = false) :
    (s.arrive cfg now route headers body signed flagEnabled).Waiting s.next first.key first.body ∨
      route ≠ .withdrawals ∧ s.arrive cfg now route headers body signed flagEnabled =
        enter cfg now s.next ⟨route,first.key,first.body,.awaiting,none,none⟩
          { s with next := s.next+1 } := by
  have hgates := hretry.gates hbody hfirst hflag hoverride
  by_cases hroute : route = .withdrawals
  · refine Or.inl ⟨⟨route,headers.key,first.body,.summing (getUtcDayStart now),none,none⟩,?_,
      trivial,hretry.key,rfl⟩
    simp only [arrive,hgates]
    rw [if_pos hroute]
    exact Function.update_self _ _ _
  · refine Or.inr ⟨hroute,?_⟩
    simp only [arrive,hgates]
    rw [if_neg hroute,hretry.key]

variable {i j since : ℕ} {key : String} {body : VaultOperationBody} {result : OperationResult}
  {event : VaultEvent}

/-- As long as the first request has no answer, its retry has not come to the handler. -/
def RetryWaits (i j : ℕ) (s : VaultServer) : Prop :=
  (∃ first response, s.requests i = some first ∧ first.phase = .answered response) ∨
    s.next ≤ j ∨ ∃ first, s.requests i = some first ∧ first.phase.isInside ∧
      s.Waiting j first.key first.body

structure Running (cfg : VaultConfig) (i j : ℕ) (key : String) (s : VaultServer) : Prop where
  wired : Wired cfg s
  locked : Locked cfg s
  accepted : Accepted cfg s
  own : s.keyed.OwnsPending key
  retry : s.RetryWaits i j

theorem Running.initial (cfg : VaultConfig) (i j : ℕ) (key : String) : Running cfg i j key {} := by
  have hrequests : ∀ {id : ℕ} {request : VaultRequest},
      ({} : VaultServer).requests id ≠ some request := nofun
  have hown : ({} : VaultServer).keyed.OwnsPending key := nofun
  exact ⟨.initial cfg,.initial cfg,fun _ _ h => absurd h hrequests,hown,
    Or.inr (Or.inl (Nat.zero_le j))⟩

theorem retryWaits_of_answered (hw : Wired cfg s) (event : VaultEvent) {first : VaultRequest}
    {response : VaultResponse} (hfirst : s.requests i = some first)
    (hphase : first.phase = .answered response) : (serve cfg event s).RetryWaits i j := by
  obtain ⟨new,hnew,hfollows⟩ := follows_serve hw event hfirst
  exact Or.inl ⟨new,response,hnew,hfollows.answered response hphase⟩

theorem retryWaits_of_inside (hw : Wired cfg s) (event : VaultEvent) {first : VaultRequest}
    (hfirst : s.requests i = some first) (hphase : first.phase.isInside)
    (hwaiting : (serve cfg event s).Waiting j first.key first.body) :
    (serve cfg event s).RetryWaits i j := by
  obtain ⟨new,hnew,hfollows⟩ := follows_serve hw event hfirst
  rcases hfollows.inside hphase with hnew' | ⟨response,hnew'⟩
  · exact Or.inr (Or.inr ⟨new,hnew,hnew',hfollows.key ▸ hfollows.body ▸ hwaiting⟩)
  · exact Or.inl ⟨new,response,hnew,hnew'⟩

/-- A retry that arrives meanwhile waits for the daily limit, since the wallet is locked. -/
theorem retryWaits_arrive (hw : Wired cfg s) (hl : Locked cfg s) (ha : Accepted cfg s) {now : ℕ}
    {route : VaultRoute} {headers : VaultHeaders} {body : VaultOperationBody}
    {signed : Except SignedActionError Unit} {flagEnabled : Bool}
    (hretry : ArrivesAsRetry cfg i s.next s (.arrive now route headers body signed flagEnabled))
    (hclear : ClearForRetry cfg i s.next s (.arrive now route headers body signed flagEnabled)) :
    (serve cfg (.arrive now route headers body signed flagEnabled) s).RetryWaits i s.next := by
  obtain ⟨first,hfirst,hearly,hisRetry⟩ := hretry rfl
  obtain ⟨hbody,hflag,hfree,hoverride⟩ := hclear rfl first hfirst
  have hinside : first.phase.isInside → (VaultServer.serve cfg
      (.arrive now route headers body signed flagEnabled) s).RetryWaits i s.next := by
    intro hin
    have hheld := hl.held i first hfirst hin
    rcases arrive_retry now hisRetry hbody (ha i first hfirst (Or.inr hin)) hflag
        hoverride with
      hwaiting | ⟨hroute,-⟩
    · exact retryWaits_of_inside hw _ hfirst hin hwaiting
    · exact absurd hheld (hfree hroute)
  cases hphase : first.phase with
  | answered response => exact retryWaits_of_answered hw _ hfirst hphase
  | summing start => exact absurd (by rw [hphase]; trivial) hearly
  | evaluating start used => exact absurd (by rw [hphase]; trivial) hearly
  | operating step => exact hinside (by rw [hphase]; trivial)
  | awaiting => exact hinside (by rw [hphase]; trivial)

theorem RetryWaits.serve (hw : Wired cfg s) (hl : Locked cfg s) (ha : Accepted cfg s)
    (h : s.RetryWaits i j) (hretry : ArrivesAsRetry cfg i j s event)
    (hclear : ClearForRetry cfg i j s event) : (serve cfg event s).RetryWaits i j := by
  rcases h with ⟨first,response,hfirst,hphase⟩ | hnext | ⟨first,hfirst,hphase,hwaiting⟩
  · exact retryWaits_of_answered hw event hfirst hphase
  · rcases next_serve cfg s event with hsame | ⟨-,hsucc,now,_,_,_,_,_,rfl⟩
    · exact Or.inr (Or.inl (hsame ▸ hnext))
    · rcases hnext.lt_or_eq with hlt | rfl
      · exact Or.inr (Or.inl (hsucc ▸ hlt))
      · exact retryWaits_arrive hw hl ha hretry hclear
  · rcases hwaiting.serve hw event with
      hwaiting | ⟨now,start,used,request,rfl,hfound,hrequest,-,hbody,-⟩
    · exact retryWaits_of_inside hw event hfirst hphase hwaiting
    · have hheld := hl.held i first hfirst hphase
      have hfree := (hclear rfl request start used hfound hrequest).2
      rw [VaultRequest.wallet,hbody] at hfree
      exact absurd hheld hfree

theorem Running.serve (h : Running cfg i j key s) (hdelete : ¬ event.Deletes key)
    (hretry : ArrivesAsRetry cfg i j s event) (hclear : ClearForRetry cfg i j s event) :
    Running cfg i j key (serve cfg event s) :=
  ⟨h.wired.serve event,h.locked.serve event,h.accepted.serve event,
    ownsPending_serve h.own hdelete,h.retry.serve h.wired h.locked h.accepted hretry hclear⟩

/-- The call of the store that the request has made is answered with the result. -/
def Replayed (j : ℕ) (key : String) (result : OperationResult) (s : VaultServer) : Prop :=
  ∃ request call fingerprint, s.requests j = some request ∧ request.call = some call ∧
    request.landed = none ∧
    s.keyed.calls call = some ⟨key,fingerprint,.answered (.replayed result)⟩

theorem Replayed.phase (hw : Wired cfg s) {request : VaultRequest} {call : ℕ}
    {fingerprint : String} (found : s.requests j = some request) (hcall : request.call = some call)
    (hentry : s.keyed.calls call = some ⟨key,fingerprint,.answered (.replayed result)⟩) :
    request.phase = .awaiting ∨ request.phase = .answered (.created result true) := by
  obtain ⟨_,_,-,hentry',hfits⟩ := hw.linked j request call found hcall
  obtain ⟨-,-,rfl⟩ := Call.mk.inj (Option.some.inj (hentry.symm.trans hentry'))
  cases hphase : request.phase with
  | awaiting => exact Or.inl rfl
  | answered response =>
    rw [hphase] at hfits
    cases hfits
    exact Or.inr rfl
  | _ => rw [hphase] at hfits; cases hfits

theorem Replayed.serve (hw : Wired cfg s) (h : s.Replayed j key result) (event : VaultEvent) :
    (serve cfg event s).Replayed j key result := by
  obtain ⟨request,call,fingerprint,found,hcall,hlanded,hentry⟩ := h
  obtain ⟨new,hnew,hfollows⟩ := follows_serve hw event found
  have hidle : ∀ step, request.phase ≠ .operating step := by
    intro step hstep
    rcases Replayed.phase hw found hcall hentry with hphase | hphase <;>
    · rw [hstep] at hphase
      cases hphase
  exact ⟨new,call,fingerprint,hnew,hfollows.call call hcall,(hfollows.landed hidle).trans hlanded,
    answered_serve hw event nofun hentry⟩

theorem enter_replayed {now id : ℕ} {request : VaultRequest} (hkey : request.key = some key)
    (hlanded : request.landed = none) (hsole : s.keyed.Sole cfg.ttlMs since key)
    (hstores : s.keyed.Stores key ⟨request.fingerprint cfg,result⟩)
    (hnow : now ≤ since+cfg.ttlMs) (hfree : s.WalletFree cfg request) :
    (s.enter cfg now id request).Replayed id key result := by
  obtain ⟨entry,hentry,hvalue⟩ := hstores
  have hget : s.keyed.store.getCompleted now key = some ⟨request.fingerprint cfg,result⟩ :=
    hvalue ▸ hsole.getCompleted hnow hentry
  have hentered := entered_enter cfg s now id request
  revert hentered
  generalize s.enter cfg now id request = t
  intro hentered
  cases hentered with
  | locked busy => exact absurd busy (not_or.mpr hfree)
  | keyless free key' => exact absurd (key'.symm.trans hkey) (by simp)
  | keyed free other hkey' answer store execute =>
    obtain rfl := Option.some.inj (hkey.symm.trans hkey')
    have hanswer : answer = .replayed result := by
      rcases KeyedCalls.execute_cases cfg.ttlMs now key (request.fingerprint cfg)
        s.keyed.next s.keyed.store with ⟨stored,hstored,⟨-,hex⟩ | ⟨hne,-⟩⟩ | ⟨hnone,-⟩
      · obtain rfl := Option.some.inj (hget.symm.trans hstored)
        exact (Prod.mk.inj (execute.symm.trans hex)).1
      · obtain rfl := Option.some.inj (hget.symm.trans hstored)
        exact absurd rfl hne
      · exact absurd (hget.symm.trans hnone) (by simp)
    subst hanswer
    refine ⟨_,s.keyed.next,request.fingerprint cfg,Function.update_self _ _ _,rfl,hlanded,?_⟩
    change (s.keyed.serve cfg.ttlMs (.execute now key (request.fingerprint cfg))).calls
      s.keyed.next = _
    rw [KeyedCalls.serve_execute execute]
    exact Function.update_self _ _ _

/-- The result of the first request is stored, and its retry gets it. -/
structure Replaying (cfg : VaultConfig) (since i j : ℕ) (key : String)
    (body : VaultOperationBody) (result : OperationResult) (s : VaultServer) : Prop where
  wired : Wired cfg s
  sole : s.keyed.Sole cfg.ttlMs since key
  stores : s.keyed.Stores key ⟨cfg.generateFingerprint body,result⟩
  schema : vaultOperationSchema cfg body = true
  named : cfg.normalizeWalletAddress body.walletAddress ≠ ""
  first : ∃ first call, s.requests i = some first ∧ first.key = some key ∧ first.body = body ∧
    first.call = some call ∧ s.keyed.outcome call = some (.ok result)
  retry : s.next ≤ j ∨ s.Waiting j (some key) body ∨ s.Replayed j key result

theorem Replaying.serve (h : Replaying cfg since i j key body result s)
    (hdelete : ¬ event.Deletes key) (hwithin : event.Within since (since+cfg.ttlMs))
    (hretry : ArrivesAsRetry cfg i j s event) (hclear : ClearForRetry cfg i j s event) :
    Replaying cfg since i j key body result (serve cfg event s) := by
  refine ⟨h.wired.serve event,sole_serve h.sole hdelete hwithin,
    stores_serve h.stores h.sole hdelete,h.schema,h.named,?_,?_⟩
  · obtain ⟨first,call,hfirst,hkey,hbody,hcall,houtcome⟩ := h.first
    obtain ⟨new,hnew,hfollows⟩ := follows_serve h.wired event hfirst
    exact ⟨new,call,hnew,hfollows.key.trans hkey,hfollows.body.trans hbody,
      hfollows.call call hcall,outcome_serve h.wired event houtcome⟩
  · rcases h.retry with hnext | hwaiting | hreplayed
    · rcases next_serve cfg s event with
        hsame | ⟨-,hsucc,now,route,headers,body',signed,flagEnabled,rfl⟩
      · exact Or.inl (hsame ▸ hnext)
      · rcases hnext.lt_or_eq with hlt | hj
        · exact Or.inl (hsucc ▸ hlt)
        · obtain ⟨first,_,hfirst,hkey,rfl,-⟩ := h.first
          obtain ⟨first',hfirst',-,hisRetry⟩ := hretry hj
          obtain rfl := Option.some.inj (hfirst.symm.trans hfirst')
          obtain ⟨hbody,hflag,hfree,hoverride⟩ := hclear hj first hfirst
          rcases arrive_retry now hisRetry hbody h.schema hflag hoverride with
            hwaiting | ⟨hroute,harrive⟩
          · exact Or.inr (Or.inl (hj ▸ hkey ▸ hwaiting))
          · refine Or.inr (Or.inr ?_)
            rw [VaultServer.serve,harrive,← hj]
            exact enter_replayed hkey rfl h.sole h.stores (hwithin now rfl).2
              ⟨h.named,hfree hroute⟩
    · rcases hwaiting.serve h.wired event with
        hwaiting | ⟨now,start,used,request,rfl,hfound,hrequest,hkey,rfl,hserve⟩
      · exact Or.inr (Or.inl hwaiting)
      · obtain ⟨hlimit,hfree⟩ := hclear rfl request start used hfound hrequest
        have hlanded := (h.wired.early j request hfound (by rw [hrequest]; trivial)).2
        refine Or.inr (Or.inr ?_)
        rw [hserve,evaluate,if_pos hlimit]
        exact enter_replayed hkey hlanded h.sole h.stores (hwithin now rfl).2 ⟨h.named,hfree⟩
    · exact Or.inr (Or.inr (hreplayed.serve h.wired event))

/-- The operation of the request has come to its result, which is not stored yet. -/
def CompletesAs (i : ℕ) (key : String) (result : OperationResult) (s : VaultServer) : Prop :=
  ∃ request call, s.requests i = some request ∧ request.key = some key ∧
    request.call = some call ∧ request.phase = .operating (.finished (.ok result)) ∧
    s.keyed.InFlight call key

theorem Running.completes (h : Running cfg i j key s) (hcompletes : s.CompletesAs i key result)
    (since : ℕ) : ∃ body, Replaying cfg since i j key body result
      (VaultServer.serve cfg (.proceed i (.settle since)) s) := by
  obtain ⟨request,call,hfound,hkey,hcall,hphase,⟨fingerprint,hflight⟩⟩ := hcompletes
  have hinside : request.phase.isInside := by
    rw [hphase]
    trivial
  have hserve : VaultServer.serve cfg (.proceed i (.settle since)) s =
      { s with keyed := s.keyed.serve cfg.ttlMs (.fulfil since call result) } := by
    simp only [VaultServer.serve,hfound,proceed,settle,hphase,hcall]
  have hfingerprint : fingerprint = cfg.generateFingerprint request.body := by
    obtain ⟨_,_,-,hentry,-⟩ := h.wired.linked i request call hfound hcall
    exact (Call.mk.inj (Option.some.inj (hflight.symm.trans hentry))).2.1
  have hnamed : request.wallet cfg ≠ "" := by
    intro hempty
    exact h.locked.named (hempty ▸ h.locked.held i request hfound hinside)
  have hwired := h.wired.serve (.proceed i (.settle since))
  rw [hserve] at hwired ⊢
  refine ⟨request.body,hwired,h.own.sole_fulfil hflight,?_,
    h.accepted i request hfound (Or.inr hinside),hnamed,⟨request,call,hfound,hkey,rfl,hcall,?_⟩,?_⟩
  · rw [← hfingerprint]
    exact KeyedCalls.stores_fulfil hflight
  · simp [KeyedCalls.serve_fulfil hflight,KeyedCalls.outcome,Phase.outcome]
  · rcases h.retry with ⟨first,response,hfirst,hanswered⟩ | hnext | ⟨first,hfirst,-,hwaiting⟩
    · obtain rfl := Option.some.inj (hfirst.symm.trans hfound)
      exact absurd (hphase.symm.trans hanswered) (by simp)
    · exact Or.inl hnext
    · obtain rfl := Option.some.inj (hfirst.symm.trans hfound)
      exact Or.inr (Or.inl (hkey ▸ hwaiting))

/-- The first request gets its result, and the retry gets the same one, marked as replayed,
without an operation of its own. -/
structure RetryTransparent (i j : ℕ) (result : OperationResult) (s : VaultServer) : Prop where
  first : ∀ request response, s.requests i = some request → request.phase = .answered response →
    response = .created result false
  idle : ∀ request, s.requests j = some request →
    request.landed = none ∧ ∀ step, request.phase ≠ .operating step
  retry : ∀ request, s.requests j = some request → request.phase.isEarly ∨
    s.settlement request = some (.created result true) ∨
    request.phase = .answered (.created result true)

theorem Replaying.transparent (h : Replaying cfg since i j key body result s) :
    RetryTransparent i j result s := by
  have hretry : ∀ request, s.requests j = some request →
      request.phase.isEarly ∧ request.landed = none ∨
      ∃ call fingerprint, request.call = some call ∧ request.landed = none ∧
        s.keyed.calls call = some ⟨key,fingerprint,.answered (.replayed result)⟩ := by
    intro request hfound
    rcases h.retry with
      hnext | ⟨r,hr,hearly,-⟩ | ⟨r,call,fingerprint,hr,hcall,hlanded,hentry⟩
    · exact absurd (hfound.symm.trans (h.wired.fresh j hnext)) (by simp)
    · obtain rfl := Option.some.inj (hr.symm.trans hfound)
      exact Or.inl ⟨hearly,(h.wired.early j r hr hearly).2⟩
    · obtain rfl := Option.some.inj (hr.symm.trans hfound)
      exact Or.inr ⟨call,fingerprint,hcall,hlanded,hentry⟩
  refine ⟨fun request response hfound hanswered => ?_,fun request hfound => ?_,
    fun request hfound => ?_⟩
  · obtain ⟨first,call,hfirst,-,-,hcall,houtcome⟩ := h.first
    obtain rfl := Option.some.inj (hfirst.symm.trans hfound)
    obtain ⟨_,phase,-,hentry,hfits⟩ := h.wired.linked i first call hfirst hcall
    rw [hanswered] at hfits
    simp only [KeyedCalls.outcome,hentry,Option.bind_some] at houtcome
    cases hfits with
    | done response outcome same =>
      obtain rfl := Option.some.inj houtcome
      exact same
    | _ => cases houtcome
  · rcases hretry request hfound with ⟨hearly,hlanded⟩ | ⟨call,_,hcall,hlanded,hentry⟩
    · refine ⟨hlanded,fun step hstep => ?_⟩
      rw [hstep] at hearly
      exact hearly.elim
    · refine ⟨hlanded,fun step hstep => ?_⟩
      rcases Replayed.phase h.wired hfound hcall hentry with hphase | hphase <;>
      · rw [hstep] at hphase
        cases hphase
  · rcases hretry request hfound with ⟨hearly,-⟩ | ⟨call,_,hcall,-,hentry⟩
    · exact Or.inl hearly
    · rcases Replayed.phase h.wired hfound hcall hentry with hphase | hphase
      · refine Or.inr (Or.inl ?_)
        simp [settlement,hphase,hcall,hentry,KeyedCalls.response,outcomeResponse]
      · exact Or.inr (Or.inr hphase)

end VaultServer

section Runs

open VaultServer

/-- A retry of a request that completes under a key gets the stored response, in every run
where the key is not deleted, the response lives, and the retry has the same body to the
last field, finds its wallet free and, as a withdrawal, the daily limit not used up. -/
theorem retry_transparent (cfg : VaultConfig) (i j since : ℕ) (key : String)
    (result : OperationResult) (before after : List VaultEvent)
    (hcompletes : (runFrom cfg before).CompletesAs i key result)
    (hdelete : ∀ event ∈ before ++ .proceed i (.settle since) :: after, ¬ event.Deletes key)
    (hwithin : ∀ event ∈ after, event.Within since (since+cfg.ttlMs))
    (hretry : Runs.Along (serve cfg) (ArrivesAsRetry cfg i j) {}
      (before ++ .proceed i (.settle since) :: after))
    (hclear : Runs.Along (serve cfg) (ClearForRetry cfg i j) {}
      (before ++ .proceed i (.settle since) :: after)) :
    RetryTransparent i j result
      (runFrom cfg (before ++ .proceed i (.settle since) :: after)) := by
  obtain ⟨hbefore,-,hafter⟩ := Runs.along_append.mp (hretry.and hclear)
  have hdeleteBefore : ∀ event ∈ before, ¬ event.Deletes key := fun event he =>
    hdelete event (List.mem_append_left _ he)
  have hdeleteAfter : ∀ event ∈ after, ¬ event.Deletes key := fun event he =>
    hdelete event (List.mem_append_right _ (List.mem_cons_of_mem _ he))
  have hrunning : Running cfg i j key (runFrom cfg before) :=
    ((Runs.along_of_forall_mem (fun event he _ => hdeleteBefore event he) _).and hbefore).invariant
      (fun _ _ h hg => h.serve hg.1 hg.2.1 hg.2.2) (.initial cfg i j key)
  obtain ⟨body,hreplaying⟩ := hrunning.completes hcompletes since
  have hsteps := (Runs.along_of_forall_mem (fun event he _ =>
    And.intro (hdeleteAfter event he) (hwithin event he)) _).and hafter
  rw [runFrom,Runs.run_append,Runs.run_cons]
  exact (hsteps.invariant (fun _ _ h hg => h.serve hg.1.1 hg.1.2 hg.2.1 hg.2.2)
    hreplaying).transparent

def depositDone : List VaultEvent :=
  [aliceSends .deposits 0 1000,.proceed 0 (.submitted true (.ok "hash")),
    .proceed 0 (.inserted 1 1 (.ok ())),.proceed 0 (.updated 1 "tx" (.ok ())),
    .proceed 0 (.recorded 1 "tx")]

def depositRetried : List VaultEvent :=
  [.proceed 0 .release,.proceed 0 .respond,aliceSends .deposits 2 1000,.proceed 1 .respond]

theorem depositRetried_transparent : RetryTransparent 0 1 aliceResult
    (runFrom openConfig (depositDone ++ .proceed 0 (.settle 1) :: depositRetried)) := by
  refine retry_transparent openConfig 0 1 1 "key" aliceResult depositDone depositRetried
    ⟨_,0,rfl,rfl,rfl,rfl,_,rfl⟩ ?_ ?_ ?_ ?_
  · simp [depositDone,depositRetried,aliceSends,VaultEvent.Deletes]
  · simp [depositRetried,aliceSends,VaultEvent.Within,VaultEvent.now,openConfig]
  · have hretry : ArrivesAsRetry openConfig 0 1
        (runFrom openConfig (aliceSends .deposits 0 1000 :: goesWell 0 1))
        (aliceSends .deposits 2 1000) := fun _ =>
      ⟨_,rfl,fun h => h,⟨rfl,rfl,rfl,nofun,rfl,rfl,rfl,rfl,rfl,nofun⟩⟩
    exact ⟨nofun,trivial,trivial,trivial,trivial,trivial,trivial,trivial,hretry,trivial,trivial⟩
  · have hclear : ClearForRetry openConfig 0 1
        (runFrom openConfig (aliceSends .deposits 0 1000 :: goesWell 0 1))
        (aliceSends .deposits 2 1000) := by
      intro _ first hfirst
      obtain rfl := Option.some.inj hfirst
      exact ⟨rfl,nofun,fun _ => by decide,nofun⟩
    exact ⟨nofun,trivial,trivial,trivial,trivial,trivial,trivial,trivial,hclear,trivial,trivial⟩

def signedConfig : VaultConfig :=
  { openConfig with
    signatureEnforced := true
    generateFingerprint := fun body => body.asset ++ body.nonce.getD "" }

def aliceSigns (now : ℕ) (nonce : String) : VaultEvent :=
  .arrive now .deposits { idempotencyKey := some "key" }
    { aliceBody 1000 with
      nonce := some nonce
      signature := some "signature signature signature signature" } (.ok ()) false

def renewedNonce : List VaultEvent :=
  aliceSigns 0 "nonce of the deposit" :: goesWell 0 1 ++
    [aliceSigns 2 "nonce of the retry",.proceed 1 .respond]

/-- The retry is refused. -/
theorem renewedNonce_conflict : ¬ ∀ (events : List VaultEvent) (i j : ℕ)
    (first retry : VaultRequest) (result : OperationResult) (response : VaultResponse),
    (∀ event ∈ events, ¬ event.Deletes "key") →
    (∀ event ∈ events, event.Within 0 signedConfig.ttlMs) →
    Runs.Along (serve signedConfig) (ArrivesAsRetry signedConfig i j) {} events →
    (runFrom signedConfig events).requests i = some first → first.key = some "key" →
    first.phase = .answered (.created result false) →
    (runFrom signedConfig events).requests j = some retry →
    retry.phase = .answered response → response = .created result true := by
  intro h
  have hretry : ArrivesAsRetry signedConfig 0 1
      (runFrom signedConfig (aliceSigns 0 "nonce of the deposit" :: goesWell 0 1))
      (aliceSigns 2 "nonce of the retry") := fun _ =>
    ⟨_,rfl,fun h => h,⟨rfl,rfl,rfl,fun _ => by decide,rfl,rfl,rfl,rfl,rfl,nofun⟩⟩
  have hsame := h renewedNonce 0 1 _ _ aliceResult .keyConflict
    (by simp [renewedNonce,goesWell,aliceSigns,VaultEvent.Deletes])
    (by simp [renewedNonce,goesWell,aliceSigns,VaultEvent.Within,VaultEvent.now,signedConfig,
      openConfig])
    ⟨nofun,trivial,trivial,trivial,trivial,trivial,trivial,trivial,hretry,trivial,trivial⟩
    rfl rfl rfl rfl rfl
  cases hsame

end Runs

end YieldVault.Backend
