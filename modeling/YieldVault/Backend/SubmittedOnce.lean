import YieldVault.Backend.VaultRequests

/-! A key and the transactions that are submitted for it. Within the time to live of its
response a key lets one submission through, unless a later step of the operation fails: the
response is stored only when every step has gone well. -/
namespace YieldVault.Backend

def Progress.fails : Progress → Prop
  | .submitted _ (.error _) | .inserted _ _ (.error _) | .updated _ _ (.error _) => True
  | _ => False

/-- A step of an operation with the key fails although its submission succeeds, or has
succeeded before, on chain. -/
def FailsAfterLanding (key : String) (s : VaultServer) : VaultEvent → Prop
  | .proceed id progress => ∃ request, s.requests id = some request ∧ request.key = some key ∧
      progress.landed request.landed = some true ∧ progress.fails
  | _ => False

namespace VaultServer

variable {cfg : VaultConfig} {since : ℕ} {key : String} {s : VaultServer}

/-- The request's operation is in flight and has not failed, or its result is stored. -/
def Accounted (key : String) (s : VaultServer) (request : VaultRequest) : Prop :=
  (∃ stored, s.keyed.Stores key stored) ∨
    ∃ call step, request.call = some call ∧ s.keyed.InFlight call key ∧
      request.phase = .operating step ∧ ∀ error, step ≠ .finished (.error error)

/-- Every submission that succeeded is accounted for, and it is the only one. -/
structure SubmittedOnce (cfg : VaultConfig) (since : ℕ) (key : String) (s : VaultServer) :
    Prop where
  wired : Wired cfg s
  sole : s.keyed.Sole cfg.ttlMs since key
  kept : ∀ id request, s.requests id = some request → request.key = some key →
    request.landed = some true → Accounted key s request
  unique : ∀ id id' request request', s.requests id = some request →
    s.requests id' = some request' → request.key = some key → request'.key = some key →
    request.landed = some true → request'.landed = some true → id = id'

theorem fails_of_operate {request : VaultRequest} {progress : Progress} {step : OperationStep}
    {error : OperationError} {ledger ledger' : Ledger}
    (h : operate cfg request progress step ledger = some (.finished (.error error),ledger')) :
    progress.fails := by
  unfold operate at h
  split at h <;> try trivial
  all_goals simp_all
  split at h <;> simp_all

theorem SubmittedOnce.initial (cfg : VaultConfig) (since : ℕ) (key : String) :
    SubmittedOnce cfg since key {} := by
  have hrequests : ∀ {id : ℕ} {request : VaultRequest},
      ({} : VaultServer).requests id ≠ some request := nofun
  exact ⟨.initial cfg,⟨nofun,nofun,fun h => absurd rfl h⟩,fun _ _ h => absurd h hrequests,
    fun _ _ _ _ h => absurd h hrequests⟩

/-- What every step leaves as it goes from `s` to `t`: a submission stays accounted for, as
long as its request stays as it is. -/
structure Carries (cfg : VaultConfig) (since : ℕ) (key : String) (s t : VaultServer) : Prop where
  wired : Wired cfg t
  sole : t.keyed.Sole cfg.ttlMs since key
  stores : ∀ stored, s.keyed.Stores key stored → t.keyed.Stores key stored
  keep : ∀ id request, s.requests id = some request → request.key = some key →
    request.landed = some true → Accounted key t request

theorem SubmittedOnce.carries (h : SubmittedOnce cfg since key s) {event : VaultEvent}
    (hdelete : ¬ event.Deletes key) (hwithin : event.Within since (since+cfg.ttlMs)) :
    Carries cfg since key s (serve cfg event s) where
  wired := h.wired.serve event
  sole := sole_serve h.sole hdelete hwithin
  stores := fun stored hstored => stores_serve hstored h.sole hdelete
  keep := by
    intro id request hrequest hkey hlanded
    rcases h.kept id request hrequest hkey hlanded with
      ⟨stored,hstored⟩ | ⟨call,step,hcall,hflight,hphase,hstep⟩
    · exact Or.inl ⟨stored,stores_serve hstored h.sole hdelete⟩
    · rcases inFlight_serve h.wired hflight with
        hstays | ⟨other,r,outcome,hr,hrcall,hrphase,hstores⟩
      · exact Or.inr ⟨call,step,hcall,hstays,hphase,hstep⟩
      · obtain rfl := h.wired.once _ _ _ _ call hr hrequest hrcall hcall
        obtain rfl := Option.some.inj (hr.symm.trans hrequest)
        obtain rfl := RequestPhase.operating.inj (hrphase.symm.trans hphase)
        cases outcome with
        | ok result => exact Or.inl (hstores result rfl)
        | error error => exact absurd rfl (hstep error)

theorem Wired.inFlight (h : Wired cfg s) {id : ℕ} {request : VaultRequest} {step : OperationStep}
    (found : s.requests id = some request) (hkey : request.key = some key)
    (hphase : request.phase = .operating step) (hstep : ∀ outcome, step ≠ .finished outcome) :
    ∃ call, request.call = some call ∧ s.keyed.InFlight call key := by
  cases hcall : request.call with
  | none => exact absurd ((h.keyless id request step found hphase hcall).symm.trans hkey) (by simp)
  | some call =>
    obtain ⟨key',phase,hkey',hentry,hfits⟩ := h.linked id request call found hcall
    obtain rfl := Option.some.inj (hkey.symm.trans hkey')
    rw [hphase] at hfits
    cases hfits with
    | running _ => exact ⟨call,rfl,_,hentry⟩
    | settled outcome => exact absurd rfl (hstep outcome)
    | returned outcome => exact absurd rfl (hstep outcome)

section Steps

variable {t : VaultServer} {id : ℕ} {request : VaultRequest}

theorem SubmittedOnce.of_landed (h : SubmittedOnce cfg since key s)
    (hcarries : Carries cfg since key s t)
    (hold : ∀ other r, t.requests other = some r → r.landed = some true →
      s.requests other = some r) : SubmittedOnce cfg since key t where
  wired := hcarries.wired
  sole := hcarries.sole
  kept := fun other r hr hkey htrue => hcarries.keep other r (hold other r hr htrue) hkey htrue
  unique := fun a b r r' ha hb hkey hkey' htrue htrue' =>
    h.unique a b r r' (hold a r ha htrue) (hold b r' hb htrue') hkey hkey' htrue htrue'

theorem SubmittedOnce.same (h : SubmittedOnce cfg since key s)
    (hcarries : Carries cfg since key s t) (hrequests : t.requests = s.requests) :
    SubmittedOnce cfg since key t :=
  h.of_landed hcarries fun _ _ hr _ => hrequests ▸ hr

/-- A request that replaces one or is new, and none of whose transactions has come back. -/
theorem SubmittedOnce.replace (h : SubmittedOnce cfg since key s)
    (hcarries : Carries cfg since key s t)
    (hrequests : t.requests = Function.update s.requests id (some request))
    (hlanded : request.landed = none) : SubmittedOnce cfg since key t := by
  refine h.of_landed hcarries fun other r hr htrue => ?_
  rw [hrequests] at hr
  rcases update_eq_some.mp hr with ⟨-,hnew⟩ | ⟨-,hold⟩
  · obtain rfl := Option.some.inj hnew
    exact absurd (hlanded.symm.trans htrue) (by simp)
  · exact hold

theorem SubmittedOnce.entered {next now : ℕ} (h : SubmittedOnce cfg since key s)
    (hcarries : Carries cfg since key s (enter cfg now id request { s with next := next }))
    (hlanded : request.landed = none) :
    SubmittedOnce cfg since key (enter cfg now id request { s with next := next }) := by
  have hentered := entered_enter cfg { s with next := next } now id request
  revert hentered hcarries
  generalize enter cfg now id request { s with next := next } = t
  intro hcarries hentered
  cases hentered with
  | locked busy => exact h.replace hcarries rfl hlanded
  | keyless free key => exact h.replace hcarries rfl hlanded
  | keyed free key hkey answer store execute => exact h.replace hcarries rfl hlanded

/-- While the operation of a request is in flight, no other has had its submission succeed. -/
theorem SubmittedOnce.alone (h : SubmittedOnce cfg since key s) {call : ℕ}
    (found : s.requests id = some request) (hcall : request.call = some call)
    (hrunning : s.keyed.InFlight call key) {other : ℕ} {r : VaultRequest}
    (hr : s.requests other = some r) (hkey : r.key = some key) (hlanded : r.landed = some true) :
    other = id := by
  rcases h.kept other r hr hkey hlanded with
    ⟨stored,entry,hentry,-⟩ | ⟨call',_,hcall',hrunning',-⟩
  · exact absurd hrunning (h.sole.exclusive (by simp [hentry]) call)
  · obtain rfl := h.sole.own.unique hrunning hrunning'
    exact h.wired.once _ _ _ _ call hr found hcall' hcall

theorem SubmittedOnce.operated (h : SubmittedOnce cfg since key s) {progress : Progress}
    {step step' : OperationStep} {ledger : Ledger} (found : s.requests id = some request)
    (operating : request.phase = .operating step)
    (operate : operate cfg request progress step s.ledger = some (step',ledger))
    (hguard : ¬ FailsAfterLanding key s (.proceed id progress))
    (hcarries : Carries cfg since key s (put id { request with
      phase := .operating step', landed := progress.landed request.landed }
        { s with ledger := ledger })) :
    SubmittedOnce cfg since key (put id { request with
      phase := .operating step', landed := progress.landed request.landed }
        { s with ledger := ledger }) := by
  have hflight : request.key = some key →
      ∃ call, request.call = some call ∧ s.keyed.InFlight call key :=
    fun hkey => h.wired.inFlight found hkey operating (operate_step operate)
  refine ⟨hcarries.wired,hcarries.sole,?_,?_⟩
  · intro other r hr hrkey hrlanded
    rcases update_eq_some.mp hr with ⟨rfl,hnew⟩ | ⟨-,hold⟩
    · obtain rfl := Option.some.inj hnew
      obtain ⟨call,hcall,hrunning⟩ := hflight hrkey
      refine Or.inr ⟨call,step',hcall,hrunning,rfl,?_⟩
      rintro error rfl
      exact hguard ⟨request,found,hrkey,hrlanded,fails_of_operate operate⟩
    · exact hcarries.keep other r hold hrkey hrlanded
  · intro a b r r' ha hb hkey hkey' hlanded hlanded'
    rcases update_eq_some.mp ha with ⟨rfl,hnew⟩ | ⟨-,hold⟩ <;>
      rcases update_eq_some.mp hb with ⟨rfl,hnew'⟩ | ⟨-,hold'⟩
    · rfl
    · obtain rfl := Option.some.inj hnew
      obtain ⟨call,hcall,hrunning⟩ := hflight hkey
      exact (h.alone found hcall hrunning hold' hkey' hlanded').symm
    · obtain rfl := Option.some.inj hnew'
      obtain ⟨call,hcall,hrunning⟩ := hflight hkey'
      exact h.alone found hcall hrunning hold hkey hlanded
    · exact h.unique a b r r' hold hold' hkey hkey' hlanded hlanded'

theorem SubmittedOnce.responded (h : SubmittedOnce cfg since key s) {response : VaultResponse}
    (found : s.requests id = some request) (settlement : s.settlement request = some response)
    (hrequests : t.requests =
      Function.update s.requests id (some (request.at (.answered response))))
    (hcarries : Carries cfg since key s t) : SubmittedOnce cfg since key t := by
  have hcases : ∀ {other r}, t.requests other = some r →
      ∃ old, s.requests other = some old ∧ r.key = old.key ∧ r.landed = old.landed ∧
        (r = old ∨ other = id) := by
    intro other r hr
    rw [hrequests] at hr
    rcases update_eq_some.mp hr with ⟨rfl,hnew⟩ | ⟨-,hold⟩
    · obtain rfl := Option.some.inj hnew
      exact ⟨request,found,rfl,rfl,Or.inr rfl⟩
    · exact ⟨r,hold,rfl,rfl,Or.inl rfl⟩
  refine ⟨hcarries.wired,hcarries.sole,?_,?_⟩
  · intro other r hr hkey hlanded
    obtain ⟨old,hold,hkey',hlanded',rfl | rfl⟩ := hcases hr
    · exact hcarries.keep other r hold hkey hlanded
    · rw [hkey'] at hkey
      rw [hlanded'] at hlanded
      obtain rfl := Option.some.inj (found.symm.trans hold)
      rcases h.kept other request found hkey hlanded with
        ⟨stored,hstored⟩ | ⟨call,step,hcall,⟨fingerprint,hentry⟩,-,-⟩
      · exact Or.inl ⟨stored,hcarries.stores stored hstored⟩
      · obtain ⟨_,phase,-,hentry',hfits⟩ := h.wired.linked other request call found hcall
        obtain ⟨-,-,rfl⟩ := Call.mk.inj (Option.some.inj (hentry.symm.trans hentry'))
        cases Fits.respond settlement hcall hentry' hfits
  · intro a b r r' ha hb hkey hkey' hlanded hlanded'
    obtain ⟨old,hold,hk,hl,-⟩ := hcases ha
    obtain ⟨old',hold',hk',hl',-⟩ := hcases hb
    exact h.unique a b old old' hold hold' (hk ▸ hkey) (hk' ▸ hkey') (hl ▸ hlanded)
      (hl' ▸ hlanded')

end Steps

theorem SubmittedOnce.serve (h : SubmittedOnce cfg since key s) {event : VaultEvent}
    (hdelete : ¬ event.Deletes key) (hwithin : event.Within since (since+cfg.ttlMs))
    (hguard : ¬ FailsAfterLanding key s event) :
    SubmittedOnce cfg since key (serve cfg event s) := by
  have hcarries := h.carries hdelete hwithin
  have hchange := change_serve cfg s event
  revert hcarries hchange
  generalize VaultServer.serve cfg event s = t
  intro hcarries hchange
  cases hchange with
  | settings _ _ keyed wallets ledger requests next => exact h.same hcarries requests
  | deleted _ deletion kind => exact h.same hcarries rfl
  | gated _ id next request comes target outside accepted =>
    exact h.replace hcarries rfl (comes.early h.wired).2.2.2.1
  | entered _ now id next request comes enters =>
    exact h.entered hcarries (comes.early h.wired).2.2.2.1
  | operated id progress request step step' ledger found operating operate =>
    exact h.operated found operating operate hguard hcarries
  | settled id now request found =>
    refine h.same hcarries ?_
    unfold settle
    split <;> rfl
  | released id request found =>
    refine h.same hcarries ?_
    unfold release
    split <;> rfl
  | responded id request response found settlement =>
    exact h.responded found settlement rfl hcarries

end VaultServer

section Runs

open VaultServer

/-- Within the time to live of its response, a key that nobody deletes has at most one
submission that succeeds on chain, in every run where no step of an operation with the key
fails after the operation's submission has succeeded. -/
theorem submitted_once (cfg : VaultConfig) (since : ℕ) (key : String) (events : List VaultEvent)
    (hdelete : ∀ event ∈ events, ¬ event.Deletes key)
    (hwithin : ∀ event ∈ events, event.Within since (since+cfg.ttlMs))
    (hguard : Runs.Along (serve cfg) (fun s event => ¬ FailsAfterLanding key s event) {} events) :
    ∀ id id' request request', (runFrom cfg events).requests id = some request →
      (runFrom cfg events).requests id' = some request' → request.key = some key →
      request'.key = some key → request.landed = some true → request'.landed = some true →
      id = id' := by
  have hsteps : Runs.Along (serve cfg) (fun s event => (¬ event.Deletes key ∧
      event.Within since (since+cfg.ttlMs)) ∧ ¬ FailsAfterLanding key s event) {} events :=
    (Runs.along_of_forall_mem (fun event he _ => ⟨hdelete event he,hwithin event he⟩) _).and hguard
  have hstep : ∀ (s : VaultServer) event, SubmittedOnce cfg since key s →
      (¬ event.Deletes key ∧ event.Within since (since+cfg.ttlMs)) ∧
        ¬ FailsAfterLanding key s event → SubmittedOnce cfg since key (serve cfg event s) :=
    fun s event h hg => h.serve hg.1.1 hg.1.2 hg.2
  exact (hsteps.invariant hstep (.initial cfg since key)).unique

def retriedDeposit : List VaultEvent :=
  aliceSends .deposits 0 1000 :: goesWell 0 1 ++ [aliceSends .deposits 2 1000]

/-- Its one submission is that of the deposit. -/
theorem retriedDeposit_once : ∃ first,
    (runFrom openConfig retriedDeposit).requests 0 = some first ∧ first.landed = some true ∧
      ∀ id request, (runFrom openConfig retriedDeposit).requests id = some request →
        request.key = some "key" → request.landed = some true → id = 0 := by
  have hfails : ∀ (s : VaultServer) (other : ℕ) (progress : Progress), ¬ progress.fails →
      ¬ FailsAfterLanding "key" s (.proceed other progress) :=
    fun _ _ _ hno ⟨_,_,_,_,hfails⟩ => hno hfails
  refine ⟨_,rfl,rfl,fun id request h hkey hlanded => ?_⟩
  refine submitted_once openConfig 0 "key" retriedDeposit ?_ ?_ ?_ id 0 request _ h rfl hkey rfl
    hlanded rfl
  · simp [retriedDeposit,goesWell,aliceSends,VaultEvent.Deletes]
  · simp [retriedDeposit,goesWell,aliceSends,VaultEvent.Within,VaultEvent.now,openConfig]
  · have hno : False → False := fun h => h
    exact ⟨hno,hfails _ _ _ hno,hfails _ _ _ hno,hfails _ _ _ hno,hfails _ _ _ hno,
      hfails _ _ _ hno,hfails _ _ _ hno,hfails _ _ _ hno,hno,trivial⟩

/-- A deposit whose row cannot be inserted after its submission, and a retry of it. -/
def failedDeposit : List VaultEvent :=
  [aliceSends .deposits 0 1000,.proceed 0 (.submitted true (.ok "hash")),
    .proceed 0 (.inserted 1 1 (.error (.other "database"))),.proceed 0 (.settle 1),
    .proceed 0 .release,.proceed 0 .respond,
    aliceSends .deposits 2 1000,.proceed 1 (.submitted true (.ok "hash"))]

/-- The retry is submitted as well. -/
theorem failedDeposit_twice : ¬ ∀ (events : List VaultEvent) (body : VaultOperationBody),
    (∀ event ∈ events, ¬ event.Deletes "key") →
    (∀ event ∈ events, event.Within 0 openConfig.ttlMs) →
    (∀ now route headers b signed flag, .arrive now route headers b signed flag ∈ events →
      headers.key = some "key" ∧ b = body) →
    ∀ id id' request request', (runFrom openConfig events).requests id = some request →
      (runFrom openConfig events).requests id' = some request' → request.landed = some true →
      request'.landed = some true → id = id' := by
  intro h
  have harrivals : ∀ now route headers b signed flag,
      .arrive now route headers b signed flag ∈ failedDeposit →
      headers.key = some "key" ∧ b = aliceBody 1000 := by
    intro now route headers b signed flag hmem
    simp only [failedDeposit,aliceSends,List.mem_cons,List.not_mem_nil,VaultEvent.arrive.injEq,
      reduceCtorEq,or_false,false_or] at hmem
    rcases hmem with ⟨-,-,rfl,rfl,-⟩ | ⟨-,-,rfl,rfl,-⟩ <;> exact ⟨rfl,rfl⟩
  have hsame := h failedDeposit (aliceBody 1000)
    (by simp [failedDeposit,aliceSends,VaultEvent.Deletes])
    (by simp [failedDeposit,aliceSends,VaultEvent.Within,VaultEvent.now,openConfig])
    harrivals 0 1 _ _ rfl rfl rfl rfl
  exact absurd hsame (by decide)

end Runs

end YieldVault.Backend
