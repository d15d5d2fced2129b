import YieldVault.Backend.WalletLocks

/-! Replayed responses and the requests that they answer. A key is compared by the digest of
the body alone, so that a replay is for the same operation only where the key is not used
for the other one. -/
namespace YieldVault.Backend

namespace VaultServer

variable {cfg : VaultConfig} {s : VaultServer}

/-- The call of the store was made for the operation. -/
def Made (s : VaultServer) (call : ℕ) (key : String) (type : OperationType)
    (body : VaultOperationBody) : Prop :=
  ∃ id request, s.requests id = some request ∧ request.call = some call ∧
    request.key = some key ∧ request.route.type = type ∧ request.body = body

theorem made_of_update {t : VaultServer} {id : ℕ} {request : VaultRequest}
    (hrequests : t.requests = Function.update s.requests id (some request))
    (hold : ∀ old, s.requests id = some old → request.call = old.call ∧ request.key = old.key ∧
      request.route = old.route ∧ request.body = old.body)
    (hnew : s.requests id = none → request.call = none) (call : ℕ) (key : String)
    (type : OperationType) (body : VaultOperationBody) :
    t.Made call key type body ↔ s.Made call key type body := by
  constructor
  · rintro ⟨other,r,hr,hcall,hkey,htype,hbody⟩
    rw [hrequests] at hr
    rcases update_eq_some.mp hr with ⟨rfl,hsame⟩ | ⟨-,hs⟩
    · obtain rfl := Option.some.inj hsame
      cases hs : s.requests other with
      | none => exact absurd ((hnew hs).symm.trans hcall) (by simp)
      | some old =>
        obtain ⟨hc,hk,hroute,hb⟩ := hold old hs
        exact ⟨other,old,hs,hc ▸ hcall,hk ▸ hkey,hroute ▸ htype,hb ▸ hbody⟩
    · exact ⟨other,r,hs,hcall,hkey,htype,hbody⟩
  · rintro ⟨other,r,hr,hcall,hkey,htype,hbody⟩
    by_cases hother : other = id
    · subst hother
      obtain ⟨hc,hk,hroute,hb⟩ := hold r hr
      exact ⟨other,request,by rw [hrequests,Function.update_self],hc.trans hcall,hk.trans hkey,
        by rw [hroute,htype],hb.trans hbody⟩
    · exact ⟨other,r,by rw [hrequests,Function.update_of_ne hother,hr],hcall,hkey,htype,hbody⟩

theorem made_of_comes (h : Wired cfg s) {t : VaultServer} {id next : ℕ} {request : VaultRequest}
    (phase : RequestPhase) (comes : s.Comes id next request)
    (hrequests : t.requests = Function.update s.requests id (some (request.at phase)))
    (call : ℕ) (key : String) (type : OperationType) (body : VaultOperationBody) :
    t.Made call key type body ↔ s.Made call key type body := by
  obtain ⟨-,-,hcall,-,hold⟩ := comes.early h
  refine made_of_update hrequests (fun old hs => ?_) (fun _ => hcall) call key type body
  obtain ⟨hnone,-,-,hrequest⟩ := hold old hs
  have hkey := congrArg VaultRequest.key hrequest
  have hroute := congrArg VaultRequest.route hrequest
  have hbody := congrArg VaultRequest.body hrequest
  exact ⟨hcall.trans hnone.symm,hkey,hroute,hbody⟩

theorem made_of_found {t : VaultServer} {id : ℕ} {old request : VaultRequest}
    (found : s.requests id = some old)
    (hrequests : t.requests = Function.update s.requests id (some request))
    (hsame : request.call = old.call ∧ request.key = old.key ∧ request.route = old.route ∧
      request.body = old.body)
    (call : ℕ) (key : String) (type : OperationType) (body : VaultOperationBody) :
    t.Made call key type body ↔ s.Made call key type body := by
  refine made_of_update hrequests (fun other hs => ?_)
    (fun hnone => absurd (found.symm.trans hnone) (by simp)) call key type body
  obtain rfl := Option.some.inj (found.symm.trans hs)
  exact hsame

theorem made_of_keyed (h : Wired cfg s) {t : VaultServer} {id next : ℕ} {request : VaultRequest}
    {key : String} {phase : RequestPhase} (comes : s.Comes id next request)
    (hkey : request.key = some key)
    (hrequests : t.requests = Function.update s.requests id
      (some { request with phase := phase, call := some s.keyed.next }))
    (call : ℕ) (key' : String) (type : OperationType) (body : VaultOperationBody) :
    t.Made call key' type body ↔ s.Made call key' type body ∨
      call = s.keyed.next ∧ key' = key ∧ type = request.route.type ∧ body = request.body := by
  obtain ⟨-,-,hcall,-,hold⟩ := comes.early h
  constructor
  · rintro ⟨other,r,hr,hcall',hkey',htype,hbody⟩
    rw [hrequests] at hr
    rcases update_eq_some.mp hr with ⟨-,hsame⟩ | ⟨-,hs⟩
    · obtain rfl := Option.some.inj hsame
      exact Or.inr ⟨(Option.some.inj hcall').symm,Option.some.inj (hkey'.symm.trans hkey),
        htype.symm,hbody.symm⟩
    · exact Or.inl ⟨other,r,hs,hcall',hkey',htype,hbody⟩
  · rintro (⟨other,r,hs,hcall',hkey',htype,hbody⟩ | ⟨rfl,rfl,rfl,rfl⟩)
    · have hne : other ≠ id := by
        rintro rfl
        exact absurd ((hold r hs).1.symm.trans hcall') (by simp)
      exact ⟨other,r,by rw [hrequests,Function.update_of_ne hne,hs],hcall',hkey',htype,hbody⟩
    · exact ⟨id,_,(congrFun hrequests id).trans (Function.update_self _ _ _),rfl,hkey,rfl,rfl⟩

/-- A step makes no call of the store, or one for the request that it lets in. -/
theorem made_serve (h : Wired cfg s) (event : VaultEvent) :
    ((∀ call key type body, (serve cfg event s).Made call key type body ↔
        s.Made call key type body) ∧
      ((serve cfg event s).keyed = s.keyed ∨ ∃ stored,
        (serve cfg event s).keyed = s.keyed.serve cfg.ttlMs stored ∧
        ∀ now key fingerprint, stored ≠ .execute now key fingerprint)) ∨
    ∃ now id request key, s.Enters cfg event now id request ∧ request.key = some key ∧
      s.WalletFree cfg request ∧ (serve cfg event s).keyed =
        s.keyed.serve cfg.ttlMs (.execute now key (request.fingerprint cfg)) ∧
      ∀ call key' type body, (serve cfg event s).Made call key' type body ↔
        s.Made call key' type body ∨
          call = s.keyed.next ∧ key' = key ∧ type = request.route.type ∧ body = request.body := by
  have hchange := change_serve cfg s event
  revert hchange
  generalize serve cfg event s = t
  intro hchange
  cases hchange with
  | settings _ _ keyed wallets ledger requests next =>
    refine Or.inl ⟨fun call key type body => ?_,Or.inl keyed⟩
    rw [Made,Made,requests]
  | deleted _ deletion kind =>
    refine Or.inl ⟨fun _ _ _ _ => Iff.rfl,Or.inr ⟨deletion,rfl,?_⟩⟩
    rcases kind with ⟨other,-,rfl⟩ | ⟨-,rfl⟩ <;> exact nofun
  | gated _ id next request comes target outside accepted =>
    exact Or.inl ⟨made_of_comes h request.phase comes rfl,Or.inl rfl⟩
  | entered _ now id next request comes enters =>
    have hentered := entered_enter cfg { s with next := next } now id request
    revert hentered
    generalize enter cfg now id request { s with next := next } = t
    intro hentered
    cases hentered with
    | locked busy => exact Or.inl ⟨made_of_comes h _ comes rfl,Or.inl rfl⟩
    | keyless free key => exact Or.inl ⟨made_of_comes h _ comes rfl,Or.inl rfl⟩
    | keyed free key hkey answer store execute =>
      exact Or.inr ⟨now,id,request,key,enters,hkey,free,rfl,made_of_keyed h comes hkey rfl⟩
  | operated id progress request step step' ledger found operating operate =>
    exact Or.inl ⟨made_of_found found rfl ⟨rfl,rfl,rfl,rfl⟩,Or.inl rfl⟩
  | settled id now request found =>
    unfold settle
    split
    · exact Or.inl ⟨fun _ _ _ _ => Iff.rfl,Or.inr ⟨.fulfil now _ _,rfl,nofun⟩⟩
    · exact Or.inl ⟨fun _ _ _ _ => Iff.rfl,Or.inr ⟨.reject _ _,rfl,nofun⟩⟩
    · exact Or.inl ⟨fun _ _ _ _ => Iff.rfl,Or.inl rfl⟩
  | released id request found =>
    unfold release
    split
    · exact Or.inl ⟨fun _ _ _ _ => Iff.rfl,Or.inr ⟨.release _,rfl,nofun⟩⟩
    · exact Or.inl ⟨fun _ _ _ _ => Iff.rfl,Or.inl rfl⟩
  | responded id request response found settlement =>
    exact Or.inl ⟨made_of_found found rfl ⟨rfl,rfl,rfl,rfl⟩,Or.inl rfl⟩

section Made

variable {call : ℕ} {key : String} {type : OperationType} {body : VaultOperationBody}

theorem Made.entry (h : Wired cfg s) (hmade : s.Made call key type body) :
    ∃ phase, s.keyed.calls call = some ⟨key,cfg.generateFingerprint body,phase⟩ := by
  obtain ⟨id,request,hr,hcall,hkey,-,rfl⟩ := hmade
  obtain ⟨key',phase,hkey',hentry,-⟩ := h.linked id request call hr hcall
  obtain rfl := Option.some.inj (hkey.symm.trans hkey')
  exact ⟨phase,hentry⟩

theorem Made.lt (h : Wired cfg s) (hmade : s.Made call key type body) : call < s.keyed.next := by
  obtain ⟨phase,hentry⟩ := hmade.entry h
  exact h.sound.lt hentry

theorem made_of_entry (h : Wired cfg s) {entry : Call String String OperationResult OperationError}
    (hentry : s.keyed.calls call = some entry) :
    ∃ type body, s.Made call entry.key type body ∧
      entry.fingerprint = cfg.generateFingerprint body := by
  obtain ⟨id,request,hr,hcall⟩ := h.owned call entry hentry
  obtain ⟨key,phase,hkey,hentry',-⟩ := h.linked id request call hr hcall
  obtain rfl := Option.some.inj (hentry.symm.trans hentry')
  exact ⟨_,_,⟨id,request,hr,hcall,hkey,rfl,rfl⟩,rfl⟩

end Made

/-- Where a key that has started an operation comes again for another operation or body,
its entry is still there, and the body is another one. -/
def ReusesKept (cfg : VaultConfig) (s : VaultServer) (event : VaultEvent) : Prop :=
  ∀ now id request key, s.Enters cfg event now id request → request.key = some key →
    s.WalletFree cfg request → ∀ call type body, s.Made call key type body →
    s.keyed.Owns call → type ≠ request.route.type ∨ body ≠ request.body →
    body ≠ request.body ∧ KeyedCalls.entryFingerprint now key s.keyed.store ≠ none

/-- The digest of a body that comes in is not that of another body that has come in. -/
def CollisionFree (cfg : VaultConfig) (s : VaultServer) (event : VaultEvent) : Prop :=
  ∀ now id request, s.Enters cfg event now id request → ∀ other r,
    s.requests other = some r → cfg.generateFingerprint r.body = request.fingerprint cfg →
    r.body = request.body

/-- A call that gets the result of another is for the same operation, and one for another
operation of its key is refused. -/
structure Matched (s : VaultServer) : Prop where
  same : ∀ call call' key type type' body body', s.Made call key type body →
    s.Made call' key type' body' → s.keyed.Owns call → s.keyed.Owns call' →
    type = type' ∧ body = body'
  replays : ∀ call key type body fingerprint result, s.Made call key type body →
    s.keyed.calls call = some ⟨key,fingerprint,.answered (.replayed result)⟩ →
    ∃ call' < call, s.Made call' key type body ∧ s.keyed.outcome call' = some (.ok result)
  waits : ∀ call key type body fingerprint promise, s.Made call key type body →
    s.keyed.calls call = some ⟨key,fingerprint,.answered (.waiting promise)⟩ →
    promise < call ∧ s.Made promise key type body
  refused : ∀ call call' key type type' body body', s.Made call key type body →
    s.Made call' key type' body' → call' < call → s.keyed.Owns call' →
    type' ≠ type ∨ body' ≠ body →
    ∃ fingerprint, s.keyed.calls call = some ⟨key,fingerprint,.answered .conflict⟩

theorem Matched.keep (hw : Wired cfg s) (h : Matched s) {t : VaultServer}
    (hmade : ∀ call key type body, t.Made call key type body ↔ s.Made call key type body)
    (hkeyed : t.keyed = s.keyed ∨ ∃ stored, t.keyed = s.keyed.serve cfg.ttlMs stored ∧
      ∀ now key fingerprint, stored ≠ .execute now key fingerprint) : Matched t := by
  have howns : ∀ {call}, call < s.keyed.next → (t.keyed.Owns call ↔ s.keyed.Owns call) := by
    intro call hlt
    rcases hkeyed with hsame | ⟨stored,hserve,-⟩
    · rw [hsame]
    · rw [hserve]
      exact KeyedCalls.owns_serve _ _ hlt
  have hanswer : ∀ {call key fingerprint} (answer : Answer OperationResult),
      answer ≠ .started → call < s.keyed.next →
      (t.keyed.calls call = some ⟨key,fingerprint,.answered answer⟩ ↔
        s.keyed.calls call = some ⟨key,fingerprint,.answered answer⟩) := by
    intro call key fingerprint answer hne hlt
    rcases hkeyed with hsame | ⟨stored,hserve,-⟩
    · rw [hsame]
    · rw [hserve]
      exact KeyedCalls.answered_serve _ _ hlt hne
  have houtcome : ∀ {call outcome}, s.keyed.outcome call = some outcome →
      t.keyed.outcome call = some outcome := by
    intro call outcome ho
    rcases hkeyed with hsame | ⟨stored,hserve,-⟩
    · rw [hsame]
      exact ho
    · rw [hserve]
      exact hw.sound.outcome_serve _ _ ho
  refine ⟨?_,?_,?_,?_⟩
  · intro call call' key type type' body body' hm hm' ho ho'
    rw [hmade] at hm hm'
    exact h.same call call' key type type' body body' hm hm' ((howns (hm.lt hw)).mp ho)
      ((howns (hm'.lt hw)).mp ho')
  · intro call key type body fingerprint result hm hcall
    rw [hmade] at hm
    obtain ⟨call',hlt,hm',ho⟩ := h.replays call key type body fingerprint result hm
      ((hanswer (.replayed result) nofun (hm.lt hw)).mp hcall)
    exact ⟨call',hlt,(hmade ..).mpr hm',houtcome ho⟩
  · intro call key type body fingerprint promise hm hcall
    rw [hmade] at hm
    obtain ⟨hlt,hm'⟩ := h.waits call key type body fingerprint promise hm
      ((hanswer (.waiting promise) nofun (hm.lt hw)).mp hcall)
    exact ⟨hlt,(hmade ..).mpr hm'⟩
  · intro call call' key type type' body body' hm hm' hlt ho hdiff
    rw [hmade] at hm hm'
    obtain ⟨fingerprint,hcall⟩ := h.refused call call' key type type' body body' hm hm' hlt
      ((howns (hm'.lt hw)).mp ho) hdiff
    exact ⟨fingerprint,(hanswer .conflict nofun (hm.lt hw)).mpr hcall⟩

/-- What the store answers, for a request that meets the conditions. -/
inductive Answered (s : VaultServer) (now : ℕ) (key : String) (request : VaultRequest) :
    Answer OperationResult → Prop
  | replayed (result : OperationResult) (call : ℕ)
      (made : s.Made call key request.route.type request.body) (owns : s.keyed.Owns call)
      (outcome : s.keyed.outcome call = some (.ok result)) :
      Answered s now key request (.replayed result)
  | waiting (promise : ℕ) (made : s.Made promise key request.route.type request.body)
      (owns : s.keyed.Owns promise) : Answered s now key request (.waiting promise)
  | conflict : Answered s now key request .conflict
  | started (none : KeyedCalls.entryFingerprint now key s.keyed.store = none) :
      Answered s now key request .started

section Call

variable {event : VaultEvent} {now id : ℕ} {request : VaultRequest} {key : String}
  {answer : Answer OperationResult} {store : IdempotencyStore String String OperationResult}

/-- An operation with the key and the request's fingerprint is the request's own. -/
theorem made_same (hreuses : ReusesKept cfg s event) (hdigests : CollisionFree cfg s event)
    (henters : s.Enters cfg event now id request) (hkey : request.key = some key)
    (hfree : s.WalletFree cfg request) {call : ℕ} {type : OperationType}
    {body : VaultOperationBody} (hmade : s.Made call key type body) (howns : s.keyed.Owns call)
    (hsame : cfg.generateFingerprint body = request.fingerprint cfg) :
    s.Made call key request.route.type request.body := by
  have hbody : body = request.body := by
    obtain ⟨other,r,hr,-,-,-,rfl⟩ := hmade
    exact hdigests now id request henters other r hr hsame
  have htype : type = request.route.type := by
    by_contra hne
    have hkept := hreuses now id request key henters hkey hfree call type body hmade howns
      (Or.inl hne)
    exact hkept.1 hbody
  exact htype ▸ hbody ▸ hmade

theorem answered_of_execute (hw : Wired cfg s) (hreuses : ReusesKept cfg s event)
    (hdigests : CollisionFree cfg s event) (henters : s.Enters cfg event now id request)
    (hkey : request.key = some key) (hfree : s.WalletFree cfg request)
    (hex : s.keyed.store.execute cfg.ttlMs now key (request.fingerprint cfg) s.keyed.next =
      (answer,store)) : Answered s now key request answer := by
  rcases KeyedCalls.execute_cases cfg.ttlMs now key (request.fingerprint cfg) s.keyed.next
      s.keyed.store with
    ⟨stored,hget,⟨hsame,hex'⟩ | ⟨-,hex'⟩⟩ | ⟨hget,⟨pending,hp,⟨hsame,hex'⟩ | ⟨-,hex'⟩⟩ | ⟨hp,hex'⟩⟩
  all_goals obtain rfl := congrArg Prod.fst (hex.symm.trans hex')
  · obtain ⟨entry,hentry,rfl,-⟩ := KeyedCalls.getCompleted_eq_some hget
    obtain ⟨call,phase,hcall,houtcome⟩ := hw.sound.completed key entry hentry
    obtain ⟨type,body,hmade,hfingerprint⟩ := made_of_entry hw hcall
    have howns : s.keyed.Owns call := by
      refine ⟨_,hcall,?_⟩
      cases phase with
      | answered _ => cases houtcome
      | settled _ => trivial
      | returned _ => trivial
    have hmine := made_same hreuses hdigests henters hkey hfree hmade howns
      (hfingerprint.symm.trans hsame)
    exact .replayed _ call hmine howns (by simp [KeyedCalls.outcome,hcall,houtcome])
  · exact .conflict
  · obtain ⟨phase,hcall,hphase⟩ := hw.sound.pending key pending hp
    obtain ⟨type,body,hmade,hfingerprint⟩ := made_of_entry hw hcall
    have howns : s.keyed.Owns pending.promise := by
      refine ⟨_,hcall,?_⟩
      rcases hphase with rfl | ⟨_,rfl⟩ <;> trivial
    have hmine := made_same hreuses hdigests henters hkey hfree hmade howns
      (hfingerprint.symm.trans hsame)
    exact .waiting _ hmine howns
  · exact .conflict
  · exact .started (by simp [KeyedCalls.entryFingerprint,hget,hp])

/-- An operation of the key that has been started is the request's, or the call is refused. -/
theorem conflict_of_other (h : Matched s) (hreuses : ReusesKept cfg s event)
    (henters : s.Enters cfg event now id request) (hkey : request.key = some key)
    (hfree : s.WalletFree cfg request) (hanswered : Answered s now key request answer) {call : ℕ}
    {type : OperationType} {body : VaultOperationBody} (hmade : s.Made call key type body)
    (howns : s.keyed.Owns call) (hdiff : type ≠ request.route.type ∨ body ≠ request.body) :
    answer = .conflict := by
  have hfound := hreuses now id request key henters hkey hfree call type body hmade howns hdiff
  cases hanswered with
  | replayed result call' made owns outcome =>
    obtain ⟨rfl,rfl⟩ := h.same _ _ _ _ _ _ _ hmade made howns owns
    simp at hdiff
  | waiting promise made owns =>
    obtain ⟨rfl,rfl⟩ := h.same _ _ _ _ _ _ _ hmade made howns owns
    simp at hdiff
  | conflict => rfl
  | started hnone => exact absurd hnone hfound.2

structure Calls (cfg : VaultConfig) (s t : VaultServer) (key : String) (request : VaultRequest)
    (answer : Answer OperationResult) : Prop where
  calls : t.keyed.calls = Function.update s.keyed.calls s.keyed.next
    (some ⟨key,request.fingerprint cfg,.answered answer⟩)
  outcome : ∀ call outcome, s.keyed.outcome call = some outcome →
    t.keyed.outcome call = some outcome
  made : ∀ call key' type body, t.Made call key' type body ↔ s.Made call key' type body ∨
    call = s.keyed.next ∧ key' = key ∧ type = request.route.type ∧ body = request.body

variable {t : VaultServer}

theorem Calls.of_execute (hw : Wired cfg s)
    (hex : s.keyed.store.execute cfg.ttlMs now key (request.fingerprint cfg) s.keyed.next =
      (answer,store))
    (hkeyed : t.keyed = s.keyed.serve cfg.ttlMs (.execute now key (request.fingerprint cfg)))
    (hmade : ∀ call key' type body, t.Made call key' type body ↔ s.Made call key' type body ∨
      call = s.keyed.next ∧ key' = key ∧ type = request.route.type ∧ body = request.body) :
    Calls cfg s t key request answer where
  calls := by rw [hkeyed,KeyedCalls.serve_execute hex]
  outcome := by
    intro call outcome ho
    rw [hkeyed]
    exact hw.sound.outcome_serve _ _ ho
  made := hmade

theorem Calls.self (hc : Calls cfg s t key request answer) :
    t.keyed.calls s.keyed.next = some ⟨key,request.fingerprint cfg,.answered answer⟩ := by
  rw [hc.calls,Function.update_self]

theorem Calls.old (hc : Calls cfg s t key request answer) {call : ℕ} (hlt : call < s.keyed.next) :
    t.keyed.calls call = s.keyed.calls call := by
  rw [hc.calls,Function.update_of_ne hlt.ne]

theorem Calls.owns (hc : Calls cfg s t key request answer) {call : ℕ} (hlt : call < s.keyed.next) :
    t.keyed.Owns call ↔ s.keyed.Owns call := by
  rw [KeyedCalls.Owns,KeyedCalls.Owns,hc.old hlt]

theorem Calls.started (hc : Calls cfg s t key request answer) (howns : t.keyed.Owns s.keyed.next) :
    answer = .started := by
  obtain ⟨entry,hentry,hphase⟩ := howns
  obtain rfl := Option.some.inj (hc.self.symm.trans hentry)
  cases answer <;> first | rfl | exact hphase.elim

/-- The answer that a call of the request's number shows is the one it got. -/
theorem Calls.answer_eq (hc : Calls cfg s t key request answer) {key' fingerprint : String}
    {other : Answer OperationResult}
    (hcall : t.keyed.calls s.keyed.next = some ⟨key',fingerprint,.answered other⟩) :
    answer = other := by
  have hentry := Call.mk.inj (Option.some.inj (hc.self.symm.trans hcall))
  exact Phase.answered.inj hentry.2.2

theorem Calls.same (hw : Wired cfg s) (h : Matched s) (hc : Calls cfg s t key request answer)
    (hother : ∀ call type body, s.Made call key type body → s.keyed.Owns call →
      type ≠ request.route.type ∨ body ≠ request.body → answer = .conflict)
    {call call' : ℕ} {key' : String} {type type' : OperationType} {body body' : VaultOperationBody}
    (hm : t.Made call key' type body) (hm' : t.Made call' key' type' body')
    (ho : t.keyed.Owns call) (ho' : t.keyed.Owns call') : type = type' ∧ body = body' := by
  have hnew : ∀ {call type body}, s.Made call key type body → s.keyed.Owns call →
      t.keyed.Owns s.keyed.next → type = request.route.type ∧ body = request.body := by
    intro call type body hm ho ho'
    by_contra hne
    have hconflict := hother call type body hm ho (not_and_or.mp hne)
    exact absurd ((hc.started ho').symm.trans hconflict) (by simp)
  rcases (hc.made ..).mp hm with hm | ⟨rfl,rfl,rfl,rfl⟩ <;>
    rcases (hc.made ..).mp hm' with hm' | ⟨rfl,hkey',rfl,rfl⟩
  · exact h.same call call' key' type type' body body' hm hm' ((hc.owns (hm.lt hw)).mp ho)
      ((hc.owns (hm'.lt hw)).mp ho')
  · subst hkey'
    exact hnew hm ((hc.owns (hm.lt hw)).mp ho) ho'
  · obtain ⟨htype,hbody⟩ := hnew hm' ((hc.owns (hm'.lt hw)).mp ho') ho
    exact ⟨htype.symm,hbody.symm⟩
  · exact ⟨rfl,rfl⟩

theorem Matched.call (hw : Wired cfg s) (h : Matched s)
    (hanswered : Answered s now key request answer) (hc : Calls cfg s t key request answer)
    (hother : ∀ call type body, s.Made call key type body → s.keyed.Owns call →
      type ≠ request.route.type ∨ body ≠ request.body → answer = .conflict) : Matched t where
  same := fun _ _ _ _ _ _ _ hm hm' ho ho' => hc.same hw h hother hm hm' ho ho'
  replays := by
    intro call key' type body fingerprint result hm hcall
    rcases (hc.made ..).mp hm with hm | ⟨rfl,rfl,rfl,rfl⟩
    · rw [hc.old (hm.lt hw)] at hcall
      obtain ⟨call',hlt,hm',ho⟩ := h.replays call key' type body fingerprint result hm hcall
      exact ⟨call',hlt,(hc.made ..).mpr (Or.inl hm'),hc.outcome _ _ ho⟩
    · obtain rfl := hc.answer_eq hcall
      cases hanswered with
      | replayed _ call' made owns outcome =>
        exact ⟨call',made.lt hw,(hc.made ..).mpr (Or.inl made),hc.outcome _ _ outcome⟩
  waits := by
    intro call key' type body fingerprint promise hm hcall
    rcases (hc.made ..).mp hm with hm | ⟨rfl,rfl,rfl,rfl⟩
    · rw [hc.old (hm.lt hw)] at hcall
      obtain ⟨hlt,hm'⟩ := h.waits call key' type body fingerprint promise hm hcall
      exact ⟨hlt,(hc.made ..).mpr (Or.inl hm')⟩
    · obtain rfl := hc.answer_eq hcall
      cases hanswered with
      | waiting _ made owns => exact ⟨made.lt hw,(hc.made ..).mpr (Or.inl made)⟩
  refused := by
    intro call call' key' type type' body body' hm hm' hlt ho hdiff
    rcases (hc.made ..).mp hm with hm | ⟨rfl,rfl,rfl,rfl⟩ <;>
      rcases (hc.made ..).mp hm' with hm' | ⟨rfl,-,-,-⟩
    · obtain ⟨fingerprint,hcall⟩ := h.refused call call' key' type type' body body' hm hm' hlt
        ((hc.owns (hm'.lt hw)).mp ho) hdiff
      exact ⟨fingerprint,(hc.old (hm.lt hw)).trans hcall⟩
    · exact absurd (hm.lt hw) hlt.not_gt
    · obtain rfl := hother _ _ _ hm' ((hc.owns (hm'.lt hw)).mp ho) hdiff
      exact ⟨_,hc.self⟩
    · exact absurd hlt (lt_irrefl _)

end Call

def Describes (request : VaultRequest) (result : OperationResult) : Prop :=
  result.type = request.route.type ∧ result.amount = request.body.amount ∧
    result.asset = request.body.asset ∧ result.walletAddress = request.body.walletAddress

structure Plain (keyed : KeyedCalls String String OperationResult OperationError)
    (request : VaultRequest) : Prop where
  results : ∀ result, request.phase = .operating (.finished (.ok result)) ∨
    request.phase = .answered (.created result false) → Describes request result
  outside : ∀ key, request.key = some key → request.call = none →
    request.phase.isOutside ∧ request.landed = none
  unreplayed : ∀ result, request.call = none → request.phase ≠ .answered (.created result true)
  unlanded : ∀ call key fingerprint answer, request.call = some call →
    keyed.calls call = some ⟨key,fingerprint,.answered answer⟩ → answer ≠ .started →
    request.landed = none

section Responses

theorem outcomeResponse_created {replayed replayed' : Bool}
    {outcome : Except OperationError OperationResult} {result : OperationResult}
    (h : outcomeResponse replayed outcome = .created result replayed') :
    outcome = .ok result ∧ replayed = replayed' := by
  cases outcome with
  | ok result' =>
    obtain ⟨rfl,rfl⟩ := VaultResponse.created.inj h
    exact ⟨rfl,rfl⟩
  | error error => cases error <;> cases h

theorem settlement_created (h : Wired cfg s) {id : ℕ} {request : VaultRequest}
    {result : OperationResult} (found : s.requests id = some request)
    (settlement : s.settlement request = some (.created result false)) :
    request.phase = .operating (.finished (.ok result)) := by
  cases hcall : request.call with
  | none =>
    unfold VaultServer.settlement at settlement
    rw [hcall] at settlement
    cases hphase : request.phase with
    | operating step =>
      rw [hphase] at settlement
      cases step with
      | finished outcome =>
        obtain ⟨rfl,-⟩ := outcomeResponse_created (Option.some.inj settlement)
        rfl
      | _ => cases settlement
    | _ => simp [hphase] at settlement
  | some call =>
    obtain ⟨key,phase,-,hentry,hfits⟩ := h.linked id request call found hcall
    have hanswer := Fits.respond settlement hcall hentry hfits
    cases hphase : request.phase with
    | operating step =>
      rw [hphase] at hfits
      cases hfits with
      | running _ => cases hanswer
      | settled _ => cases hanswer
      | returned outcome =>
        cases hanswer with
        | done _ _ same =>
          obtain ⟨rfl,-⟩ := outcomeResponse_created same.symm
          rfl
    | awaiting =>
      rw [hphase] at hfits
      cases hfits with
      | awaiting answer found =>
        cases hanswer with
        | waited _ _ outcome _ same =>
          exact absurd (outcomeResponse_created same.symm).2 (by simp)
    | summing start => rw [hphase] at hfits; cases hfits
    | evaluating start used => rw [hphase] at hfits; cases hfits
    | answered response => simp [VaultServer.settlement,hphase] at settlement

theorem describes_of_operate {request : VaultRequest} {progress : Progress} {step : OperationStep}
    {result : OperationResult} {ledger ledger' : Ledger}
    (h : operate cfg request progress step ledger = some (.finished (.ok result),ledger')) :
    Describes request result := by
  unfold operate at h
  split at h
  · cases h
  · cases h
  · cases h
  · cases h
  · obtain ⟨hstep,-⟩ := Prod.mk.inj (Option.some.inj h)
    cases htype : request.route.type with
    | deposit => simp [htype] at hstep
    | withdrawal =>
      simp only [htype,OperationStep.finished.injEq,Except.ok.injEq] at hstep
      rw [← hstep]
      exact ⟨rfl,rfl,rfl,rfl⟩
  · cases h
  · obtain ⟨hstep,-⟩ := Prod.mk.inj (Option.some.inj h)
    obtain rfl := Except.ok.inj (OperationStep.finished.inj hstep)
    exact ⟨rfl,rfl,rfl,rfl⟩
  · cases h

end Responses

theorem Plain.serve (h : Wired cfg s) {id : ℕ} {request : VaultRequest}
    (found : s.requests id = some request) (hplain : Plain s.keyed request) (event : VaultEvent) :
    Plain (serve cfg event s).keyed request := by
  refine ⟨hplain.results,hplain.outside,hplain.unreplayed,fun call key fingerprint answer hcall hentry hne => ?_⟩
  refine hplain.unlanded call key fingerprint answer hcall ?_ hne
  obtain ⟨_,_,-,hold,-⟩ := h.linked id request call found hcall
  rcases keyed_serve cfg s event with hsame | ⟨stored,hserve,-⟩
  · rw [hsame] at hentry
    exact hentry
  · rw [hserve] at hentry
    exact (KeyedCalls.answered_serve _ _ (h.sound.lt hold) hne).mp hentry

section Changed

variable {id : ℕ} {request : VaultRequest}

theorem plain_outside {keyed : KeyedCalls String String OperationResult OperationError}
    (outside : request.phase.isOutside) (hlanded : request.landed = none) :
    Plain keyed request where
  results := by
    rintro result (hphase | hphase) <;> rw [hphase] at outside <;> exact outside.elim
  outside := fun _ _ _ => ⟨outside,hlanded⟩
  unreplayed := by
    intro result _ hphase
    rw [hphase] at outside
    exact outside.elim
  unlanded := fun _ _ _ _ _ _ _ => hlanded

theorem plain_operated (h : Wired cfg s) {progress : Progress} {step step' : OperationStep}
    {ledger : Ledger} {landed : Option Bool} (found : s.requests id = some request)
    (operating : request.phase = .operating step)
    (operate : operate cfg request progress step s.ledger = some (step',ledger)) :
    Plain s.keyed { request with phase := .operating step', landed := landed } := by
  have hstep := operate_step operate
  refine ⟨?_,fun key hkey hcall => ?_,nofun,?_⟩
  · rintro result (hphase | hphase)
    · obtain rfl := RequestPhase.operating.inj hphase
      exact describes_of_operate operate
    · cases hphase
  · exact absurd ((h.keyless id request step found operating hcall).symm.trans hkey) (by simp)
  · intro call key fingerprint answer hcall hentry hne
    obtain ⟨_,phase,-,hold,hfits⟩ := h.linked id request call found hcall
    obtain ⟨-,-,rfl⟩ := Call.mk.inj (Option.some.inj (hold.symm.trans hentry))
    rw [operating] at hfits
    cases hfits
    exact absurd rfl hne

/-- Without a call of the store it is the operation's own outcome that answers. -/
theorem settlement_keyless {response : VaultResponse} (hcall : request.call = none)
    (settlement : s.settlement request = some response) : ∃ outcome,
      request.phase = .operating (.finished outcome) ∧
        response = outcomeResponse false outcome := by
  unfold VaultServer.settlement at settlement
  rw [hcall] at settlement
  cases hphase : request.phase with
  | operating step =>
    rw [hphase] at settlement
    cases step with
    | finished outcome => exact ⟨outcome,rfl,(Option.some.inj settlement).symm⟩
    | _ => cases settlement
  | _ => simp [hphase] at settlement

theorem plain_responded (h : Wired cfg s) {response : VaultResponse}
    (found : s.requests id = some request) (settlement : s.settlement request = some response)
    (hold : Plain s.keyed request) : Plain s.keyed (request.at (.answered response)) := by
  refine ⟨?_,fun key hkey hcall => ?_,fun result hcall hphase => ?_,hold.unlanded⟩
  · rintro result (hphase | hphase)
    · cases hphase
    · obtain rfl := RequestPhase.answered.inj hphase
      exact hold.results result (Or.inl (settlement_created h found settlement))
  · obtain ⟨outcome,hphase,-⟩ := settlement_keyless (show request.call = none from hcall) settlement
    exact absurd ((h.keyless id request _ found hphase hcall).symm.trans hkey) (by simp)
  · obtain ⟨outcome,-,hsame⟩ := settlement_keyless (show request.call = none from hcall) settlement
    obtain rfl := RequestPhase.answered.inj hphase
    exact absurd (outcomeResponse_created hsame.symm).2 (by simp)

end Changed

theorem plain_serve (h : Wired cfg s)
    (hplain : ∀ id request, s.requests id = some request → Plain s.keyed request)
    (event : VaultEvent) : ∀ id request, (serve cfg event s).requests id = some request →
      Plain (serve cfg event s).keyed request := by
  have hkept := fun id request found => (hplain id request found).serve h found event
  have hchange := change_serve cfg s event
  revert hkept hchange
  generalize serve cfg event s = t
  intro hkept hchange
  have hupdate : ∀ {id : ℕ} {r : VaultRequest},
      t.requests = Function.update s.requests id (some r) → Plain t.keyed r →
      ∀ other request, t.requests other = some request → Plain t.keyed request := by
    intro id r hrequests hr other request hrequest
    rw [hrequests] at hrequest
    rcases update_eq_some.mp hrequest with ⟨-,hsame⟩ | ⟨-,hold⟩
    · exact Option.some.inj hsame ▸ hr
    · exact hkept other request hold
  cases hchange with
  | settings _ _ keyed wallets ledger requests next =>
    intro id request hrequest
    exact hkept id request (requests ▸ hrequest)
  | deleted _ deletion kind => exact hkept
  | gated _ id next request comes target outside accepted =>
    exact hupdate rfl (plain_outside outside (comes.early h).2.2.2.1)
  | entered _ now id next request comes enters =>
    obtain ⟨-,-,hcall,hlanded,-⟩ := comes.early h
    have hentered := entered_enter cfg { s with next := next } now id request
    revert hentered hupdate
    generalize enter cfg now id request { s with next := next } = t
    intro hupdate hentered
    cases hentered with
    | locked busy => exact hupdate rfl (plain_outside trivial hlanded)
    | keyless free key =>
      refine hupdate rfl ⟨?_,fun other hkey _ => ?_,nofun,fun _ _ _ _ _ _ _ => hlanded⟩
      · rintro result (hphase | hphase) <;> cases hphase
      · exact absurd (key.symm.trans hkey) (by simp)
    | keyed free key hkey answer store execute =>
      refine hupdate rfl ⟨?_,nofun,nofun,fun _ _ _ _ _ _ _ => hlanded⟩
      rintro result (hphase | hphase) <;> cases answer <;> cases hphase
  | operated id progress request step step' ledger found operating operate =>
    exact hupdate rfl (plain_operated h found operating operate)
  | settled id now request found =>
    intro other r hr
    refine hkept other r ?_
    unfold settle at hr
    split at hr <;> exact hr
  | released id request found =>
    intro other r hr
    refine hkept other r ?_
    unfold release at hr
    split at hr <;> exact hr
  | responded id request response found settlement =>
    exact hupdate rfl (plain_responded h found settlement (hplain id request found))

/-- A replayed response was produced by an earlier call of the same key, for the same
operation and body, and another use of a key that has started an operation is refused. -/
structure ReplaysMatch (s : VaultServer) : Prop where
  replayed : ∀ id request result, s.requests id = some request →
    request.phase = .answered (.created result true) → Describes request result ∧
    ∃ id' request' call call', s.requests id' = some request' ∧ request.call = some call ∧
      request'.call = some call' ∧ call' < call ∧ request'.key = request.key ∧
      request'.route.type = request.route.type ∧ request'.body = request.body ∧
      s.keyed.outcome call' = some (.ok result)
  conflict : ∀ id id' request request' call call', s.requests id = some request →
    s.requests id' = some request' → request.call = some call → request'.call = some call' →
    call' < call → request'.key = request.key → s.keyed.Owns call' →
    request'.route.type ≠ request.route.type ∨ request'.body ≠ request.body →
    request.landed = none ∧
      (request.phase = .awaiting ∧ s.settlement request = some .keyConflict ∨
        request.phase = .answered .keyConflict)
  locked : ∀ id request key, s.requests id = some request → request.key = some key →
    request.call = none → request.phase.isOutside ∧ request.landed = none

theorem describes_of_outcome (h : Wired cfg s) {id call : ℕ} {request : VaultRequest}
    {result : OperationResult} (found : s.requests id = some request)
    (hcall : request.call = some call) (hplain : Plain s.keyed request)
    (houtcome : s.keyed.outcome call = some (.ok result)) : Describes request result := by
  obtain ⟨key,phase,-,hentry,hfits⟩ := h.linked id request call found hcall
  simp only [KeyedCalls.outcome,hentry,Option.bind_some] at houtcome
  refine hplain.results result ?_
  revert hfits
  generalize request.phase = at_
  intro hfits
  cases hfits with
  | running _ => cases houtcome
  | settled outcome =>
    obtain rfl := Option.some.inj houtcome
    exact Or.inl rfl
  | returned outcome =>
    obtain rfl := Option.some.inj houtcome
    exact Or.inl rfl
  | awaiting _ _ => cases houtcome
  | done response outcome same =>
    obtain rfl := Option.some.inj houtcome
    exact Or.inr (congrArg RequestPhase.answered same)
  | conflict => cases houtcome
  | replayed _ => cases houtcome
  | waited _ _ _ _ _ => cases houtcome

theorem Matched.replaysMatch (hw : Wired cfg s) (h : Matched s)
    (hplain : ∀ id request, s.requests id = some request → Plain s.keyed request) :
    ReplaysMatch s := by
  refine ⟨?_,?_,fun id request key hr => (hplain id request hr).outside key⟩
  · intro id request result hr hphase
    cases hcall : request.call with
    | none => exact absurd hphase ((hplain id request hr).unreplayed result hcall)
    | some call =>
      obtain ⟨key,phase,hkey,hentry,hfits⟩ := hw.linked id request call hr hcall
      have hmine : s.Made call key request.route.type request.body :=
        ⟨id,request,hr,hcall,hkey,rfl,rfl⟩
      obtain ⟨call',hlt,⟨id',request',hr',hcall',hkey',htype,hbody⟩,houtcome⟩ :
          ∃ call' < call, s.Made call' key request.route.type request.body ∧
            s.keyed.outcome call' = some (.ok result) := by
        rw [hphase] at hfits
        cases hfits with
        | done _ outcome same => exact absurd (outcomeResponse_created same.symm).2 (by simp)
        | replayed _ => exact h.replays call key _ _ _ result hmine hentry
        | waited _ promise outcome known same =>
          obtain ⟨rfl,-⟩ := outcomeResponse_created same.symm
          obtain ⟨hlt,hmade⟩ := h.waits call key _ _ _ promise hmine hentry
          exact ⟨promise,hlt,hmade,known⟩
      have hdescribes := describes_of_outcome hw hr' hcall' (hplain id' request' hr') houtcome
      refine ⟨?_,id',request',call,call',hr',rfl,hcall',hlt,hkey'.trans hkey.symm,htype,hbody,
        houtcome⟩
      rw [Describes,htype,hbody] at hdescribes
      exact hdescribes
  · intro id id' request request' call call' hr hr' hcall hcall' hlt hkey howns hdiff
    obtain ⟨key,phase,hsome,hentry,hfits⟩ := hw.linked id request call hr hcall
    obtain ⟨fingerprint,hconflict⟩ := h.refused call call' key _ _ _ _
      ⟨id,request,hr,hcall,hsome,rfl,rfl⟩ ⟨id',request',hr',hcall',hkey.trans hsome,rfl,rfl⟩ hlt
      howns hdiff
    refine ⟨(hplain id request hr).unlanded call key _ _ hcall hconflict nofun,?_⟩
    obtain ⟨-,-,rfl⟩ := Call.mk.inj (Option.some.inj (hentry.symm.trans hconflict))
    cases hphase : request.phase with
    | operating step => rw [hphase] at hfits; cases hfits
    | summing start => rw [hphase] at hfits; cases hfits
    | evaluating start used => rw [hphase] at hfits; cases hfits
    | awaiting => exact Or.inl ⟨rfl,by simp [VaultServer.settlement,hphase,hcall,hconflict]⟩
    | answered response =>
      rw [hphase] at hfits
      cases hfits with
      | conflict => exact Or.inr rfl

end VaultServer

section Runs

open VaultServer

theorem matched_serve {cfg : VaultConfig} {s : VaultServer} (hw : Wired cfg s) (h : Matched s)
    {event : VaultEvent} (hdigests : CollisionFree cfg s event) (hreuses : ReusesKept cfg s event) :
    Matched (serve cfg event s) := by
  rcases made_serve hw event with ⟨hmade,hkeyed⟩ | ⟨now,id,request,key,henters,hkey,hfree,hkeyed,hmade⟩
  · exact h.keep hw hmade hkeyed
  · obtain ⟨answer,store,hex⟩ : ∃ answer store,
        s.keyed.store.execute cfg.ttlMs now key (request.fingerprint cfg) s.keyed.next =
          (answer,store) := ⟨_,_,rfl⟩
    have hanswered := answered_of_execute hw hreuses hdigests henters hkey hfree hex
    exact h.call hw hanswered (.of_execute hw hex hkeyed hmade) fun _ _ _ hm ho hdiff =>
      conflict_of_other h hreuses henters hkey hfree hanswered hm ho hdiff

/-- Replays match their request, and a key in use is refused to other requests, in every run
where the digests of different bodies differ and a key that has started an operation comes
again for another one only while its entry is there, and not with the same body. -/
theorem replays_match (cfg : VaultConfig) (events : List VaultEvent)
    (hdigests : Runs.Along (serve cfg) (CollisionFree cfg) {} events)
    (hreuses : Runs.Along (serve cfg) (ReusesKept cfg) {} events) :
    ReplaysMatch (runFrom cfg events) := by
  have hstep : ∀ (s : VaultServer) event, (Wired cfg s ∧ Matched s ∧
      ∀ id request, s.requests id = some request → Plain s.keyed request) →
      CollisionFree cfg s event ∧ ReusesKept cfg s event →
      Wired cfg (serve cfg event s) ∧ Matched (serve cfg event s) ∧
        ∀ id request, (serve cfg event s).requests id = some request →
          Plain (serve cfg event s).keyed request :=
    fun s event h hg => ⟨h.1.serve event,matched_serve h.1 h.2.1 hg.1 hg.2,
      plain_serve h.1 h.2.2 event⟩
  have hrequests : ∀ {id : ℕ} {request : VaultRequest},
      ({} : VaultServer).requests id ≠ some request := nofun
  have hmade : ∀ {call key type body}, ¬ ({} : VaultServer).Made call key type body :=
    fun ⟨_,_,hr,_⟩ => hrequests hr
  have h0 : Matched {} := ⟨fun _ _ _ _ _ _ _ h => absurd h hmade,
    fun _ _ _ _ _ _ h => absurd h hmade,fun _ _ _ _ _ _ h => absurd h hmade,
    fun _ _ _ _ _ _ _ h => absurd h hmade⟩
  obtain ⟨hw,hmatched,hplain⟩ := (hdigests.and hreuses).invariant hstep
    ⟨Wired.initial cfg,h0,fun _ _ h => absurd h hrequests⟩
  exact hmatched.replaysMatch hw hplain

/-- A deposit, a retry of it that is replayed, and its response. -/
def replayedDeposit : List VaultEvent :=
  aliceSends .deposits 0 1000 :: goesWell 0 1 ++
    [aliceSends .deposits 2 1000,.proceed 1 .respond]

def aliceDeposited : VaultServer :=
  runFrom openConfig (aliceSends .deposits 0 1000 :: goesWell 0 1)

theorem aliceDeposited_only (id : ℕ) (request : VaultRequest)
    (h : aliceDeposited.requests id = some request) :
    request.route = .deposits ∧ request.body = aliceBody 1000 := by
  have hfresh := (run_wired openConfig (aliceSends .deposits 0 1000 :: goesWell 0 1)).fresh
  have hid : id = 0 := by
    by_contra hne
    have hnone : aliceDeposited.requests id = none := hfresh id (Nat.one_le_iff_ne_zero.mpr hne)
    exact absurd (hnone.symm.trans h) (by simp)
  subst hid
  obtain rfl := Option.some.inj h
  exact ⟨rfl,rfl⟩

/-- After its arrival a deposit lets no request in. -/
theorem goesWell_quiet (cfg : VaultConfig) (id now : ℕ) (event : VaultEvent)
    (h : event ∈ goesWell id now ∨ event = .proceed 1 .respond) (s : VaultServer) :
    CollisionFree cfg s event ∧ ReusesKept cfg s event := by
  have hquiet : ∀ time other request, ¬ s.Enters cfg event time other request := by
    intro time other request henters
    cases henters with
    | arrives => simp [goesWell] at h
    | evaluated => simp [goesWell] at h
  exact ⟨fun time other request henters => absurd henters (hquiet time other request),
    fun time other request _ henters => absurd henters (hquiet time other request)⟩

theorem replayedDeposit_matches : ReplaysMatch (runFrom openConfig replayedDeposit) := by
  have hrequests : ∀ {id : ℕ} {request : VaultRequest},
      ({} : VaultServer).requests id ≠ some request := nofun
  have hretry : ∀ now id request,
      aliceDeposited.Enters openConfig (aliceSends .deposits 2 1000) now id request →
      request.route = .deposits ∧ request.body = aliceBody 1000 := by
    rintro now id request henters
    cases henters with
    | arrives _ _ _ _ _ _ _ deposit gates => exact ⟨rfl,(Except.ok.inj gates).symm⟩
  have hquiet := goesWell_quiet openConfig 0 1
  refine replays_match openConfig replayedDeposit
    (Runs.along_append.mpr ⟨⟨?_,?_⟩,?_,(hquiet _ (Or.inr rfl) _).1,trivial⟩)
    (Runs.along_append.mpr ⟨⟨?_,?_⟩,?_,(hquiet _ (Or.inr rfl) _).2,trivial⟩)
  · exact fun _ _ _ _ _ _ hr => absurd hr hrequests
  · exact Runs.along_of_forall_mem (fun event he s => (hquiet event (Or.inl he) s).1) _
  · exact fun now id request henters other r hr _ =>
      (aliceDeposited_only other r hr).2.trans (hretry now id request henters).2.symm
  · exact fun _ _ _ _ _ _ _ _ _ _ ⟨_,_,hr,_⟩ => absurd hr hrequests
  · exact Runs.along_of_forall_mem (fun event he s => (hquiet event (Or.inl he) s).2) _
  · rintro now id request key henters - - call type body ⟨other,r,hr,-,-,rfl,rfl⟩ - hdiff
    obtain ⟨hroute,hbody⟩ := aliceDeposited_only other r hr
    obtain ⟨hroute',hbody'⟩ := hretry now id request henters
    simp [hroute,hroute',hbody,hbody'] at hdiff

def crossedRequests : List VaultEvent :=
  aliceSends .deposits 0 1000 :: goesWell 0 1 ++
    [aliceSends .withdrawals 2 1000,.proceed 1 .sum,.proceed 1 (.evaluate 3),.proceed 1 .respond]

/-- The withdrawal is answered with the response of the deposit. -/
theorem crossedRequests_mismatch : ¬ ∀ (events : List VaultEvent) (id : ℕ)
    (request : VaultRequest) (result : OperationResult),
    (runFrom openConfig events).requests id = some request →
    request.phase = .answered (.created result true) → result.type = request.route.type := by
  intro h
  have hsame := h crossedRequests 1
    ⟨.withdrawals,some "key",aliceBody 1000,.answered (.created aliceResult true),some 1,none⟩
    aliceResult (by with_unfolding_all rfl) rfl
  exact absurd hsame (by decide)

end Runs

end YieldVault.Backend
