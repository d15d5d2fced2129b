import YieldVault.Runs
import YieldVault.Backend.AdminRoles

/-! Changes of the API keys. A handler changes the keys, waits until the audit event is written,
and takes the change back if that fails; in between other requests are handled. -/
namespace YieldVault.Backend

abbrev KeyStore := String → Option ApiKeyMetadata

structure KeyRoutesConfig where
  hashApiKey : String → String
  hasRequiredApiKeyRole : String → ApiKeyRole → Bool
  normalizeApiKeyRole : Option String → Option ApiKeyRole

/-- The fields of the body, `none` where they are no strings. -/
inductive KeyChange
  | register (key role : Option String)
  | rotate (oldHash newKey : Option String)
  | revoke (hash : Option String)

structure KeyRequest where
  authorization : String
  change : KeyChange
  now : ℕ

inductive KeyResponse
  | refused (status : ℕ) (error : String) (message : Option String)
  | registered (hash fingerprint : String) (role : ApiKeyRole) (created : ℕ)
  | rotated (oldFingerprint newHash newFingerprint : String) (rotatedAt : ℕ)
  | revoked (fingerprint : String) (revokedAt : ℕ)

/-- A request whose audit event is being written, with what the handler has read. -/
inductive PendingChange
  | register (hash : String) (role : ApiKeyRole)
  | rotate (oldHash newHash : String) (previousMetadata : ApiKeyMetadata)
  | revoke (hash : String) (previousMetadata : ApiKeyMetadata)

section Store

variable (hashApiKey : String → String)

def registerApiKey (key : String) (now : ℕ) (keys : KeyStore) : String × KeyStore :=
  (hashApiKey key,Function.update keys (hashApiKey key) (some ⟨now,none⟩))

def revokeApiKey (hash : String) (keys : KeyStore) : KeyStore := Function.update keys hash none

def rotateApiKey (oldHash newKey : String) (now : ℕ) (keys : KeyStore) :
    Option (String × KeyStore) :=
  match keys oldHash with
  | none => none
  | some metadata =>
    let newHash := hashApiKey newKey
    some (newHash,Function.update (Function.update keys oldHash none) newHash
      (some ⟨metadata.createdAt,some now⟩))

def getApiKeyMetadata (hash : String) (keys : KeyStore) : Option ApiKeyMetadata := keys hash

def restoreApiKey (hash : String) (metadata : ApiKeyMetadata) (keys : KeyStore) : KeyStore :=
  Function.update keys hash (some metadata)

end Store

section Routes

def trimText (text : String) : String :=
  String.ofList ((text.toList.dropWhile isSpace).reverse.dropWhile isSpace).reverse

def isApiKeyHash (value : String) : Bool :=
  let chars := (trimText value).toList
  decide (chars.length = 64) && chars.all fun c =>
    c.isDigit || decide ('a' ≤ c ∧ c ≤ 'f') || decide ('A' ≤ c ∧ c ≤ 'F')

/-- The text without the blanks around it, if that leaves something. -/
def givenKey (key : Option String) : Option String := (key.map trimText).filter (· ≠ "")

def givenHash (hash : Option String) : Option String := hash.filter isApiKeyHash

def getApiKeyFingerprintFromHash (hash : String) : String :=
  "sha256:" ++ String.ofList ((trimText hash).toLower.toList.take 16)

/-- What a handler does before it waits: it refuses, or changes the keys. -/
abbrev KeyRoute := KeyStore → Except KeyResponse (PendingChange × KeyStore)

variable (cfg : KeyRoutesConfig)

def notFound : KeyResponse := .refused 404 "Not Found" (some "API key not found")

def registerRoute (caller : String) (key requestedRole : Option String) (now : ℕ) : KeyRoute :=
  fun keys =>
    match givenKey key with
    | none => .error (.refused 400 "Missing key in request body" none)
    | some normalizedKey =>
      let role := (cfg.normalizeApiKeyRole requestedRole).getD .admin
      if role = .superAdmin ∧ cfg.hasRequiredApiKeyRole caller .superAdmin = false then
        .error (.refused 403 "Forbidden"
          (some "Super-admin role is required to register super-admin API keys"))
      else
        let (hash,keys) := registerApiKey cfg.hashApiKey normalizedKey now keys
        .ok (.register hash role,keys)

def rotateRoute (oldHash newKey : Option String) (now : ℕ) : KeyRoute := fun keys =>
  match givenHash oldHash with
  | none => .error (.refused 400 "Bad Request"
      (some "oldHash must be a valid SHA-256 API key hash"))
  | some oldHash => match givenKey newKey with
    | none => .error (.refused 400 "Bad Request" (some "newKey is required"))
    | some normalizedNewKey => match getApiKeyMetadata oldHash keys with
      | none => .error notFound
      | some previousMetadata =>
        match rotateApiKey cfg.hashApiKey oldHash normalizedNewKey now keys with
        | none => .error notFound
        | some (newHash,keys) => .ok (.rotate oldHash newHash previousMetadata,keys)

def revokeRoute (hash : Option String) : KeyRoute := fun keys =>
  match givenHash hash with
  | none => .error (.refused 400 "Bad Request"
      (some "hash must be a valid SHA-256 API key hash"))
  | some hash => match getApiKeyMetadata hash keys with
    | none => .error notFound
    | some previousMetadata => .ok (.revoke hash previousMetadata,revokeApiKey hash keys)

def KeyRequest.caller (request : KeyRequest) : Option String :=
  (matchApiKey request.authorization).map cfg.hashApiKey

def KeyRequest.start (request : KeyRequest) : KeyRoute := fun keys =>
  match request.caller cfg with
  | none => .error (.refused 401 "Unauthorized" (some "Missing or invalid API key"))
  | some caller =>
    if (keys caller).isNone then .error (.refused 401 "Unauthorized" (some "Invalid API key"))
    else match request.change with
      | .register key role => registerRoute cfg caller key role request.now keys
      | .rotate oldHash newKey => rotateRoute cfg oldHash newKey request.now keys
      | .revoke hash => revokeRoute hash keys

def PendingChange.answer (now : ℕ) : PendingChange → KeyResponse
  | .register hash role => .registered hash (getApiKeyFingerprintFromHash hash) role now
  | .rotate oldHash newHash _ => .rotated (getApiKeyFingerprintFromHash oldHash) newHash
      (getApiKeyFingerprintFromHash newHash) now
  | .revoke hash _ => .revoked (getApiKeyFingerprintFromHash hash) now

def PendingChange.compensate : PendingChange → KeyStore → KeyStore
  | .register hash _, keys => revokeApiKey hash keys
  | .rotate oldHash newHash previousMetadata, keys =>
    restoreApiKey oldHash previousMetadata (revokeApiKey newHash keys)
  | .revoke hash previousMetadata, keys => restoreApiKey hash previousMetadata keys

end Routes

/-- The keys, the requests that wait for the audit, and the answers, latest first. -/
structure KeyServer where
  keys : KeyStore := fun _ => none
  pending : ℕ → Option PendingChange := fun _ => none
  answers : List (ℕ × KeyResponse) := []

inductive KeyChangeEvent
  | begin (id : ℕ) (request : KeyRequest)
  | audited (id : ℕ) (now : ℕ)
  | failed (id : ℕ) (message : String)

def KeyChangeEvent.id : KeyChangeEvent → ℕ
  | .begin id _ => id
  | .audited id _ => id
  | .failed id _ => id

namespace KeyServer

variable (cfg : KeyRoutesConfig)

def serve : KeyChangeEvent → KeyServer → KeyServer
  | .begin id request, s =>
    if (s.pending id).isSome then s
    else match request.start cfg s.keys with
      | .error response => { s with answers := (id,response) :: s.answers }
      | .ok (change,keys) =>
        { s with keys := keys, pending := Function.update s.pending id (some change) }
  | .audited id now, s => match s.pending id with
    | none => s
    | some change => { s with
        pending := Function.update s.pending id none
        answers := (id,change.answer now) :: s.answers }
  | .failed id message, s => match s.pending id with
    | none => s
    | some change => { s with
        keys := change.compensate s.keys
        pending := Function.update s.pending id none
        answers := (id,.refused 500 "Internal Server Error" (some message)) :: s.answers }

def run (events : List KeyChangeEvent) (s : KeyServer) : KeyServer :=
  Runs.run (serve cfg) events s

end KeyServer

section Frames

variable (cfg : KeyRoutesConfig)

def PendingChange.hashes : PendingChange → List String
  | .register hash _ => [hash]
  | .rotate oldHash newHash _ => [oldHash,newHash]
  | .revoke hash _ => [hash]

/-- The hashes that a request names, where its handler would go on with it. -/
def KeyChange.hashes : KeyChange → List String
  | .register key _ => ((givenKey key).map cfg.hashApiKey).toList
  | .rotate oldHash newKey =>
    (givenHash oldHash).toList ++ ((givenKey newKey).map cfg.hashApiKey).toList
  | .revoke hash => (givenHash hash).toList

/-- The hash that it comes from and those that it names. -/
def KeyRequest.hashes (request : KeyRequest) : List String :=
  (request.caller cfg).toList ++ request.change.hashes cfg

/-- A route that reads and writes the keys of these hashes only. -/
def Framed (hashes : List String) (route : KeyRoute) : Prop :=
  ∀ keys keys', (∀ h ∈ hashes, keys h = keys' h) →
    (∃ response, route keys = .error response ∧ route keys' = .error response) ∨
    ∃ change after after', route keys = .ok (change,after) ∧ route keys' = .ok (change,after') ∧
      change.hashes ⊆ hashes ∧ (∀ h ∈ hashes, after h = after' h) ∧
      (∀ h ∉ hashes, after h = keys h) ∧ ∀ h ∉ hashes, after' h = keys' h

variable {cfg} {keys keys' : KeyStore} {hashes : List String} {route : KeyRoute}

theorem Framed.mono {hashes' : List String} (h : Framed hashes route) (hsub : hashes ⊆ hashes') :
    Framed hashes' route := by
  intro keys keys' hagree
  rcases h keys keys' fun x hx => hagree x (hsub hx) with
    herror | ⟨change,after,after',hok,hok',hin,hsame,hkept,hkept'⟩
  · exact .inl herror
  · refine .inr ⟨change,after,after',hok,hok',fun x hx => hsub (hin hx),fun x hx => ?_,
      fun x hx => hkept x fun hmem => hx (hsub hmem),
      fun x hx => hkept' x fun hmem => hx (hsub hmem)⟩
    by_cases hmem : x ∈ hashes
    · exact hsame x hmem
    · rw [hkept x hmem,hkept' x hmem]
      exact hagree x hx

theorem registerRoute_framed (caller : String) (key requestedRole : Option String) (now : ℕ) :
    Framed (KeyChange.hashes cfg (.register key requestedRole))
      (registerRoute cfg caller key requestedRole now) := by
  intro keys keys' hagree
  simp only [KeyChange.hashes,registerRoute]
  generalize givenKey key = given
  cases given with
  | none => exact .inl ⟨_,rfl,rfl⟩
  | some normalizedKey =>
    simp only
    split_ifs
    · exact .inl ⟨_,rfl,rfl⟩
    · refine .inr ⟨_,_,_,rfl,rfl,fun x hx => hx,fun x hx => ?_,fun x hx => ?_,fun x hx => ?_⟩
      all_goals simp_all [registerApiKey]

theorem rotateRoute_framed (oldHash newKey : Option String) (now : ℕ) :
    Framed (KeyChange.hashes cfg (.rotate oldHash newKey))
      (rotateRoute cfg oldHash newKey now) := by
  intro keys keys' hagree
  simp only [KeyChange.hashes,rotateRoute] at hagree ⊢
  generalize givenHash oldHash = named at hagree ⊢
  generalize givenKey newKey = given at hagree ⊢
  cases named with
  | none => exact .inl ⟨_,rfl,rfl⟩
  | some oldHash =>
    cases given with
    | none => exact .inl ⟨_,rfl,rfl⟩
    | some normalizedNewKey =>
      have hold : keys oldHash = keys' oldHash := hagree oldHash (by simp)
      simp only [getApiKeyMetadata,rotateApiKey,← hold]
      cases keys oldHash with
      | none => exact .inl ⟨_,rfl,rfl⟩
      | some metadata =>
        refine .inr ⟨_,_,_,rfl,rfl,fun x hx => hx,fun x hx => ?_,fun x hx => ?_,fun x hx => ?_⟩
        · have hx : x = oldHash ∨ x = cfg.hashApiKey normalizedNewKey := by simpa using hx
          rcases hx with rfl | rfl <;> simp [Function.update_apply]
        all_goals simp_all

theorem revokeRoute_framed (hash : Option String) :
    Framed (KeyChange.hashes cfg (.revoke hash)) (revokeRoute hash) := by
  intro keys keys' hagree
  simp only [KeyChange.hashes,revokeRoute] at hagree ⊢
  generalize givenHash hash = named at hagree ⊢
  cases named with
  | none => exact .inl ⟨_,rfl,rfl⟩
  | some hash =>
    have hsame : keys hash = keys' hash := hagree hash (by simp)
    simp only [getApiKeyMetadata,← hsame]
    cases keys hash with
    | none => exact .inl ⟨_,rfl,rfl⟩
    | some metadata =>
      refine .inr ⟨_,_,_,rfl,rfl,fun x hx => hx,fun x hx => ?_,fun x hx => ?_,fun x hx => ?_⟩
      all_goals simp_all [revokeApiKey]

/-- A request depends on and changes no keys but its caller's and those that it names. -/
theorem start_framed (request : KeyRequest) : Framed (request.hashes cfg) (request.start cfg) := by
  intro keys keys' hagree
  simp only [KeyRequest.start]
  cases hcaller : request.caller cfg with
  | none => exact .inl ⟨_,rfl,rfl⟩
  | some caller =>
    have hsame : keys caller = keys' caller :=
      hagree caller (by simp [KeyRequest.hashes,hcaller])
    have hsub : request.change.hashes cfg ⊆ request.hashes cfg :=
      fun x hx => List.mem_append_right _ hx
    simp only [← hsame]
    by_cases hknown : (keys caller).isNone = true
    · simp only [hknown,if_true]
      exact .inl ⟨_,rfl,rfl⟩
    · simp only [hknown]
      cases hchange : request.change with
      | register key role =>
        rw [hchange] at hsub
        exact (registerRoute_framed caller key role request.now).mono hsub keys keys' hagree
      | rotate oldHash newKey =>
        rw [hchange] at hsub
        exact (rotateRoute_framed oldHash newKey request.now).mono hsub keys keys' hagree
      | revoke hash =>
        rw [hchange] at hsub
        exact (revokeRoute_framed hash).mono hsub keys keys' hagree

end Frames

section Compensation

variable {cfg : KeyRoutesConfig} {keys keys' : KeyStore}

/-- The hash that a request sets is not registered, or it is the one that it replaces. -/
def KeyChange.Fresh (cfg : KeyRoutesConfig) (keys : KeyStore) : KeyChange → Prop
  | .register key _ => ∀ given ∈ givenKey key, keys (cfg.hashApiKey given) = none
  | .rotate oldHash newKey => ∀ given ∈ givenKey newKey, cfg.hashApiKey given ∈ givenHash oldHash ∨
      keys (cfg.hashApiKey given) = none
  | .revoke _ => True

theorem compensate_frame (change : PendingChange) {x : String} (hx : x ∉ change.hashes) :
    change.compensate keys x = keys x := by
  cases change with
  | register hash role => simp_all [PendingChange.hashes,PendingChange.compensate,revokeApiKey]
  | rotate oldHash newHash metadata =>
    simp_all [PendingChange.hashes,PendingChange.compensate,revokeApiKey,restoreApiKey]
  | revoke hash metadata =>
    simp_all [PendingChange.hashes,PendingChange.compensate,restoreApiKey]

theorem compensate_agree (change : PendingChange) {x : String} (hx : x ∈ change.hashes) :
    change.compensate keys x = change.compensate keys' x := by
  cases change with
  | register hash role => simp_all [PendingChange.hashes,PendingChange.compensate,revokeApiKey]
  | rotate oldHash newHash metadata =>
    have hx : x = oldHash ∨ x = newHash := by simpa [PendingChange.hashes] using hx
    rcases hx with rfl | rfl <;>
      simp [PendingChange.compensate,revokeApiKey,restoreApiKey,Function.update_apply]
  | revoke hash metadata =>
    simp_all [PendingChange.hashes,PendingChange.compensate,restoreApiKey]

/-- The change is about the hashes that the request names and leaves the others; taking it back
gives them what they had if the hash that is set was fresh. -/
def TakenBack (cfg : KeyRoutesConfig) (keys after : KeyStore) (request : KeyChange)
    (change : PendingChange) : Prop :=
  change.hashes = request.hashes cfg ∧ (∀ x ∉ change.hashes, after x = keys x) ∧
    ((∀ x ∈ change.hashes, change.compensate keys x = keys x) ↔ request.Fresh cfg keys)

theorem registerRoute_ok {caller : String} {key role : Option String} {now : ℕ}
    {change : PendingChange} {after : KeyStore}
    (h : registerRoute cfg caller key role now keys = .ok (change,after)) :
    TakenBack cfg keys after (.register key role) change := by
  simp only [TakenBack,KeyChange.hashes,KeyChange.Fresh,registerRoute] at h ⊢
  generalize givenKey key = given at h ⊢
  cases given with
  | none => cases h
  | some normalizedKey =>
    simp only at h
    split_ifs at h
    obtain ⟨rfl,rfl⟩ := Prod.mk.inj (Except.ok.inj h)
    refine ⟨rfl,fun x hx => ?_,?_⟩
    · simp_all [PendingChange.hashes,registerApiKey]
    · simp [PendingChange.hashes,PendingChange.compensate,revokeApiKey,registerApiKey,eq_comm]

theorem rotateRoute_ok {oldHash newKey : Option String} {now : ℕ} {change : PendingChange}
    {after : KeyStore} (h : rotateRoute cfg oldHash newKey now keys = .ok (change,after)) :
    TakenBack cfg keys after (.rotate oldHash newKey) change := by
  simp only [TakenBack,KeyChange.hashes,KeyChange.Fresh,rotateRoute] at h ⊢
  generalize givenHash oldHash = named at h ⊢
  generalize givenKey newKey = given at h ⊢
  cases named with
  | none => cases h
  | some oldHash =>
    cases given with
    | none => cases h
    | some normalizedNewKey =>
      simp only [getApiKeyMetadata,rotateApiKey] at h
      cases hold : keys oldHash with
      | none => simp [hold] at h
      | some metadata =>
        simp only [hold,Except.ok.injEq,Prod.mk.injEq] at h
        obtain ⟨rfl,rfl⟩ := h
        refine ⟨rfl,fun x hx => by simp_all [PendingChange.hashes],?_⟩
        by_cases hsame : cfg.hashApiKey normalizedNewKey = oldHash
        · simp [PendingChange.hashes,PendingChange.compensate,restoreApiKey,hsame,hold]
        · have hne : oldHash ≠ cfg.hashApiKey normalizedNewKey := fun heq => hsame heq.symm
          have hnew : (none = keys (cfg.hashApiKey normalizedNewKey)) ↔
              keys (cfg.hashApiKey normalizedNewKey) = none := eq_comm
          simp [PendingChange.hashes,PendingChange.compensate,restoreApiKey,revokeApiKey,hsame,
            hne,hold,hnew]

theorem revokeRoute_ok {hash : Option String} {change : PendingChange} {after : KeyStore}
    (h : revokeRoute hash keys = .ok (change,after)) :
    TakenBack cfg keys after (.revoke hash) change := by
  simp only [TakenBack,KeyChange.hashes,KeyChange.Fresh,revokeRoute] at h ⊢
  generalize givenHash hash = named at h ⊢
  cases named with
  | none => cases h
  | some hash =>
    simp only [getApiKeyMetadata] at h
    cases hold : keys hash with
    | none => simp [hold] at h
    | some metadata =>
      simp only [hold,Except.ok.injEq,Prod.mk.injEq] at h
      obtain ⟨rfl,rfl⟩ := h
      refine ⟨rfl,fun x hx => by simp_all [PendingChange.hashes,revokeApiKey],?_⟩
      simp [PendingChange.hashes,PendingChange.compensate,restoreApiKey,hold]

theorem start_ok {request : KeyRequest} {change : PendingChange} {after : KeyStore}
    (h : request.start cfg keys = .ok (change,after)) :
    TakenBack cfg keys after request.change change := by
  unfold KeyRequest.start at h
  split at h
  · cases h
  · split_ifs at h
    cases hchange : request.change with
    | register key role =>
      rw [hchange] at h
      exact registerRoute_ok h
    | rotate oldHash newKey =>
      rw [hchange] at h
      exact rotateRoute_ok h
    | revoke hash =>
      rw [hchange] at h
      exact revokeRoute_ok h

end Compensation

section Interleavings

variable (cfg : KeyRoutesConfig)

/-- An event that has nothing to do with the hashes of a change: a request that begins neither
comes from one of them nor names one, and one that fails was not about one of them. -/
def Apart (s : KeyServer) (change : KeyChange) : KeyChangeEvent → Prop
  | .begin _ request => ∀ x ∈ change.hashes cfg, x ∉ request.hashes cfg
  | .audited _ _ => True
  | .failed other _ => ∀ pending ∈ s.pending other, ∀ x ∈ change.hashes cfg, x ∉ pending.hashes

def PendingChange.retires : PendingChange → List String
  | .register _ _ => []
  | .rotate oldHash _ _ => [oldHash]
  | .revoke hash _ => [hash]

/-- A request that began meanwhile took the key away and was answered with success. -/
def Retired (s : KeyServer) (events : List KeyChangeEvent) (h : String) : Prop :=
  ∃ first id request second now third,
    events = first ++ .begin id request :: second ++ .audited id now :: third ∧
    (s.run cfg first).pending id = none ∧ (∀ e ∈ second, e.id ≠ id) ∧
    ∃ change ∈ ((s.run cfg first).serve cfg (.begin id request)).pending id, h ∈ change.retires

/-- A request whose audit fails after these events leaves the keys as they would be without it,
and no key is accepted again that was retired and not registered anew. -/
def ChangesNothing (s : KeyServer) (id : ℕ) (request : KeyRequest) (events : List KeyChangeEvent)
    (message : String) : Prop :=
  let began := s.serve cfg (.begin id request)
  let failed := (began.run cfg events).serve cfg (.failed id message)
  failed.keys = (s.run cfg events).keys ∧
    ∀ h, Retired cfg began events h → (began.run cfg events).keys h = none → failed.keys h = none

/-- Two servers side by side, the first of which has a request more than the second. -/
structure Alongside (s : KeyServer) (id : ℕ) (own : PendingChange) (t t' : KeyServer) : Prop where
  off : ∀ x ∉ own.hashes, t.keys x = t'.keys x
  kept : ∀ x ∈ own.hashes, t'.keys x = s.keys x
  pending : ∀ q ≠ id, t.pending q = t'.pending q
  waiting : t.pending id = some own
  clear : ∀ q ≠ id, ∀ change ∈ t'.pending q,
    change ∈ s.pending q ∨ ∀ x ∈ own.hashes, x ∉ change.hashes

variable {cfg} {s t t' : KeyServer} {id : ℕ} {own : PendingChange} {request : KeyRequest}

theorem serve_begin_ok {keys : KeyStore} {change : PendingChange} (hfree : s.pending id = none)
    (h : request.start cfg s.keys = .ok (change,keys)) :
    s.serve cfg (.begin id request) =
      { s with keys := keys, pending := Function.update s.pending id (some change) } := by
  simp [KeyServer.serve,hfree,h]

theorem serve_begin_error {response : KeyResponse} (hfree : s.pending id = none)
    (h : request.start cfg s.keys = .error response) :
    s.serve cfg (.begin id request) = { s with answers := (id,response) :: s.answers } := by
  simp [KeyServer.serve,hfree,h]

theorem Alongside.begin (h : Alongside s id own t t') {q : ℕ} (hq : q ≠ id)
    (hapart : ∀ x ∈ own.hashes, x ∉ request.hashes cfg) :
    Alongside s id own (t.serve cfg (.begin q request)) (t'.serve cfg (.begin q request)) := by
  cases hpending : t'.pending q with
  | some change =>
    have hpending' := (h.pending q hq).trans hpending
    simpa [KeyServer.serve,hpending,hpending'] using h
  | none =>
    have hpending' := (h.pending q hq).trans hpending
    have hagree : ∀ x ∈ request.hashes cfg, t.keys x = t'.keys x :=
      fun x hx => h.off x fun hmem => hapart x hmem hx
    rcases start_framed request t.keys t'.keys hagree with
      ⟨response,herror,herror'⟩ | ⟨change,after,after',hok,hok',hin,hsame,hleft,hleft'⟩
    · rw [serve_begin_error hpending herror',serve_begin_error hpending' herror]
      exact ⟨h.off,h.kept,h.pending,h.waiting,h.clear⟩
    · rw [serve_begin_ok hpending hok',serve_begin_ok hpending' hok]
      refine ⟨fun x hx => ?_,fun x hx => ?_,fun p hp => ?_,?_,fun p hp change' hchange => ?_⟩
      · by_cases hmem : x ∈ request.hashes cfg
        · exact hsame x hmem
        · exact (hleft x hmem).trans ((h.off x hx).trans (hleft' x hmem).symm)
      · exact (hleft' x (hapart x hx)).trans (h.kept x hx)
      · simp only [Function.update_apply,h.pending p hp]
      · simpa [Function.update_apply,hq.symm] using h.waiting
      · simp only [Function.update_apply] at hchange
        split_ifs at hchange with heq
        · obtain rfl := Option.some.inj hchange
          exact .inr fun x hx hmem => hapart x hx (hin hmem)
        · exact h.clear p hp change' hchange

theorem Alongside.audited (h : Alongside s id own t t') {q now : ℕ} (hq : q ≠ id) :
    Alongside s id own (t.serve cfg (.audited q now)) (t'.serve cfg (.audited q now)) := by
  have hpending := h.pending q hq
  cases hchange : t'.pending q with
  | none => simpa [KeyServer.serve,hpending,hchange] using h
  | some change =>
    simp only [KeyServer.serve,hpending,hchange]
    refine ⟨h.off,h.kept,fun p hp => ?_,?_,fun p hp change' hmem => ?_⟩
    · simp only [Function.update_apply,h.pending p hp]
    · simpa [Function.update_apply,hq.symm] using h.waiting
    · simp only [Function.update_apply] at hmem
      split_ifs at hmem
      · cases hmem
      · exact h.clear p hp change' hmem

theorem Alongside.failed (h : Alongside s id own t t') {q : ℕ} {message : String} (hq : q ≠ id)
    (hapart : ∀ change ∈ s.pending q, ∀ x ∈ own.hashes, x ∉ change.hashes) :
    Alongside s id own (t.serve cfg (.failed q message)) (t'.serve cfg (.failed q message)) := by
  have hpending := h.pending q hq
  cases hchange : t'.pending q with
  | none => simpa [KeyServer.serve,hpending,hchange] using h
  | some change =>
    have hclear : ∀ x ∈ own.hashes, x ∉ change.hashes := by
      rcases h.clear q hq change hchange with hold | hclear
      · exact hapart change hold
      · exact hclear
    simp only [KeyServer.serve,hpending,hchange]
    refine ⟨fun x hx => ?_,fun x hx => ?_,fun p hp => ?_,?_,fun p hp change' hmem => ?_⟩
    · by_cases hmem : x ∈ change.hashes
      · exact compensate_agree change hmem
      · exact (compensate_frame change hmem).trans
          ((h.off x hx).trans (compensate_frame change hmem).symm)
    · exact (compensate_frame change (hclear x hx)).trans (h.kept x hx)
    · simp only [Function.update_apply,h.pending p hp]
    · simpa [Function.update_apply,hq.symm] using h.waiting
    · simp only [Function.update_apply] at hmem
      split_ifs at hmem
      · cases hmem
      · exact h.clear p hp change' hmem

theorem Alongside.run {change : KeyChange} (h : Alongside s id own t t')
    (hhashes : own.hashes = change.hashes cfg) {events : List KeyChangeEvent}
    (hother : ∀ e ∈ events, e.id ≠ id) (hapart : ∀ e ∈ events, Apart cfg s change e) :
    Alongside s id own (t.run cfg events) (t'.run cfg events) := by
  induction events generalizing t t' with
  | nil => exact h
  | cons e events ih =>
    obtain ⟨hq,hother⟩ := List.forall_mem_cons.mp hother
    obtain ⟨hclear,hapart⟩ := List.forall_mem_cons.mp hapart
    refine ih ?_ hother hapart
    cases e with
    | begin q request => exact h.begin hq (hhashes ▸ hclear)
    | audited q now => exact h.audited hq
    | failed q message => exact h.failed hq fun pending hp => hhashes ▸ hclear pending hp

theorem started_of_pending (hfree : s.pending id = none) {change : PendingChange}
    (h : change ∈ (s.serve cfg (.begin id request)).pending id) :
    ∃ keys, request.start cfg s.keys = .ok (change,keys) := by
  cases hstart : request.start cfg s.keys with
  | error response =>
    rw [serve_begin_error hfree hstart] at h
    exact absurd (hfree.symm.trans h) (by simp)
  | ok result =>
    obtain ⟨change',keys⟩ := result
    rw [serve_begin_ok hfree hstart] at h
    obtain rfl : change' = change := by simpa using h
    exact ⟨keys,rfl⟩

/-- What was retired meanwhile was named by the request that retired it. -/
theorem not_mem_of_retired {change : KeyChange} {events : List KeyChangeEvent} {h : String}
    (hapart : ∀ e ∈ events, Apart cfg s change e) (hretired : Retired cfg t events h) :
    h ∉ change.hashes cfg := by
  obtain ⟨first,q,request,second,now,third,rfl,hfree,-,pending,hpending,hmem⟩ := hretired
  obtain ⟨keys,hstart⟩ := started_of_pending hfree hpending
  have hclear : ∀ x ∈ change.hashes cfg, x ∉ request.hashes cfg :=
    hapart (.begin q request) (by simp)
  have hin : h ∈ pending.hashes := by
    cases pending with
    | register hash role => cases hmem
    | rotate oldHash newHash metadata =>
      obtain rfl := List.mem_singleton.mp hmem
      exact List.mem_cons_self
    | revoke hash metadata => exact hmem
  rw [(start_ok hstart).1] at hin
  exact fun hnamed => hclear h hnamed (List.mem_append_right _ hin)

/-- If nothing else touches its keys meanwhile, a request whose audit fails is answered with 500,
and it changes nothing exactly if the hash that it sets was fresh. -/
theorem failed_changesNothing_iff (cfg : KeyRoutesConfig) {s : KeyServer} {id : ℕ}
    {request : KeyRequest} {events : List KeyChangeEvent} (message : String)
    (hfree : s.pending id = none)
    (hwaits : ((s.serve cfg (.begin id request)).pending id).isSome)
    (hother : ∀ e ∈ events, e.id ≠ id) (hapart : ∀ e ∈ events, Apart cfg s request.change e) :
    (((s.serve cfg (.begin id request)).run cfg events).serve cfg (.failed id message)).answers =
        (id,.refused 500 "Internal Server Error" (some message)) ::
          ((s.serve cfg (.begin id request)).run cfg events).answers ∧
      (ChangesNothing cfg s id request events message ↔ request.change.Fresh cfg s.keys) := by
  obtain ⟨own,hown⟩ := Option.isSome_iff_exists.mp hwaits
  obtain ⟨keys,hstart⟩ := started_of_pending hfree hown
  obtain ⟨hhashes,hleft,hback⟩ := start_ok hstart
  have hbegan : Alongside s id own (s.serve cfg (.begin id request)) s := by
    rw [serve_begin_ok hfree hstart]
    exact ⟨hleft,fun x _ => rfl,fun q hq => by simp [hq],by simp,fun q _ change h => .inl h⟩
  have hrun := hbegan.run hhashes hother hapart
  simp only [ChangesNothing]
  generalize hmet : (s.serve cfg (.begin id request)).run cfg events = t at hrun ⊢
  have hserve : t.serve cfg (.failed id message) = { t with
      keys := own.compensate t.keys
      pending := Function.update t.pending id none
      answers := (id,.refused 500 "Internal Server Error" (some message)) :: t.answers } := by
    simp only [KeyServer.serve,hrun.waiting]
  rw [hserve]
  refine ⟨rfl,?_⟩
  have hsame : own.compensate t.keys = (s.run cfg events).keys ↔
      ∀ x ∈ own.hashes, own.compensate s.keys x = s.keys x := by
    constructor
    · intro heq x hx
      rw [← hrun.kept x hx,← heq]
      exact compensate_agree own hx
    · intro hall
      funext x
      by_cases hx : x ∈ own.hashes
      · exact (compensate_agree own hx).trans ((hall x hx).trans (hrun.kept x hx).symm)
      · exact (compensate_frame own hx).trans (hrun.off x hx)
  rw [hsame,hback]
  refine and_iff_left fun h hretired hnone => ?_
  have hnot : h ∉ own.hashes := hhashes ▸ not_mem_of_retired hapart hretired
  exact (compensate_frame own hnot).trans hnone

end Interleavings

section TwoKeys

def rootHash : String := "4813494d137e1631bba301d5acab6e7bb7aa74ce1185d456565ef51d737677b2"

def alphaHash : String := "8ed3f6ad685b959ead7022518e1af76cd816f8e8ec7ccdda1ed4018e8f2223f8"

def betaHash : String := "f44e64e75f3948e9f73f8dfa94721c4ce8cbb4f265c4790c702b2d41cfbf2753"

/-- The digests of three keys; any other key stands for its own. -/
def keyRoutes : KeyRoutesConfig where
  hashApiKey := fun key =>
    if key = "root" then rootHash
    else if key = "alpha" then alphaHash
    else if key = "beta" then betaHash
    else key
  hasRequiredApiKeyRole := fun _ _ => false
  normalizeApiKeyRole := fun _ => none

def twoKeys : KeyServer where
  keys := fun hash =>
    if hash = rootHash then some ⟨0,none⟩ else if hash = alphaHash then some ⟨1,none⟩ else none

def byRoot (change : KeyChange) (now : ℕ) : KeyRequest := ⟨"ApiKey root",change,now⟩

def revokedAgain : List KeyChangeEvent :=
  [.begin 1 (byRoot (.register (some "alpha") none) 6),.audited 1 7,
    .begin 2 (byRoot (.revoke (some alphaHash)) 8),.audited 2 9]

theorem not_changesNothing_of_isSome {cfg : KeyRoutesConfig} {s : KeyServer} {id : ℕ}
    {request : KeyRequest} {events : List KeyChangeEvent} {message : String} (h : String)
    (hne : ((((s.serve cfg (.begin id request)).run cfg events).serve cfg
      (.failed id message)).keys h).isSome ≠ ((s.run cfg events).keys h).isSome) :
    ¬ChangesNothing cfg s id request events message :=
  fun hchanges => hne (congrArg Option.isSome (congrFun hchanges.1 h))

/-- A key that was registered before loses its place when it is registered again, or a key is
rotated to it, and the audit fails; a key that was revoked with success meanwhile is accepted
again when its first revocation fails. -/
theorem not_changesNothing_twoKeys :
    ((twoKeys.serve keyRoutes (.begin 0 (byRoot (.register (some "alpha") none) 5))).pending
        0).isSome ∧
      ¬ChangesNothing keyRoutes twoKeys 0 (byRoot (.register (some "alpha") none) 5) [] "down" ∧
    ((twoKeys.serve keyRoutes (.begin 0 (byRoot (.rotate (some rootHash) (some "alpha")) 5))).pending
        0).isSome ∧
      ¬ChangesNothing keyRoutes twoKeys 0 (byRoot (.rotate (some rootHash) (some "alpha")) 5) []
        "down" ∧
    ((twoKeys.serve keyRoutes (.begin 0 (byRoot (.revoke (some alphaHash)) 5))).pending 0).isSome ∧
      ¬ChangesNothing keyRoutes twoKeys 0 (byRoot (.revoke (some alphaHash)) 5) revokedAgain
        "down" := by
  refine ⟨by decide +kernel,not_changesNothing_of_isSome alphaHash ?_,by decide +kernel,
    not_changesNothing_of_isSome alphaHash ?_,by decide +kernel,
    not_changesNothing_of_isSome alphaHash ?_⟩
  all_goals decide +kernel

theorem failed_changesNothing_iff_twoKeys :
    ChangesNothing keyRoutes twoKeys 0 (byRoot (.revoke (some alphaHash)) 5)
      [.begin 1 (byRoot (.register (some "beta") none) 6),.audited 1 7] "down" := by
  have hwaits : ((twoKeys.serve keyRoutes (.begin 0 (byRoot (.revoke (some alphaHash))
      5))).pending 0).isSome := by decide +kernel
  have hapart : ∀ x ∈ KeyChange.hashes keyRoutes (.revoke (some alphaHash)),
      x ∉ (byRoot (.register (some "beta") none) 6).hashes keyRoutes := by decide +kernel
  refine (failed_changesNothing_iff keyRoutes "down" rfl hwaits ?_ ?_).2.mpr trivial
  · simp [KeyChangeEvent.id]
  · exact List.forall_mem_cons.mpr ⟨hapart,List.forall_mem_singleton.mpr trivial⟩

end TwoKeys

end YieldVault.Backend
