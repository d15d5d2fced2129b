import YieldVault.Runs
import YieldVault.Backend.Idempotency

/-! Impersonation sessions and their ledger, in the database, in memory, or in whichever of
the two a call comes to. Each await of a call is one step, and the steps of all calls
interleave. -/
namespace YieldVault.Backend

inductive ImpersonationSessionStatus
  | active | ended | expired
  deriving DecidableEq

/-- A session goes by the number of the call that starts it. -/
structure ImpersonationSessionRecord where
  id : ℕ
  actor : String
  apiKeyHash : String
  targetWallet : String
  reason : String
  startedAt : ℕ
  expiresAt : ℕ
  endedAt : Option ℕ
  status : ImpersonationSessionStatus
  ipAddress : String
  userAgent : String

/-- The type of an entry, with its metadata. -/
inductive ImpersonationLedgerEvent
  | started (targetWallet reason : String) (expiresAt : ℕ)
  | ended (targetWallet : String) (endedAt : Option ℕ)
  | expired (targetWallet : String) (expiresAt : ℕ)
  | access (targetWallet : String)

structure ImpersonationLedgerEntryRecord where
  id : ℕ
  sessionId : ℕ
  event : ImpersonationLedgerEvent
  actor : String
  createdAt : ℕ

structure StartImpersonationSessionInput where
  actor : String
  apiKeyHash : String
  targetWallet : String
  reason : String
  ipAddress : String
  userAgent : String

inductive StorageMode
  | memory | prisma | hybrid
  deriving DecidableEq

/-- `storage` and `ttlSeconds` are what the environment sets, the second one as parsed; `trim`
is that of strings. -/
structure ImpersonationConfig where
  storage : Option String
  ttlSeconds : Option ℤ
  normalizeWalletAddress : String → String
  trim : String → String

def normalizeStorageMode (raw : Option String) : StorageMode :=
  if raw = some "prisma" then .prisma else if raw = some "memory" then .memory else .hybrid

def ImpersonationConfig.mode (cfg : ImpersonationConfig) : StorageMode :=
  normalizeStorageMode cfg.storage

def getSessionTtlMs (ttlSeconds : Option ℤ) : ℕ :=
  match ttlSeconds with
  | none => 900000
  | some seconds => if seconds ≤ 0 then 900000 else (seconds*1000).toNat

def resolveEffectiveStatus (session : ImpersonationSessionRecord) (now : ℕ) :
    ImpersonationSessionStatus :=
  if session.status = .ended then .ended
  else if session.expiresAt ≤ now then .expired
  else session.status

/-- How an operation of the database comes out; one that fails may have been executed. -/
inductive DbOutcome
  | ok
  | failed (executed : Bool)
  deriving DecidableEq

inductive StoragePlace
  | database | inMemory
  deriving DecidableEq

structure SessionStore where
  sessions : ℕ → Option ImpersonationSessionRecord := fun _ => none
  ledger : List ImpersonationLedgerEntryRecord := []

/-- A session is written: an upsert in the database, where an update changes two fields. -/
def SessionStore.persist (session : ImpersonationSessionRecord) (place : StoragePlace)
    (store : SessionStore) : SessionStore :=
  { store with
    sessions := Function.update store.sessions session.id (some
      (match place, store.sessions session.id with
      | .database, some row => { row with
          endedAt := session.endedAt
          status := session.status }
      | _, _ => session)) }

def SessionStore.append (entry : ImpersonationLedgerEntryRecord) (_ : StoragePlace)
    (store : SessionStore) : SessionStore :=
  { store with ledger := entry :: store.ledger }

/-- A request to see the vault as a wallet; `superAdmin` is what the check of the role says. -/
structure ImpersonationRequest where
  wallet : String
  actor : String
  sessionId : Option ℕ
  superAdmin : Bool

inductive ValidationReason
  | notFound | expired | ended | walletMismatch | actorMismatch

def ValidationReason.message : ValidationReason → String
  | .notFound => "Impersonation session is invalid"
  | .expired => "Impersonation session has expired"
  | .ended => "Impersonation session has ended"
  | .walletMismatch => "Session wallet does not match target wallet"
  | .actorMismatch => "Session actor does not match requesting admin"

/-- A response; that with the state of the vault has the session, and the time at which it
was validated. -/
inductive ImpersonationResponse
  | walletRequired
  | superAdminRequired
  | sessionRequired
  | refused (reason : ValidationReason)
  | vaultState (session : Option (ImpersonationSessionRecord × ℕ))
  | failed

def ImpersonationResponse.status : ImpersonationResponse → ℕ
  | .walletRequired | .sessionRequired => 400
  | .superAdminRequired => 403
  | .refused .notFound => 404
  | .refused _ => 403
  | .vaultState _ => 200
  | .failed => 500

/-- What a call waits for, or how it has come out. -/
inductive ImpersonationCall
  | starting (session : ImpersonationSessionRecord)
  | startLogging (session : ImpersonationSessionRecord)
  | startReturned (session : ImpersonationSessionRecord)
  | endReading (sessionId : ℕ) (actor : String)
  | ending (session : ImpersonationSessionRecord) (actor : String)
  | endLogging (session : ImpersonationSessionRecord) (actor : String)
  | endReturned (session : Option ImpersonationSessionRecord)
  | validating (req : ImpersonationRequest) (sessionId : ℕ)
  | expiring (req : ImpersonationRequest) (session : ImpersonationSessionRecord)
  | expireLogging (req : ImpersonationRequest) (session : ImpersonationSessionRecord)
  | accessLogging (req : ImpersonationRequest) (session : ImpersonationSessionRecord)
      (validatedAt : ℕ)
  | building (req : ImpersonationRequest) (session : Option (ImpersonationSessionRecord × ℕ))
  | answered (req : ImpersonationRequest) (response : ImpersonationResponse)
  | listing (sessionId : ℕ)
  | listed (entries : List ImpersonationLedgerEntryRecord)
  | threw

/-- The stores and the calls; the sessions that have been returned as ended, and the entries
of the accesses that have been granted. -/
structure ImpersonationService where
  stores : StoragePlace → SessionStore := fun _ => {}
  calls : ℕ → Option ImpersonationCall := fun _ => none
  next : ℕ := 0
  nextEntry : ℕ := 0
  ended : Finset ℕ := ∅
  granted : List ImpersonationLedgerEntryRecord := []

inductive ImpersonationEvent
  | start (now : ℕ) (input : StartImpersonationSessionInput)
  | endSession (sessionId : ℕ) (actor : String)
  | access (req : ImpersonationRequest)
  | list (sessionId : ℕ)
  | proceed (call now : ℕ) (outcome : DbOutcome)

namespace ImpersonationService

def put (id : ℕ) (call : ImpersonationCall) (s : ImpersonationService) : ImpersonationService :=
  { s with calls := Function.update s.calls id (some call) }

def begin' (call : ImpersonationCall) (s : ImpersonationService) : ImpersonationService :=
  { s.put s.next call with next := s.next+1 }

def change (place : StoragePlace) (f : StoragePlace → SessionStore → SessionStore)
    (s : ImpersonationService) : ImpersonationService :=
  { s with stores := Function.update s.stores place (f place (s.stores place)) }

def write (mode : StorageMode) (outcome : DbOutcome)
    (f : StoragePlace → SessionStore → SessionStore) (s : ImpersonationService) :
    Bool × ImpersonationService :=
  match mode, outcome with
  | .memory, _ => (true,s.change .inMemory f)
  | _, .ok => (true,s.change .database f)
  | .prisma, .failed executed => (false,if executed then s.change .database f else s)
  | .hybrid, .failed executed =>
    (true,(if executed then s.change .database f else s).change .inMemory f)

def persistSession (mode : StorageMode) (outcome : DbOutcome)
    (session : ImpersonationSessionRecord) (s : ImpersonationService) :
    Bool × ImpersonationService :=
  s.write mode outcome (SessionStore.persist session)

def entry (now sessionId : ℕ) (event : ImpersonationLedgerEvent) (actor : String)
    (s : ImpersonationService) : ImpersonationLedgerEntryRecord :=
  ⟨s.nextEntry,sessionId,event,actor,now⟩

def appendLedgerEntry (mode : StorageMode) (outcome : DbOutcome)
    (entry : ImpersonationLedgerEntryRecord) (s : ImpersonationService) :
    Bool × ImpersonationService :=
  let (ok,t) := s.write mode outcome (SessionStore.append entry)
  (ok,{ t with nextEntry := t.nextEntry+1 })

def reads (mode : StorageMode) (outcome : DbOutcome) : Option StoragePlace :=
  match mode, outcome with
  | .memory, _ => some .inMemory
  | _, .ok => some .database
  | .prisma, .failed _ => none
  | .hybrid, .failed _ => some .inMemory

def getSessionById (mode : StorageMode) (outcome : DbOutcome) (sessionId : ℕ)
    (s : ImpersonationService) : Option (Option ImpersonationSessionRecord) :=
  (reads mode outcome).map fun place => (s.stores place).sessions sessionId

/-- The newest first, but for what memory holds in place of the database, which is as it was
added. -/
def listImpersonationLedgerEntries (mode : StorageMode) (outcome : DbOutcome) (sessionId : ℕ)
    (s : ImpersonationService) : Option (List ImpersonationLedgerEntryRecord) :=
  (reads mode outcome).map fun place =>
    let entries := (s.stores place).ledger.filter fun entry => decide (entry.sessionId = sessionId)
    if mode = .hybrid ∧ place = .inMemory then entries
    else entries.mergeSort fun a b => decide (b.createdAt ≤ a.createdAt)

def returnEnded (id : ℕ) (session : ImpersonationSessionRecord) (s : ImpersonationService) :
    ImpersonationService :=
  { s.put id (.endReturned (some session)) with ended := insert session.id s.ended }

def startImpersonationSession (cfg : ImpersonationConfig) (now : ℕ)
    (input : StartImpersonationSessionInput) (s : ImpersonationService) : ImpersonationService :=
  s.begin' (.starting {
    id := s.next
    actor := input.actor
    apiKeyHash := input.apiKeyHash
    targetWallet := cfg.normalizeWalletAddress input.targetWallet
    reason := cfg.trim input.reason
    startedAt := now
    expiresAt := now+getSessionTtlMs cfg.ttlSeconds
    endedAt := none
    status := .active
    ipAddress := input.ipAddress
    userAgent := input.userAgent })

def access (cfg : ImpersonationConfig) (req : ImpersonationRequest) (s : ImpersonationService) :
    ImpersonationService :=
  if req.wallet = "" then s.begin' (.answered req .walletRequired)
  else if req.superAdmin = false then s.begin' (.answered req .superAdminRequired)
  else
    match req.sessionId with
    | some sessionId => s.begin' (.validating req sessionId)
    | none =>
      if cfg.storage.getD "" ≠ "" then s.begin' (.answered req .sessionRequired)
      else s.begin' (.building req none)

def endFound (id now : ℕ) (actor : String) (session : ImpersonationSessionRecord)
    (s : ImpersonationService) : ImpersonationService :=
  match resolveEffectiveStatus session now with
  | .expired => s.put id (.endReturned none)
  | .ended => s.returnEnded id session
  | .active => s.put id (.ending { session with
      status := .ended
      endedAt := some now } actor)

def validateFound (cfg : ImpersonationConfig) (id now : ℕ) (req : ImpersonationRequest)
    (session : ImpersonationSessionRecord) (s : ImpersonationService) : ImpersonationService :=
  if session.actor ≠ req.actor then s.put id (.answered req (.refused .actorMismatch))
  else if session.targetWallet ≠ cfg.normalizeWalletAddress req.wallet then
    s.put id (.answered req (.refused .walletMismatch))
  else
    match resolveEffectiveStatus session now with
    | .ended => s.put id (.answered req (.refused .ended))
    | .expired =>
      if session.status ≠ .expired then
        s.put id (.expiring req { session with
          status := .expired
          endedAt := some (session.endedAt.getD now) })
      else s.put id (.answered req (.refused .expired))
    | .active => s.put id (.accessLogging req session now)

def proceed (cfg : ImpersonationConfig) (id now : ℕ) (outcome : DbOutcome)
    (call : ImpersonationCall) (s : ImpersonationService) : ImpersonationService :=
  match call with
  | .starting session =>
    let (ok,t) := s.persistSession cfg.mode outcome session
    t.put id (if ok then .startLogging session else .threw)
  | .startLogging session =>
    let (ok,t) := s.appendLedgerEntry cfg.mode outcome (s.entry now session.id
      (.started session.targetWallet session.reason session.expiresAt) session.actor)
    t.put id (if ok then .startReturned session else .threw)
  | .endReading sessionId actor =>
    match s.getSessionById cfg.mode outcome sessionId with
    | none => s.put id .threw
    | some none => s.put id (.endReturned none)
    | some (some session) => s.endFound id now actor session
  | .ending session actor =>
    let (ok,t) := s.persistSession cfg.mode outcome session
    t.put id (if ok then .endLogging session actor else .threw)
  | .endLogging session actor =>
    let (ok,t) := s.appendLedgerEntry cfg.mode outcome (s.entry now session.id
      (.ended session.targetWallet session.endedAt) actor)
    if ok then t.returnEnded id session else t.put id .threw
  | .validating req sessionId =>
    match s.getSessionById cfg.mode outcome sessionId with
    | none => s.put id (.answered req .failed)
    | some none => s.put id (.answered req (.refused .notFound))
    | some (some session) => s.validateFound cfg id now req session
  | .expiring req session =>
    let (ok,t) := s.persistSession cfg.mode outcome session
    t.put id (if ok then .expireLogging req session else .answered req .failed)
  | .expireLogging req session =>
    let (ok,t) := s.appendLedgerEntry cfg.mode outcome (s.entry now session.id
      (.expired session.targetWallet session.expiresAt) req.actor)
    t.put id (.answered req (if ok then .refused .expired else .failed))
  | .accessLogging req session validatedAt =>
    let entry := s.entry now session.id (.access (cfg.normalizeWalletAddress req.wallet)) req.actor
    let (ok,t) := s.appendLedgerEntry cfg.mode outcome entry
    if ok then
      { t.put id (.building req (some (session,validatedAt))) with granted := entry :: t.granted }
    else t.put id (.answered req .failed)
  | .building req session =>
    s.put id (.answered req (if outcome = .ok then .vaultState session else .failed))
  | .listing sessionId =>
    match s.listImpersonationLedgerEntries cfg.mode outcome sessionId with
    | none => s.put id .threw
    | some entries => s.put id (.listed entries)
  | _ => s

def serve (cfg : ImpersonationConfig) : ImpersonationEvent → ImpersonationService →
    ImpersonationService
  | .start now input, s => s.startImpersonationSession cfg now input
  | .endSession sessionId actor, s => s.begin' (.endReading sessionId actor)
  | .access req, s => s.access cfg req
  | .list sessionId, s => s.begin' (.listing sessionId)
  | .proceed id now outcome, s =>
    match s.calls id with
    | some call => s.proceed cfg id now outcome call
    | none => s

def runFrom (cfg : ImpersonationConfig) (events : List ImpersonationEvent) :
    ImpersonationService :=
  Runs.run (serve cfg) events {}

/-- The session that the request was let in under. -/
structure Authorises (cfg : ImpersonationConfig) (req : ImpersonationRequest)
    (session : ImpersonationSessionRecord) (validatedAt : ℕ) : Prop where
  named : req.sessionId = some session.id
  actor : session.actor = req.actor
  wallet : session.targetWallet = cfg.normalizeWalletAddress req.wallet
  active : session.status = .active
  current : validatedAt < session.expiresAt

/-- The vault is shown under a session that authorises it only; and a session that has been
returned as ended is ended in every store that has it. -/
structure Bounded (cfg : ImpersonationConfig) (s : ImpersonationService) : Prop where
  shown : ∀ id req response, s.calls id = some (.answered req response) → response.status = 200 →
    ∃ session validatedAt, response = .vaultState (some (session,validatedAt)) ∧
      Authorises cfg req session validatedAt
  ended : ∀ sessionId ∈ s.ended, ∀ place session,
    (s.stores place).sessions sessionId = some session → session.status = .ended

/-- A session is validated as it is read at that time, and not after it has been returned as
ended; and a list of a session's entries has all its granted accesses. -/
def Recalls (cfg : ImpersonationConfig) (s : ImpersonationService) :
    ImpersonationEvent → Prop
  | .proceed id now outcome =>
    match s.calls id with
    | some (.validating req sessionId) =>
      (∀ session validatedAt, (serve cfg (.proceed id now outcome) s).calls id =
          some (.accessLogging req session validatedAt) →
        s.getSessionById cfg.mode outcome sessionId = some (some session) ∧ validatedAt = now) ∧
      (sessionId ∈ s.ended → ∃ response,
        (serve cfg (.proceed id now outcome) s).calls id = some (.answered req response) ∧
          response.status ≠ 200)
    | some (.listing sessionId) => ∀ entries,
        s.listImpersonationLedgerEntries cfg.mode outcome sessionId = some entries →
        ∀ entry ∈ s.granted, entry.sessionId = sessionId → entry ∈ entries
    | _ => True
  | _ => True

/-- What the operations of the database come to, where nothing splits the two stores. -/
def steady : Bool → DbOutcome
  | true => .ok
  | false => .failed false

/-- A request names a session, unless the setting asks for one; with both stores in use the
database always answers, or never does; and no session is ended while a call that has found
it expired is about to write that. -/
def Steady (cfg : ImpersonationConfig) (up : Bool) (s : ImpersonationService) :
    ImpersonationEvent → Prop
  | .access req => req.sessionId = none → cfg.storage.getD "" ≠ ""
  | .proceed id _ outcome =>
    (cfg.mode = .hybrid → outcome = steady up ∨ ∃ req session,
        s.calls id = some (.building req session)) ∧
      ∀ session actor, s.calls id = some (.ending session actor) →
        ∀ id' req session', s.calls id' = some (.expiring req session') →
          session'.id ≠ session.id
  | _ => True

def inUse (cfg : ImpersonationConfig) (up : Bool) : StoragePlace :=
  match cfg.mode with
  | .memory => .inMemory
  | .prisma => .database
  | .hybrid => if up then .database else .inMemory

end ImpersonationService

namespace SessionStore

def Holds (store : SessionStore) (id : ℕ) (kind : ImpersonationSessionStatus → Prop) : Prop :=
  ∃ session, store.sessions id = some session ∧ kind session.status

end SessionStore

namespace ImpersonationService

def Sound (cfg : ImpersonationConfig) (store : SessionStore) (id : ℕ) : ImpersonationCall → Prop
  | .starting session => session.id = id ∧ session.status = .active ∧ store.sessions id = none
  | .ending session _ => session.status = .ended ∧ store.Holds session.id fun _ => True
  | .endLogging session _ => store.Holds session.id (· = .ended)
  | .validating req sessionId => req.sessionId = some sessionId
  | .expiring _ session => session.status = .expired ∧ store.Holds session.id (· ≠ .ended)
  | .accessLogging req session validatedAt => Authorises cfg req session validatedAt
  | .building req session | .answered req (.vaultState session) =>
    ∃ found validatedAt, session = some (found,validatedAt) ∧ Authorises cfg req found validatedAt
  | _ => True

structure Kept (cfg : ImpersonationConfig) (place : StoragePlace) (s : ImpersonationService) :
    Prop where
  numbered : ∀ id call, s.calls id = some call → id < s.next
  stored : ∀ id session, (s.stores place).sessions id = some session →
    session.id = id ∧ id < s.next
  sound : ∀ id call, s.calls id = some call → Sound cfg (s.stores place) id call
  ended : ∀ id ∈ s.ended, (s.stores place).Holds id (· = .ended)
  granted : ∀ entry ∈ s.granted, entry ∈ (s.stores place).ledger
  unused : ∀ other, other ≠ place → ∀ id, (s.stores other).sessions id = none

variable {cfg : ImpersonationConfig} {up : Bool} {place : StoragePlace}
  {s : ImpersonationService} {id : ℕ}

theorem Kept.initial : ({} : ImpersonationService).Kept cfg place where
  numbered := by rintro id call ⟨⟩
  stored := by rintro id session ⟨⟩
  sound := by rintro id call ⟨⟩
  ended := fun id h => absurd h (Finset.notMem_empty id)
  granted := fun entry h => absurd h List.not_mem_nil
  unused := fun _ _ _ => rfl

theorem Kept.put (h : s.Kept cfg place) {call : ImpersonationCall} (hid : id < s.next)
    (hsound : Sound cfg (s.stores place) id call) : (s.put id call).Kept cfg place := by
  refine ⟨fun id' call' hcall => ?_,h.stored,fun id' call' hcall => ?_,h.ended,h.granted,
    h.unused⟩
  · rcases update_eq_some.mp hcall with ⟨rfl,-⟩ | ⟨-,hcall⟩
    · exact hid
    · exact h.numbered id' call' hcall
  · rcases update_eq_some.mp hcall with ⟨rfl,hnew⟩ | ⟨-,hcall⟩
    · cases hnew
      exact hsound
    · exact h.sound id' call' hcall

theorem Kept.begin' (h : s.Kept cfg place) {call : ImpersonationCall}
    (hsound : Sound cfg (s.stores place) s.next call) : (s.begin' call).Kept cfg place := by
  refine ⟨fun id' call' hcall => ?_,fun id' session hsession => ?_,fun id' call' hcall => ?_,
    h.ended,h.granted,h.unused⟩
  · rcases update_eq_some.mp hcall with ⟨rfl,-⟩ | ⟨-,hcall⟩
    · exact Nat.lt_succ_self _
    · exact Nat.lt_succ_of_lt (h.numbered id' call' hcall)
  · obtain ⟨hsame,hlt⟩ := h.stored id' session hsession
    exact ⟨hsame,Nat.lt_succ_of_lt hlt⟩
  · rcases update_eq_some.mp hcall with ⟨rfl,hnew⟩ | ⟨-,hcall⟩
    · cases hnew
      exact hsound
    · exact h.sound id' call' hcall

theorem reads_inUse {outcome : DbOutcome} (hsteady : cfg.mode = .hybrid → outcome = steady up)
    {found : StoragePlace} (h : reads cfg.mode outcome = some found) : found = inUse cfg up := by
  unfold inUse
  revert h hsteady
  cases cfg.mode with
  | memory => rintro - ⟨⟩; rfl
  | prisma =>
    cases outcome with
    | ok => rintro - ⟨⟩; rfl
    | failed executed => rintro - ⟨⟩
  | hybrid =>
    intro hsteady h
    obtain rfl := hsteady rfl
    cases up with
    | true => cases h; rfl
    | false => cases h; rfl

/-- A write goes to the store in use; where it throws, it has been made or not. -/
theorem write_inUse {outcome : DbOutcome} (hsteady : cfg.mode = .hybrid → outcome = steady up)
    (f : StoragePlace → SessionStore → SessionStore) :
    s.write cfg.mode outcome f = (true,s.change (inUse cfg up) f) ∨
      s.write cfg.mode outcome f = (false,s.change (inUse cfg up) f) ∨
      s.write cfg.mode outcome f = (false,s) := by
  unfold inUse
  revert hsteady
  cases cfg.mode with
  | memory => exact fun _ => Or.inl rfl
  | prisma =>
    cases outcome with
    | ok => exact fun _ => Or.inl rfl
    | failed executed =>
      cases executed with
      | true => exact fun _ => Or.inr (Or.inl rfl)
      | false => exact fun _ => Or.inr (Or.inr rfl)
  | hybrid =>
    intro hsteady
    obtain rfl := hsteady rfl
    cases up with
    | true => exact Or.inl rfl
    | false => exact Or.inl rfl

section Writes

variable {store : SessionStore} {session : ImpersonationSessionRecord}

theorem persist_self (store : SessionStore) (session : ImpersonationSessionRecord)
    (place : StoragePlace) (hstored : ∀ old, store.sessions session.id = some old →
      old.id = session.id) :
    ∃ row, (store.persist session place).sessions session.id = some row ∧
      row.id = session.id ∧ row.status = session.status := by
  refine ⟨_,Function.update_self _ _ _,?_⟩
  split
  · rename_i old hold
    exact ⟨hstored old hold,rfl⟩
  · exact ⟨rfl,rfl⟩

theorem persist_of_ne {other : ℕ} (hne : other ≠ session.id) (place : StoragePlace) :
    (store.persist session place).sessions other = store.sessions other :=
  Function.update_of_ne hne _ _

theorem holds_persist {kind : ImpersonationSessionStatus → Prop} {other : ℕ}
    (h : store.Holds other kind) (place : StoragePlace)
    (hstored : ∀ old, store.sessions session.id = some old → old.id = session.id)
    (hkind : other = session.id → kind session.status) :
    (store.persist session place).Holds other kind := by
  by_cases hne : other = session.id
  · obtain ⟨row,hrow,-,hstatus⟩ := persist_self store session place hstored
    refine ⟨row,hne ▸ hrow,?_⟩
    rw [hstatus]
    exact hkind hne
  · obtain ⟨old,hold,holdKind⟩ := h
    exact ⟨old,(persist_of_ne hne place).trans hold,holdKind⟩

/-- A call stands as before beside a session that another one has written. -/
theorem Sound.persist {call : ImpersonationCall} (h : Sound cfg store id call) (place : StoragePlace)
    (hstored : ∀ old, store.sessions session.id = some old → old.id = session.id)
    (hstarting : ∀ started, call = .starting started → id ≠ session.id)
    (hlogging : ∀ ended actor, call = .endLogging ended actor → ended.id = session.id →
      session.status = .ended)
    (hexpiring : ∀ req expired, call = .expiring req expired → expired.id = session.id →
      session.status ≠ .ended) : Sound cfg (store.persist session place) id call := by
  cases call with
  | starting started =>
    exact ⟨h.1,h.2.1,(persist_of_ne (hstarting started rfl) place).trans h.2.2⟩
  | ending ended actor => exact ⟨h.1,holds_persist h.2 place hstored fun _ => trivial⟩
  | endLogging ended actor =>
    have hold : store.Holds ended.id (· = .ended) := h
    exact holds_persist hold place hstored (hlogging ended actor rfl)
  | expiring req expired =>
    exact ⟨h.1,holds_persist h.2 place hstored (hexpiring req expired rfl)⟩
  | answered req response =>
    cases response with
    | vaultState found => exact h
    | _ => trivial
  | _ => exact h

theorem Sound.append {call : ImpersonationCall} (h : Sound cfg store id call)
    (entry : ImpersonationLedgerEntryRecord) (place : StoragePlace) :
    Sound cfg (store.append entry place) id call := by
  cases call with
  | answered req response =>
    cases response with
    | vaultState found => exact h
    | _ => trivial
  | _ => exact h

theorem stores_change (s : ImpersonationService) (place : StoragePlace)
    (f : StoragePlace → SessionStore → SessionStore) :
    (s.change place f).stores place = f place (s.stores place) :=
  Function.update_self _ _ _

theorem stores_change_of_ne {other : StoragePlace} (hother : other ≠ place)
    (f : StoragePlace → SessionStore → SessionStore) :
    (s.change place f).stores other = s.stores other :=
  Function.update_of_ne hother _ _

theorem Kept.stored_id (h : s.Kept cfg place) (session : ImpersonationSessionRecord) :
    ∀ old, (s.stores place).sessions session.id = some old → old.id = session.id :=
  fun old hold => (h.stored session.id old hold).1

theorem Kept.persist (h : s.Kept cfg place) {call next : ImpersonationCall}
    (hcall : s.calls id = some call) (hnumber : session.id < s.next)
    (hended : session.id ∈ s.ended → session.status = .ended)
    (hothers : ∀ id' other, id' ≠ id → s.calls id' = some other →
      Sound cfg ((s.stores place).persist session place) id' other)
    (hself : Sound cfg ((s.stores place).persist session place) id next) :
    ((s.change place (SessionStore.persist session)).put id next).Kept cfg place := by
  have hchange := stores_change s place (SessionStore.persist session)
  refine ⟨fun id' call' hcall' => ?_,fun id' row hrow => ?_,fun id' call' hcall' => ?_,
    fun id' hid' => ?_,fun entry hentry => ?_,fun other hother id' => ?_⟩
  · rcases update_eq_some.mp hcall' with ⟨rfl,-⟩ | ⟨-,hold⟩
    · exact h.numbered id' call hcall
    · exact h.numbered id' call' hold
  · change ((s.change place (SessionStore.persist session)).stores place).sessions id' = _ at hrow
    rw [hchange] at hrow
    by_cases hne : id' = session.id
    · obtain ⟨row',hrow',hsame,-⟩ := persist_self _ session place (h.stored_id session)
      rw [hne,hrow'] at hrow
      cases hrow
      exact ⟨hsame.trans hne.symm,hne ▸ hnumber⟩
    · exact h.stored id' row ((persist_of_ne hne place).symm.trans hrow)
  · change Sound cfg ((s.change place (SessionStore.persist session)).stores place) id' call'
    rw [hchange]
    rcases update_eq_some.mp hcall' with ⟨rfl,hnew⟩ | ⟨hne,hold⟩
    · cases hnew
      exact hself
    · exact hothers id' call' hne hold
  · change ((s.change place (SessionStore.persist session)).stores place).Holds id' _
    rw [hchange]
    exact holds_persist (h.ended id' hid') place (h.stored_id session) fun hsame =>
      hended (hsame ▸ hid')
  · change entry ∈ ((s.change place (SessionStore.persist session)).stores place).ledger
    rw [hchange]
    exact h.granted entry hentry
  · change ((s.change place (SessionStore.persist session)).stores other).sessions id' = none
    rw [stores_change_of_ne hother]
    exact h.unused other hother id'

theorem Kept.append (h : s.Kept cfg place) (entry : ImpersonationLedgerEntryRecord) :
    ({ s.change place (SessionStore.append entry) with nextEntry := s.nextEntry+1 } :
      ImpersonationService).Kept cfg place := by
  have hchange := stores_change s place (SessionStore.append entry)
  refine ⟨h.numbered,?_,?_,?_,?_,fun other hother id' => ?_⟩
  · dsimp only
    rw [hchange]
    exact h.stored
  · dsimp only
    rw [hchange]
    exact fun id' call hcall => (h.sound id' call hcall).append entry place
  · dsimp only
    rw [hchange]
    exact h.ended
  · dsimp only
    rw [hchange]
    exact fun other hother => List.mem_cons_of_mem _ (h.granted other hother)
  · change ((s.change place (SessionStore.append entry)).stores other).sessions id' = none
    rw [stores_change_of_ne hother]
    exact h.unused other hother id'

end Writes

section Steps

variable {outcome : DbOutcome} {session : ImpersonationSessionRecord}

theorem Kept.persisted (h : s.Kept cfg (inUse cfg up))
    (hsteady : cfg.mode = .hybrid → outcome = steady up) {call ok fail : ImpersonationCall}
    (hcall : s.calls id = some call) (hnumber : session.id < s.next)
    (hended : session.id ∈ s.ended → session.status = .ended)
    (hothers : ∀ id' other, id' ≠ id → s.calls id' = some other →
      Sound cfg ((s.stores (inUse cfg up)).persist session (inUse cfg up)) id' other)
    (hok : Sound cfg ((s.stores (inUse cfg up)).persist session (inUse cfg up)) id ok)
    (hfail : ∀ store, Sound cfg store id fail) :
    ((s.persistSession cfg.mode outcome session).2.put id
      (if (s.persistSession cfg.mode outcome session).1 then ok else fail)).Kept cfg
        (inUse cfg up) := by
  unfold persistSession
  rcases write_inUse hsteady (SessionStore.persist session) with hwrite | hwrite | hwrite
  · rw [hwrite]
    exact h.persist hcall hnumber hended hothers hok
  · rw [hwrite]
    exact h.persist hcall hnumber hended hothers (hfail _)
  · rw [hwrite]
    exact h.put (h.numbered id call hcall) (hfail _)

/-- What an entry of the ledger leaves as it was. -/
structure Logged (cfg : ImpersonationConfig) (place : StoragePlace) (s t : ImpersonationService)
    (entry : ImpersonationLedgerEntryRecord) (ok : Bool) : Prop where
  kept : t.Kept cfg place
  calls : t.calls = s.calls
  next : t.next = s.next
  sessions : (t.stores place).sessions = (s.stores place).sessions
  added : ok = true → entry ∈ (t.stores place).ledger

theorem Kept.logged (h : s.Kept cfg (inUse cfg up))
    (hsteady : cfg.mode = .hybrid → outcome = steady up) (entry : ImpersonationLedgerEntryRecord) :
    s.Logged cfg (inUse cfg up) (s.appendLedgerEntry cfg.mode outcome entry).2 entry
      (s.appendLedgerEntry cfg.mode outcome entry).1 := by
  have hchange := stores_change s (inUse cfg up) (SessionStore.append entry)
  unfold appendLedgerEntry
  rcases write_inUse hsteady (SessionStore.append entry) with hwrite | hwrite | hwrite
  · rw [hwrite]
    refine ⟨h.append entry,rfl,rfl,?_,fun _ => ?_⟩
    · dsimp only
      rw [hchange]
      rfl
    · dsimp only
      rw [hchange]
      exact List.mem_cons_self
  · rw [hwrite]
    refine ⟨h.append entry,rfl,rfl,?_,by rintro ⟨⟩⟩
    dsimp only
    rw [hchange]
    rfl
  · rw [hwrite]
    exact ⟨⟨h.numbered,h.stored,h.sound,h.ended,h.granted,h.unused⟩,rfl,rfl,rfl,by rintro ⟨⟩⟩

theorem Logged.put {t : ImpersonationService} {entry : ImpersonationLedgerEntryRecord} {ok : Bool}
    (h : s.Logged cfg place t entry ok) {call : ImpersonationCall} (hid : id < s.next)
    (hsound : Sound cfg (t.stores place) id call) : (t.put id call).Kept cfg place :=
  h.kept.put (h.next ▸ hid) hsound

theorem Kept.returnEnded (h : s.Kept cfg place) (hid : id < s.next)
    (hholds : (s.stores place).Holds session.id (· = .ended)) :
    (s.returnEnded id session).Kept cfg place := by
  have hput : (s.put id (.endReturned (some session))).Kept cfg place := h.put hid trivial
  refine ⟨hput.numbered,hput.stored,hput.sound,fun id' hid' => ?_,hput.granted,hput.unused⟩
  rcases Finset.mem_insert.mp hid' with rfl | hold
  · exact hholds
  · exact h.ended id' hold

theorem effective_active {now : ℕ} (h : resolveEffectiveStatus session now = .active) :
    session.status = .active ∧ now < session.expiresAt := by
  unfold resolveEffectiveStatus at h
  split_ifs at h with hended hexpired
  exact ⟨h,not_le.mp hexpired⟩

theorem effective_ended {now : ℕ} (h : resolveEffectiveStatus session now = .ended) :
    session.status = .ended := by
  unfold resolveEffectiveStatus at h
  split_ifs at h with hended hexpired
  · exact hended
  · exact h

theorem effective_expired {now : ℕ} (h : resolveEffectiveStatus session now = .expired) :
    session.status ≠ .ended := by
  unfold resolveEffectiveStatus at h
  split_ifs at h with hended hexpired
  · exact hended
  · exact hended

theorem Kept.endFound (h : s.Kept cfg place) (hid : id < s.next) {now : ℕ} {actor : String}
    (hfound : (s.stores place).sessions session.id = some session) :
    (s.endFound id now actor session).Kept cfg place := by
  unfold ImpersonationService.endFound
  split
  · exact h.put hid trivial
  · next hended => exact h.returnEnded hid ⟨session,hfound,effective_ended hended⟩
  · exact h.put hid ⟨rfl,session,hfound,trivial⟩

theorem Kept.validateFound (h : s.Kept cfg place) (hid : id < s.next) {now : ℕ}
    {req : ImpersonationRequest} (hnamed : req.sessionId = some session.id)
    (hfound : (s.stores place).sessions session.id = some session) :
    (s.validateFound cfg id now req session).Kept cfg place := by
  unfold ImpersonationService.validateFound
  split
  · exact h.put hid trivial
  · next hactor =>
    split
    · exact h.put hid trivial
    · next hwallet =>
      split
      · exact h.put hid trivial
      · next hexpired =>
        split
        · exact h.put hid ⟨rfl,session,hfound,effective_expired hexpired⟩
        · exact h.put hid trivial
      · next hactive =>
        obtain ⟨hstatus,hcurrent⟩ := effective_active hactive
        exact h.put hid ⟨hnamed,not_ne_iff.mp hactor,not_ne_iff.mp hwallet,hstatus,hcurrent⟩

theorem Kept.started (h : s.Kept cfg place) (hcall : s.calls id = some (.starting session))
    (id' : ℕ) (other : ImpersonationCall) (hne : id' ≠ id) (hother : s.calls id' = some other) :
    Sound cfg ((s.stores place).persist session place) id' other := by
  obtain ⟨hid,-,hnew⟩ := h.sound id _ hcall
  have hnone : ∀ {kind other}, (s.stores place).Holds other kind → other ≠ session.id := by
    rintro kind other ⟨row,hrow,-⟩ rfl
    rw [hid,hnew] at hrow
    cases hrow
  refine (h.sound id' other hother).persist place (h.stored_id session) ?_ ?_ ?_
  · rintro started rfl
    rw [hid]
    exact hne
  · rintro ended actor rfl hsame
    have hholds : (s.stores place).Holds ended.id (· = .ended) := h.sound id' _ hother
    exact absurd hsame (hnone hholds)
  · rintro req expired rfl hsame
    exact absurd hsame (hnone (h.sound id' _ hother).2)

/-- A session that is written as ended is not about to be written as expired. -/
theorem Kept.endedWrite (h : s.Kept cfg place) {actor : String}
    (hcall : s.calls id = some (.ending session actor))
    (hquiet : ∀ id' req expired, s.calls id' = some (.expiring req expired) →
      expired.id ≠ session.id)
    (id' : ℕ) (other : ImpersonationCall) (hother : s.calls id' = some other) :
    Sound cfg ((s.stores place).persist session place) id' other := by
  obtain ⟨hstatus,row,hrow,-⟩ := h.sound id _ hcall
  refine (h.sound id' other hother).persist place (h.stored_id session) ?_ ?_ ?_
  · rintro started rfl hsame
    obtain ⟨-,-,hnone⟩ := h.sound id' _ hother
    rw [hsame,hrow] at hnone
    cases hnone
  · exact fun _ _ _ _ => hstatus
  · rintro req expired rfl hsame
    exact absurd hsame (hquiet id' req expired hother)

/-- A session that is written as expired has not been ended. -/
theorem Kept.expiredWrite (h : s.Kept cfg place) {req : ImpersonationRequest}
    (hcall : s.calls id = some (.expiring req session))
    (id' : ℕ) (other : ImpersonationCall) (hother : s.calls id' = some other) :
    Sound cfg ((s.stores place).persist session place) id' other := by
  obtain ⟨hstatus,row,hrow,hopen⟩ := h.sound id _ hcall
  refine (h.sound id' other hother).persist place (h.stored_id session) ?_ ?_ ?_
  · rintro started rfl hsame
    obtain ⟨-,-,hnone⟩ := h.sound id' _ hother
    rw [hsame,hrow] at hnone
    cases hnone
  · rintro ended actor rfl hsame
    obtain ⟨row',hrow',hended⟩ : (s.stores place).Holds ended.id (· = .ended) :=
      h.sound id' _ hother
    rw [hsame,hrow] at hrow'
    cases hrow'
    exact absurd hended hopen
  · intro _ _ _ _
    rw [hstatus]
    decide

theorem Kept.unended (h : s.Kept cfg place) {req : ImpersonationRequest}
    (hcall : s.calls id = some (.expiring req session)) : session.id ∉ s.ended := by
  intro hmem
  obtain ⟨-,row,hrow,hopen⟩ := h.sound id _ hcall
  obtain ⟨row',hrow',hended⟩ := h.ended session.id hmem
  rw [hrow] at hrow'
  cases hrow'
  exact hopen hended

theorem Kept.read (h : s.Kept cfg (inUse cfg up))
    (hsteady : cfg.mode = .hybrid → outcome = steady up) {sessionId : ℕ}
    (hread : s.getSessionById cfg.mode outcome sessionId = some (some session)) :
    session.id = sessionId ∧ (s.stores (inUse cfg up)).sessions session.id = some session := by
  obtain ⟨found,hplace,hfound⟩ := Option.map_eq_some_iff.mp hread
  obtain rfl := reads_inUse hsteady hplace
  obtain rfl := (h.stored sessionId session hfound).1
  exact ⟨rfl,hfound⟩

section Proceed

variable {now : ℕ} {call : ImpersonationCall}

theorem Kept.starting (h : s.Kept cfg (inUse cfg up))
    (hsteady : cfg.mode = .hybrid → outcome = steady up)
    (hcall : s.calls id = some (.starting session)) :
    (s.proceed cfg id now outcome (.starting session)).Kept cfg (inUse cfg up) := by
  obtain ⟨hsame,-,hnone⟩ := h.sound id _ hcall
  refine h.persisted hsteady hcall (hsame ▸ h.numbered id _ hcall) ?_ (h.started hcall) trivial
    fun _ => trivial
  intro hended
  obtain ⟨row,hrow,-⟩ := h.ended session.id hended
  rw [hsame,hnone] at hrow
  cases hrow

theorem Kept.ending (h : s.Kept cfg (inUse cfg up)) {actor : String}
    (hsteady : cfg.mode = .hybrid → outcome = steady up)
    (hcall : s.calls id = some (.ending session actor))
    (hquiet : ∀ id' req expired, s.calls id' = some (.expiring req expired) →
      expired.id ≠ session.id) :
    (s.proceed cfg id now outcome (.ending session actor)).Kept cfg (inUse cfg up) := by
  obtain ⟨hstatus,row,hrow,-⟩ := h.sound id _ hcall
  obtain ⟨hsame,hnumber⟩ := h.stored session.id row hrow
  refine h.persisted hsteady hcall hnumber (fun _ => hstatus)
    (fun id' other _ => h.endedWrite hcall hquiet id' other) ?_ fun _ => trivial
  obtain ⟨row',hrow',-,hended⟩ := persist_self _ session (inUse cfg up) (h.stored_id session)
  exact ⟨row',hrow',hended.trans hstatus⟩

theorem Kept.expiring (h : s.Kept cfg (inUse cfg up)) {req : ImpersonationRequest}
    (hsteady : cfg.mode = .hybrid → outcome = steady up)
    (hcall : s.calls id = some (.expiring req session)) :
    (s.proceed cfg id now outcome (.expiring req session)).Kept cfg (inUse cfg up) := by
  obtain ⟨hstatus,row,hrow,-⟩ := h.sound id _ hcall
  obtain ⟨hsame,hnumber⟩ := h.stored session.id row hrow
  exact h.persisted hsteady hcall hnumber (fun hended => absurd hended (h.unended hcall))
    (fun id' other _ => h.expiredWrite hcall id' other) trivial fun _ => trivial

theorem Kept.endLogging (h : s.Kept cfg (inUse cfg up)) {actor : String}
    (hsteady : cfg.mode = .hybrid → outcome = steady up)
    (hcall : s.calls id = some (.endLogging session actor)) :
    (s.proceed cfg id now outcome (.endLogging session actor)).Kept cfg (inUse cfg up) := by
  have hid : id < s.next := h.numbered id _ hcall
  have hlogged := h.logged hsteady (s.entry now session.id
    (.ended session.targetWallet session.endedAt) actor)
  unfold ImpersonationService.proceed
  dsimp only
  split_ifs
  · refine hlogged.kept.returnEnded (hlogged.next ▸ hid) ?_
    unfold SessionStore.Holds
    rw [hlogged.sessions]
    exact h.sound id _ hcall
  · exact hlogged.put hid trivial

/-- A view is granted only once its access has been recorded. -/
theorem Kept.accessLogging (h : s.Kept cfg (inUse cfg up)) {req : ImpersonationRequest}
    {validatedAt : ℕ} (hsteady : cfg.mode = .hybrid → outcome = steady up)
    (hcall : s.calls id = some (.accessLogging req session validatedAt)) :
    (s.proceed cfg id now outcome (.accessLogging req session validatedAt)).Kept cfg
      (inUse cfg up) := by
  have hid : id < s.next := h.numbered id _ hcall
  have hlogged := h.logged hsteady (s.entry now session.id
    (.access (cfg.normalizeWalletAddress req.wallet)) req.actor)
  unfold ImpersonationService.proceed
  dsimp only
  split_ifs with hok
  · have hput := hlogged.put hid (show Sound cfg _ id
      (.building req (some (session,validatedAt))) from
        ⟨session,validatedAt,rfl,h.sound id _ hcall⟩)
    refine ⟨hput.numbered,hput.stored,hput.sound,hput.ended,fun entry hentry => ?_,hput.unused⟩
    rcases List.mem_cons.mp hentry with rfl | hold
    · exact hlogged.added hok
    · exact hput.granted entry hold
  · exact hlogged.put hid trivial

theorem Kept.proceed (h : s.Kept cfg (inUse cfg up))
    (hguard : s.Steady cfg up (.proceed id now outcome)) (hcall : s.calls id = some call) :
    (s.proceed cfg id now outcome call).Kept cfg (inUse cfg up) := by
  have hid : id < s.next := h.numbered id call hcall
  have hsound := h.sound id call hcall
  have hsteady : (∀ req session, call ≠ .building req session) →
      cfg.mode = .hybrid → outcome = steady up := by
    intro hreads hmode
    refine (hguard.1 hmode).resolve_right ?_
    rintro ⟨req,session,hbuilding⟩
    exact hreads req session (Option.some.inj (hcall.symm.trans hbuilding))
  cases call with
  | starting session => exact h.starting (hsteady (by rintro _ _ ⟨⟩)) hcall
  | startLogging session =>
    have hlogged := h.logged (hsteady (by rintro _ _ ⟨⟩)) (s.entry now session.id
      (.started session.targetWallet session.reason session.expiresAt) session.actor)
    refine hlogged.put hid ?_
    split_ifs <;> trivial
  | endReading sessionId actor =>
    unfold ImpersonationService.proceed
    dsimp only
    split
    · exact h.put hid trivial
    · exact h.put hid trivial
    · next session hread =>
      obtain ⟨rfl,hfound⟩ := h.read (hsteady (by rintro _ _ ⟨⟩)) hread
      exact h.endFound hid hfound
  | ending session actor =>
    exact h.ending (hsteady (by rintro _ _ ⟨⟩)) hcall (hguard.2 session actor hcall)
  | endLogging session actor => exact h.endLogging (hsteady (by rintro _ _ ⟨⟩)) hcall
  | validating req sessionId =>
    unfold ImpersonationService.proceed
    dsimp only
    split
    · exact h.put hid trivial
    · exact h.put hid trivial
    · next session hread =>
      obtain ⟨rfl,hfound⟩ := h.read (hsteady (by rintro _ _ ⟨⟩)) hread
      exact h.validateFound hid hsound hfound
  | expiring req session => exact h.expiring (hsteady (by rintro _ _ ⟨⟩)) hcall
  | expireLogging req session =>
    have hlogged := h.logged (hsteady (by rintro _ _ ⟨⟩)) (s.entry now session.id
      (.expired session.targetWallet session.expiresAt) req.actor)
    refine hlogged.put hid ?_
    split_ifs <;> trivial
  | accessLogging req session validatedAt =>
    exact h.accessLogging (hsteady (by rintro _ _ ⟨⟩)) hcall
  | building req session =>
    unfold ImpersonationService.proceed
    dsimp only
    split_ifs
    · exact h.put hid hsound
    · exact h.put hid trivial
  | listing sessionId =>
    unfold ImpersonationService.proceed
    dsimp only
    split
    · exact h.put hid trivial
    · exact h.put hid trivial
  | _ => exact h

end Proceed

theorem Kept.access (h : s.Kept cfg place) {req : ImpersonationRequest}
    (hguard : req.sessionId = none → cfg.storage.getD "" ≠ "") :
    (s.access cfg req).Kept cfg place := by
  unfold ImpersonationService.access
  split
  · exact h.begin' trivial
  · split
    · exact h.begin' trivial
    · split
      · next sessionId hnamed => exact h.begin' hnamed
      · next hunnamed =>
        rw [if_pos (hguard hunnamed)]
        exact h.begin' trivial

theorem serve_proceed {now : ℕ} {call : ImpersonationCall} (hcall : s.calls id = some call) :
    serve cfg (.proceed id now outcome) s = s.proceed cfg id now outcome call := by
  simp only [serve,hcall]

theorem Kept.serve (h : s.Kept cfg (inUse cfg up)) {event : ImpersonationEvent}
    (hguard : s.Steady cfg up event) :
    (ImpersonationService.serve cfg event s).Kept cfg (inUse cfg up) := by
  cases event with
  | start now input =>
    refine h.begin' ⟨rfl,rfl,?_⟩
    cases hold : (s.stores (inUse cfg up)).sessions s.next with
    | none => rfl
    | some old => exact absurd (h.stored s.next old hold).2 (lt_irrefl _)
  | endSession sessionId actor => exact h.begin' trivial
  | access req => exact h.access hguard
  | list sessionId => exact h.begin' trivial
  | proceed id now outcome =>
    cases hcall : s.calls id with
    | none =>
      simp only [ImpersonationService.serve,hcall]
      exact h
    | some call =>
      rw [serve_proceed hcall]
      exact h.proceed hguard hcall

end Steps

section Properties

variable {outcome : DbOutcome}

theorem Kept.answered (h : s.Kept cfg place) {req : ImpersonationRequest}
    {response : ImpersonationResponse} (hcall : s.calls id = some (.answered req response))
    (hstatus : response.status = 200) : ∃ session validatedAt,
      response = .vaultState (some (session,validatedAt)) ∧
        Authorises cfg req session validatedAt := by
  have hsound := h.sound id _ hcall
  cases response with
  | vaultState found =>
    obtain ⟨session,validatedAt,rfl,hauthorises⟩ := hsound
    exact ⟨session,validatedAt,rfl,hauthorises⟩
  | refused reason => cases reason <;> cases hstatus
  | _ => cases hstatus

theorem Kept.ended_everywhere (h : s.Kept cfg place) {sessionId : ℕ} (hended : sessionId ∈ s.ended)
    (found : StoragePlace) (session : ImpersonationSessionRecord)
    (hfound : (s.stores found).sessions sessionId = some session) : session.status = .ended := by
  by_cases hplace : found = place
  · obtain ⟨row,hrow,hstatus⟩ := h.ended sessionId hended
    rw [hplace,hrow] at hfound
    cases hfound
    exact hstatus
  · rw [h.unused found hplace sessionId] at hfound
    cases hfound

theorem put_calls (call : ImpersonationCall) : (s.put id call).calls id = some call :=
  Function.update_self _ _ _

theorem validateFound_logging {now : ℕ} {req : ImpersonationRequest}
    {found session : ImpersonationSessionRecord} {validatedAt : ℕ}
    (h : (s.validateFound cfg id now req found).calls id =
      some (.accessLogging req session validatedAt)) : session = found ∧ validatedAt = now := by
  unfold validateFound at h
  split at h
  · cases (put_calls _).symm.trans h
  · split at h
    · cases (put_calls _).symm.trans h
    · split at h
      · cases (put_calls _).symm.trans h
      · split at h
        · cases (put_calls _).symm.trans h
        · cases (put_calls _).symm.trans h
      · cases (put_calls _).symm.trans h
        exact ⟨rfl,rfl⟩

theorem validated_read {now sessionId : ℕ} {req : ImpersonationRequest}
    {session : ImpersonationSessionRecord} {validatedAt : ℕ}
    (h : (s.proceed cfg id now outcome (.validating req sessionId)).calls id =
      some (.accessLogging req session validatedAt)) :
    s.getSessionById cfg.mode outcome sessionId = some (some session) ∧ validatedAt = now := by
  unfold proceed at h
  dsimp only at h
  split at h
  · cases (put_calls _).symm.trans h
  · cases (put_calls _).symm.trans h
  · next found hfound =>
    obtain ⟨rfl,hnow⟩ := validateFound_logging h
    exact ⟨hfound,hnow⟩

theorem validateFound_ended {now : ℕ} {req : ImpersonationRequest}
    {session : ImpersonationSessionRecord} (hended : session.status = .ended) :
    ∃ reason, s.validateFound cfg id now req session = s.put id (.answered req (.refused reason)) := by
  have heffective : resolveEffectiveStatus session now = .ended := if_pos hended
  unfold validateFound
  rw [heffective]
  split
  · exact ⟨.actorMismatch,rfl⟩
  · split
    · exact ⟨.walletMismatch,rfl⟩
    · exact ⟨.ended,rfl⟩

theorem Kept.refused (h : s.Kept cfg place) {now sessionId : ℕ} {req : ImpersonationRequest}
    (hended : sessionId ∈ s.ended) : ∃ response,
      (s.proceed cfg id now outcome (.validating req sessionId)).calls id =
        some (.answered req response) ∧ response.status ≠ 200 := by
  unfold ImpersonationService.proceed
  dsimp only
  split
  · exact ⟨.failed,put_calls _,by decide⟩
  · exact ⟨.refused .notFound,put_calls _,by decide⟩
  · next session hread =>
    obtain ⟨found,-,hfound⟩ := Option.map_eq_some_iff.mp hread
    obtain ⟨reason,hreason⟩ :=
      validateFound_ended (h.ended_everywhere hended found session hfound)
    rw [hreason]
    refine ⟨.refused reason,put_calls _,?_⟩
    cases reason <;> decide

theorem Kept.listed (h : s.Kept cfg (inUse cfg up))
    (hsteady : cfg.mode = .hybrid → outcome = steady up) {sessionId : ℕ}
    {entries : List ImpersonationLedgerEntryRecord}
    (hentries : s.listImpersonationLedgerEntries cfg.mode outcome sessionId = some entries)
    {entry : ImpersonationLedgerEntryRecord} (hgranted : entry ∈ s.granted)
    (hsession : entry.sessionId = sessionId) : entry ∈ entries := by
  obtain ⟨found,hfound,rfl⟩ := Option.map_eq_some_iff.mp hentries
  obtain rfl := reads_inUse hsteady hfound
  have hmem : entry ∈ (s.stores (inUse cfg up)).ledger.filter fun entry =>
      decide (entry.sessionId = sessionId) :=
    List.mem_filter.mpr ⟨h.granted entry hgranted,decide_eq_true hsession⟩
  dsimp only
  split
  · exact hmem
  · exact List.mem_mergeSort.mpr hmem

theorem Kept.bounded (h : s.Kept cfg place) : s.Bounded cfg :=
  ⟨fun _ _ _ => h.answered,fun _ => h.ended_everywhere⟩

theorem Kept.recalls (h : s.Kept cfg (inUse cfg up)) {event : ImpersonationEvent}
    (hguard : s.Steady cfg up event) : s.Recalls cfg event := by
  cases event with
  | proceed id now outcome =>
    dsimp only [Recalls]
    split
    · next req sessionId hcall =>
      rw [serve_proceed hcall]
      exact ⟨fun _ _ => validated_read,h.refused⟩
    · next sessionId hcall =>
      intro entries hentries entry hgranted hsession
      refine h.listed (fun hmode => (hguard.1 hmode).resolve_right ?_) hentries hgranted hsession
      rintro ⟨req,session,hbuilding⟩
      cases hcall.symm.trans hbuilding
    · trivial
  | _ => trivial

end Properties

/-- Where the database does not come and go, sessions bound what is shown, and what is shown
is in the ledger. -/
theorem impersonation_bounded (cfg : ImpersonationConfig) (up : Bool)
    (events : List ImpersonationEvent)
    (hsteady : Runs.Along (serve cfg) (Steady cfg up) {} events) :
    (runFrom cfg events).Bounded cfg ∧ Runs.Along (serve cfg) (Recalls cfg) {} events :=
  ⟨(hsteady.invariant (fun _ _ h => h.serve) Kept.initial).bounded,
    hsteady.of_invariant (fun _ _ h => h.serve) (fun _ _ h => h.recalls) Kept.initial⟩

section Demo

def supportConfig : ImpersonationConfig := ⟨some "hybrid",none,fun text => text,
  fun text => text⟩

def supportRequest : ImpersonationRequest := ⟨"GA","root",some 0,true⟩

def endedThenAsked (persisted : DbOutcome) : List ImpersonationEvent :=
  [.start 0 ⟨"root","","GA","support","",""⟩,.proceed 0 0 .ok,.proceed 0 0 .ok,
    .endSession 0 "root",.proceed 1 1 .ok,.proceed 1 1 persisted,.proceed 1 1 .ok,
    .access supportRequest,.proceed 2 2 .ok]

theorem steady_of_calls {s : ImpersonationService} {id now : ℕ} {call : ImpersonationCall}
    (hcall : s.calls id = some call) (hother : ∀ session actor, call ≠ .ending session actor) :
    s.Steady supportConfig true (.proceed id now .ok) :=
  ⟨fun _ => Or.inl rfl,
    fun session actor h => absurd (Option.some.inj (hcall.symm.trans h)) (hother session actor)⟩

/-- No call has found the session expired by the time it is ended. -/
theorem calls_at_end (id : ℕ) :
    (runFrom supportConfig ((endedThenAsked .ok).take 5)).calls id =
      match id with
      | 0 => some (.startReturned ⟨0,"root","","GA","support",0,900000,none,.active,"",""⟩)
      | 1 => some (.ending ⟨0,"root","","GA","support",0,900000,some 1,.ended,"",""⟩ "root")
      | _+2 => none := by
  match id with
  | 0 => with_unfolding_all rfl
  | 1 => with_unfolding_all rfl
  | _+2 => with_unfolding_all rfl

theorem endedThenAsked_bounded :
    (runFrom supportConfig (endedThenAsked .ok)).Bounded supportConfig ∧
      Runs.Along (serve supportConfig) (Recalls supportConfig) {} (endedThenAsked .ok) := by
  refine impersonation_bounded supportConfig true _ ⟨trivial,?_,?_,trivial,?_,?_,?_,?_,?_,trivial⟩
  · refine steady_of_calls (by with_unfolding_all rfl) ?_
    rintro session actor ⟨⟩
  · refine steady_of_calls (by with_unfolding_all rfl) ?_
    rintro session actor ⟨⟩
  · refine steady_of_calls (by with_unfolding_all rfl) ?_
    rintro session actor ⟨⟩
  · refine ⟨fun _ => Or.inl rfl,fun session actor _ id req session' hexpiring => ?_⟩
    have hcall := (calls_at_end id).symm.trans hexpiring
    match id with
    | 0 | 1 | _+2 => cases hcall
  · refine steady_of_calls (by with_unfolding_all rfl) ?_
    rintro session actor ⟨⟩
  · rintro ⟨⟩
  · refine steady_of_calls (by with_unfolding_all rfl) ?_
    rintro session actor ⟨⟩

/-- The database fails as the session is ended, and then still has it as active. -/
theorem active_after_end : ¬ ∀ (cfg : ImpersonationConfig) (events : List ImpersonationEvent),
    (runFrom cfg events).Bounded cfg ∧ Runs.Along (serve cfg) (Recalls cfg) {} events := by
  intro h
  have hrecalls := (h supportConfig (endedThenAsked (.failed false))).2
  obtain ⟨response,hresponse,-⟩ := hrecalls.2.2.2.2.2.2.2.2.1.2 (Finset.mem_insert_self 0 ∅)
  have hvalidated : (runFrom supportConfig (endedThenAsked (.failed false))).calls 2 =
      some (.accessLogging supportRequest
        ⟨0,"root","","GA","support",0,900000,none,.active,"",""⟩ 2) := by
    with_unfolding_all rfl
  cases hvalidated.symm.trans hresponse

end Demo

end ImpersonationService

end YieldVault.Backend
