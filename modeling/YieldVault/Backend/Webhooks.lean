import Mathlib.Tactic
import YieldVault.Runs

/-! Webhook endpoints, their deliveries and the dead letters. Everything is kept in memory: what
is written to the database is never read back. Moments are numbers of milliseconds. -/
namespace YieldVault.Backend

inductive TransactionEventType
  | depositCreated | withdrawalCreated
  deriving DecidableEq

inductive WebhookVerificationStatus
  | pending | verified | failed
  deriving DecidableEq

structure WebhookEndpoint where
  url : String
  eventTypes : List TransactionEventType
  enabled : Bool
  secret : Option String := none
  verificationStatus : WebhookVerificationStatus := .pending
  challengeToken : Option String := none
  challengeExpiresAt : Option ℕ := none
  verifiedAt : Option ℕ := none
  lastVerificationError : Option String := none
  createdAt : ℕ
  updatedAt : ℕ
  deletedAt : Option ℕ := none
  deletedBy : Option String := none
  deriving DecidableEq

inductive WebhookDeliveryStatus
  | pending | delivered | failed
  deriving DecidableEq

/-- The request of an attempt is under way, the timer of the next one runs, or neither. -/
inductive DeliveryPhase
  | fetching | waiting | finished
  deriving DecidableEq

/-- A delivery with the endpoint as it was read, the delivery of the event that it repeats
(itself, if it is the first one), and the dead letter that it was made for. -/
structure WebhookDelivery where
  endpointId : ℕ
  endpoint : WebhookEndpoint
  eventType : TransactionEventType
  payload : String
  status : WebhookDeliveryStatus := .pending
  attempts : ℕ := 1
  lastError : Option String := none
  phase : DeliveryPhase := .fetching
  origin : ℕ
  retried : Option ℕ := none
  deriving DecidableEq

inductive DeadLetterStatus
  | deadLetter | requeued | delivered
  deriving DecidableEq

/-- A dead letter; `origin` is the first delivery of its event to its endpoint. -/
structure WebhookDeadLetter where
  id : ℕ
  endpointId : ℕ
  endpointUrl : String
  eventType : TransactionEventType
  payload : String
  attempts : ℕ
  lastError : Option String
  originalDeliveryId : ℕ
  status : DeadLetterStatus := .deadLetter
  origin : ℕ
  deriving DecidableEq

/-- A call of `verifyWebhookEndpoint` that waits for the challenge: the endpoint it has read,
and how often that had been written. -/
structure WebhookProbe where
  endpointId : ℕ
  existing : WebhookEndpoint
  version : ℕ

/-- A call of `retryWebhookDeadLetter` that waits for the first attempt. -/
structure RetryCall where
  entry : ℕ
  delivery : ℕ
  deriving DecidableEq

structure WebhookConfig where
  maxAttempts : ℕ := 3
  challengeTtlMs : ℕ := 900000
  isUnverifiedDeliveryAllowed : Bool := false
  isValidUrl : String → Bool := fun _ => true

/-- The maps and the calls under way. Of what has happened: how often each endpoint was
written, which writes replaced one that they had not read, which endpoints were deleted and
not restored, the endpoint of each delivery begun and whether it was deleted, and the
outcomes of deliveries that have ended, latest first. -/
structure WebhookServer where
  endpoints : ℕ → Option WebhookEndpoint := fun _ => none
  nextEndpoint : ℕ := 0
  probes : ℕ → Option WebhookProbe := fun _ => none
  nextProbe : ℕ := 0
  deliveries : ℕ → Option WebhookDelivery := fun _ => none
  nextDelivery : ℕ := 0
  deadLetters : List WebhookDeadLetter := []
  nextDeadLetter : ℕ := 0
  calls : List RetryCall := []
  writes : ℕ → ℕ := fun _ => 0
  lost : List ℕ := []
  deleted : ℕ → Bool := fun _ => false
  started : List (ℕ × Bool) := []
  outcomes : List (ℕ × Bool) := []

structure RegisterWebhookInput where
  url : String
  eventTypes : Option (List TransactionEventType) := none
  enabled : Option Bool := none
  secret : Option String := none

structure UpdateWebhookInput where
  enabled : Option Bool := none
  eventTypes : Option (List TransactionEventType) := none
  secret : Option String := none

inductive ProbeAnswer
  | matched | mismatched
  | failed (message : String)

inductive WebhookEvent
  | register (input : RegisterWebhookInput) (challengeToken : String) (now : ℕ)
  | verify (id now : ℕ)
  | probed (probe : ℕ) (answer : ProbeAnswer) (now : ℕ)
  | update (id : ℕ) (input : UpdateWebhookInput) (now : ℕ)
  | delete (id : ℕ) (actor : String) (now : ℕ)
  | restore (id : ℕ) (actor : String) (now : ℕ)
  | emit (eventType : TransactionEventType) (payload : String)
  | answered (delivery : ℕ) (error : Option String)
  | retryTimer (delivery : ℕ)
  | retryDeadLetter (id : ℕ)
  | resumed (call : RetryCall)

namespace WebhookServer

section Endpoints

def setEndpoint (id : ℕ) (endpoint : WebhookEndpoint) (s : WebhookServer) : WebhookServer :=
  { s with
    endpoints := Function.update s.endpoints id (some endpoint)
    writes := Function.update s.writes id (s.writes id+1) }

/-- The endpoint is read and the challenge sent. -/
def probeWebhookVerification (id : ℕ) (existing : WebhookEndpoint) (s : WebhookServer) :
    WebhookServer :=
  { s with
    probes := Function.update s.probes s.nextProbe (some ⟨id,existing,s.writes id⟩)
    nextProbe := s.nextProbe+1 }

def expired (now : ℕ) (existing : WebhookEndpoint) : WebhookEndpoint :=
  { existing with
    verificationStatus := .failed
    lastVerificationError := some "Verification challenge expired"
    updatedAt := now }

/-- `verifyWebhookEndpoint` up to its `await`. -/
def verifyWebhookEndpoint (id now : ℕ) (s : WebhookServer) : WebhookServer :=
  match s.endpoints id with
  | some existing =>
    if existing.deletedAt.isSome then s
    else if ∃ t ∈ existing.challengeExpiresAt, t ≤ now then s.setEndpoint id (expired now existing)
    else s.probeWebhookVerification id existing
  | none => s

/-- The record that a verification writes: the one it has read, with the verdict. An endpoint
without a challenge token never matches. -/
def verdict (existing : WebhookEndpoint) (answer : ProbeAnswer) (now : ℕ) : WebhookEndpoint :=
  let failed (message : String) : WebhookEndpoint :=
    { existing with
      verificationStatus := .failed
      lastVerificationError := some message
      updatedAt := now }
  if existing.challengeToken = none then failed "Challenge response did not match"
  else match answer with
    | .matched => { existing with
        verificationStatus := .verified
        verifiedAt := some now
        enabled := true
        challengeToken := none
        lastVerificationError := none
        updatedAt := now }
    | .mismatched => failed "Challenge response did not match"
    | .failed message => failed message

/-- The verdict is written over whatever is stored by now. -/
def writeBack (p : WebhookProbe) (answer : ProbeAnswer) (now : ℕ) (s : WebhookServer) :
    WebhookServer :=
  { s.setEndpoint p.endpointId (verdict p.existing answer now) with
    lost := if s.writes p.endpointId = p.version then s.lost else p.endpointId::s.lost }

def registerWebhookEndpoint (config : WebhookConfig) (input : RegisterWebhookInput)
    (challengeToken : String) (now : ℕ) (s : WebhookServer) : WebhookServer :=
  if config.isValidUrl input.url then
    let endpoint : WebhookEndpoint :=
      { url := input.url
        eventTypes := match input.eventTypes with
          | some (t::ts) => t::ts
          | _ => [.depositCreated,.withdrawalCreated]
        enabled := input.enabled.getD config.isUnverifiedDeliveryAllowed
        secret := input.secret
        challengeToken := some challengeToken
        challengeExpiresAt := some (now+config.challengeTtlMs)
        createdAt := now
        updatedAt := now }
    let registered :=
      { s.setEndpoint s.nextEndpoint endpoint with
        nextEndpoint := s.nextEndpoint+1
        deleted := Function.update s.deleted s.nextEndpoint false }
    registered.verifyWebhookEndpoint s.nextEndpoint now
  else s

/-- Empty event types are rejected. -/
def updateWebhookEndpoint (id : ℕ) (input : UpdateWebhookInput) (now : ℕ) (s : WebhookServer) :
    WebhookServer :=
  match s.endpoints id with
  | some existing =>
    if existing.deletedAt.isSome ∨ input.eventTypes = some [] then s
    else s.setEndpoint id { existing with
      enabled := input.enabled.getD existing.enabled
      eventTypes := input.eventTypes.getD existing.eventTypes
      secret := input.secret <|> existing.secret
      updatedAt := now }
  | none => s

def deleteWebhookEndpoint (id : ℕ) (actor : String) (now : ℕ) (s : WebhookServer) :
    WebhookServer :=
  match s.endpoints id with
  | some existing =>
    if existing.deletedAt.isSome then s
    else { s.setEndpoint id { existing with
        deletedAt := some now
        deletedBy := some actor
        updatedAt := now } with
      deleted := Function.update s.deleted id true }
  | none => s

def restoreWebhookEndpoint (id now : ℕ) (s : WebhookServer) : WebhookServer :=
  match s.endpoints id with
  | some existing =>
    if existing.deletedAt.isSome then
      { s.setEndpoint id { existing with
          deletedAt := none
          deletedBy := none
          updatedAt := now } with
        deleted := Function.update s.deleted id false }
    else s
  | none => s

end Endpoints

section Deliveries

def startDelivery (endpointId : ℕ) (endpoint : WebhookEndpoint) (eventType : TransactionEventType)
    (payload : String) (origin : ℕ) (retried : Option ℕ) (s : WebhookServer) : WebhookServer :=
  { s with
    deliveries := Function.update s.deliveries s.nextDelivery
      (some { endpointId,endpoint,eventType,payload,origin,retried })
    nextDelivery := s.nextDelivery+1
    started := (endpointId,s.deleted endpointId)::s.started }

def activeEndpoints (config : WebhookConfig) (eventType : TransactionEventType)
    (s : WebhookServer) : List (ℕ × WebhookEndpoint) :=
  (List.range s.nextEndpoint).filterMap fun id => (s.endpoints id).bind fun endpoint =>
    if endpoint.deletedAt = none ∧ endpoint.enabled = true ∧ eventType ∈ endpoint.eventTypes ∧
        (config.isUnverifiedDeliveryAllowed = true ∨ endpoint.verificationStatus = .verified) then
      some (id,endpoint)
    else none

def startAll (eventType : TransactionEventType) (payload : String) :
    List (ℕ × WebhookEndpoint) → WebhookServer → WebhookServer
  | [], s => s
  | (id,endpoint)::rest, s =>
    startAll eventType payload rest
      (s.startDelivery id endpoint eventType payload s.nextDelivery none)

def emitTransactionEvent (config : WebhookConfig) (eventType : TransactionEventType)
    (payload : String) (s : WebhookServer) : WebhookServer :=
  s.startAll eventType payload (s.activeEndpoints config eventType)

def setDelivery (id : ℕ) (d : WebhookDelivery) (s : WebhookServer) : WebhookServer :=
  { s with deliveries := Function.update s.deliveries id (some d) }

/-- The request of an attempt has been answered, with an error or well. -/
def deliverWithRetry (config : WebhookConfig) (id : ℕ) (error : Option String)
    (d : WebhookDelivery) (s : WebhookServer) : WebhookServer :=
  match error with
  | none =>
    { s.setDelivery id { d with status := .delivered,lastError := none,phase := .finished } with
      outcomes := (d.origin,true)::s.outcomes }
  | some message =>
    if d.attempts < config.maxAttempts then
      s.setDelivery id { d with lastError := some message,phase := .waiting }
    else
      { s.setDelivery id { d with
          status := .failed
          lastError := some message
          phase := .finished } with
        outcomes := (d.origin,false)::s.outcomes
        deadLetters :=
          { id := s.nextDeadLetter
            endpointId := d.endpointId
            endpointUrl := d.endpoint.url
            eventType := d.eventType
            payload := d.payload
            attempts := d.attempts
            lastError := some message
            originalDeliveryId := id
            origin := d.origin }::s.deadLetters
        nextDeadLetter := s.nextDeadLetter+1 }

def answered (config : WebhookConfig) (id : ℕ) (error : Option String) (s : WebhookServer) :
    WebhookServer :=
  match s.deliveries id with
  | some d => if d.phase = .fetching then s.deliverWithRetry config id error d else s
  | none => s

/-- The timer of the next attempt fires; by then the call that made the delivery goes on. -/
def retryTimer (id : ℕ) (s : WebhookServer) : WebhookServer :=
  match s.deliveries id with
  | some d =>
    if d.phase = .waiting ∧ ∀ c ∈ s.calls, c.delivery ≠ id then
      s.setDelivery id { d with attempts := d.attempts+1,phase := .fetching }
    else s
  | none => s

def modifyDeadLetter (id : ℕ) (change : WebhookDeadLetter → WebhookDeadLetter)
    (s : WebhookServer) : WebhookServer :=
  { s with deadLetters := s.deadLetters.map fun x => if x.id = id then change x else x }

def available (id : ℕ) (s : WebhookServer) : Option WebhookEndpoint :=
  (s.endpoints id).filter fun endpoint => endpoint.deletedAt = none

/-- `retryWebhookDeadLetter` up to its `await`. -/
def retryWebhookDeadLetter (id : ℕ) (s : WebhookServer) : WebhookServer :=
  match s.deadLetters.find? (·.id = id) with
  | some entry => match s.available entry.endpointId with
    | some endpoint =>
      let requeued := s.modifyDeadLetter id fun x =>
        { x with status := .requeued,attempts := x.attempts+1 }
      { requeued.startDelivery entry.endpointId endpoint entry.eventType entry.payload
          entry.origin (some id) with
        calls := s.calls ++ [⟨id,s.nextDelivery⟩] }
    | none => s.modifyDeadLetter id fun x =>
      { x with
        status := .deadLetter
        lastError := some "Endpoint not found for dead-letter retry" }
  | none => s

def finishRetry (call : RetryCall) (d : WebhookDelivery) (s : WebhookServer) : WebhookServer :=
  match d.status with
  | .delivered => s.modifyDeadLetter call.entry fun x => { x with status := .delivered }
  | .failed => s.modifyDeadLetter call.entry fun x =>
    { x with status := .deadLetter,lastError := d.lastError }
  | .pending => s

/-- The first attempt of the delivery is over, and the call that waited for it goes on. -/
def resumed (call : RetryCall) (s : WebhookServer) : WebhookServer :=
  match s.deliveries call.delivery with
  | some d =>
    if call ∈ s.calls ∧ d.phase ≠ .fetching then
      { s.finishRetry call d with calls := s.calls.erase call }
    else s
  | none => s

end Deliveries

def step (config : WebhookConfig) (e : WebhookEvent) (s : WebhookServer) : WebhookServer :=
  match e with
  | .register input challengeToken now =>
    s.registerWebhookEndpoint config input challengeToken now
  | .verify id now => s.verifyWebhookEndpoint id now
  | .probed probe answer now => match s.probes probe with
    | some p => { s.writeBack p answer now with probes := Function.update s.probes probe none }
    | none => s
  | .update id input now => s.updateWebhookEndpoint id input now
  | .delete id actor now => s.deleteWebhookEndpoint id actor now
  | .restore id _ now => s.restoreWebhookEndpoint id now
  | .emit eventType payload => s.emitTransactionEvent config eventType payload
  | .answered delivery error => s.answered config delivery error
  | .retryTimer delivery => s.retryTimer delivery
  | .retryDeadLetter id => s.retryWebhookDeadLetter id
  | .resumed call => s.resumed call

end WebhookServer

end YieldVault.Backend
