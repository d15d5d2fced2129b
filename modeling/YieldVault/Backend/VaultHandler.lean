import YieldVault.Backend.VaultLedger
import YieldVault.Backend.WalletNonce

/-! The routes for deposits and withdrawals. A request passes the gates of its route, takes
the lock of its wallet, and runs its operation, under its key if it has one. The code
between two awaits is one step, and the steps of all requests interleave. -/
namespace YieldVault.Backend

inductive VaultRoute
  | deposits | withdrawals | depositsV2
  deriving DecidableEq

def VaultRoute.type : VaultRoute → OperationType
  | .deposits | .depositsV2 => .deposit
  | .withdrawals => .withdrawal

inductive SignedActionError
  | nonce (error : NonceError) | invalidSignature | other

inductive OperationError
  | circuitOpen (retryAfterMs : ℕ)
  | simulation (statusCode : ℕ) (code message : String)
  | other (message : String)

structure OperationResult where
  id : String
  type : OperationType
  amount : ℚ
  asset : String
  walletAddress : String
  transactionHash : String
  status : String
  timestamp : ℕ

inductive VaultResponse
  | created (result : OperationResult) (replayed : Bool)
  | signedActionRequired
  | signedActionRefused (error : SignedActionError)
  | walletRequired
  | walletNotApproved
  | endpointNotAvailable
  | invalidBody
  | overrideDenied
  | dailyLimitExceeded (dailyLimit usedToday remaining requested : ℚ) (resetsAt : ℕ)
  | walletOperationInProgress (walletAddress : String)
  | keyConflict
  | serviceUnavailable (retryAfterMs : ℕ)
  | simulationFailed (statusCode : ℕ) (code message : String)
  | internalError

def VaultResponse.status : VaultResponse → ℕ
  | .created _ _ => 201
  | .signedActionRequired | .invalidBody => 400
  | .signedActionRefused .other => 500
  | .signedActionRefused _ => 401
  | .walletRequired | .walletNotApproved | .overrideDenied => 403
  | .endpointNotAvailable => 404
  | .dailyLimitExceeded _ _ _ _ _ => 429
  | .walletOperationInProgress _ | .keyConflict => 409
  | .serviceUnavailable _ => 503
  | .simulationFailed statusCode _ _ => statusCode
  | .internalError => 500

structure VaultConfig where
  /-- The time to live of stored responses. -/
  ttlMs : ℕ
  signatureEnforced : Bool
  allowlistEnabled : Bool
  dailyLimit : ℚ
  decimals : DecimalArithmetic
  normalizeWalletAddress : String → String
  /-- The digest of the body as JSON. -/
  generateFingerprint : VaultOperationBody → String
  isEmail : String → Bool

/-- The headers that the routes read, and whether an override of the daily limit is asked
for by one of them. -/
structure VaultHeaders where
  idempotencyKey : Option String := none
  xIdempotencyKey : Option String := none
  xWalletAddress : Option String := none
  overrideRequested : Bool := false

def truthy (text : Option String) : Option String := text.filter (fun s => s ≠ "")

def VaultHeaders.key (headers : VaultHeaders) : Option String :=
  truthy headers.idempotencyKey <|> truthy headers.xIdempotencyKey

section Schema

def utf16Length (text : String) : ℕ :=
  (text.toList.map fun c => if 0xFFFF < c.toNat then 2 else 1).sum

def isWalletAddress (text : String) : Bool :=
  match text.toList with
  | 'G' :: rest => decide (55 ≤ rest.length ∧ rest.length ≤ 63) && rest.all Char.isAlphanum
  | _ => false

/-- `VaultOperationSchema`; a field that may be missing is only checked if it is there. -/
def vaultOperationSchema (cfg : VaultConfig) (body : VaultOperationBody) : Bool :=
  decide (0 < body.amount) &&
  decide (1 ≤ utf16Length body.asset ∧ utf16Length body.asset ≤ 12) &&
  isWalletAddress body.walletAddress &&
  body.email.all cfg.isEmail &&
  body.referralCode.all (fun text => decide (utf16Length text ≤ 64)) &&
  body.nonce.all (fun text => decide (16 ≤ utf16Length text ∧ utf16Length text ≤ 128)) &&
  body.signature.all (fun text => decide (32 ≤ utf16Length text ∧ utf16Length text ≤ 512))

end Schema

inductive OperationStep
  | submitting
  | inserting (txHash : String)
  | updating (txHash : String) (recordedAt : ℕ)
  | recording (txHash : String)
  | finished (outcome : Except OperationError OperationResult)

inductive RequestPhase
  | summing (start : ℕ)
  | evaluating (start : ℕ) (used : ℚ)
  | operating (step : OperationStep)
  | awaiting
  | answered (response : VaultResponse)

def Answer.phase : Answer OperationResult → RequestPhase
  | .started => .operating .submitting
  | _ => .awaiting

/-- A request, the call of the store that it has made, and, once its operation's
transaction has come back, whether that succeeded on chain. -/
structure VaultRequest where
  route : VaultRoute
  key : Option String
  body : VaultOperationBody
  phase : RequestPhase
  call : Option ℕ := none
  landed : Option Bool := none

structure VaultServer where
  keyed : KeyedCalls String String OperationResult OperationError := {}
  inFlightWallets : Finset String := ∅
  ledger : Ledger := {}
  allowedAddresses : Finset String := ∅
  overrides : String → Option ℕ := fun _ => none
  requests : ℕ → Option VaultRequest := fun _ => none
  next : ℕ := 0

inductive Progress
  | sum
  | evaluate (now : ℕ)
  | submitted (landed : Bool) (outcome : Except OperationError String)
  | inserted (timestamp now : ℕ) (outcome : Except OperationError Unit)
  | updated (now : ℕ) (id : String) (outcome : Except OperationError Unit)
  | recorded (now : ℕ) (id : String)
  | settle (now : ℕ)
  | release
  | respond

/-- `signed` is what checking the nonce and the signature has come to, and `flagEnabled`
what the feature flags say to the request's wallet. -/
inductive VaultEvent
  | arrive (now : ℕ) (route : VaultRoute) (headers : VaultHeaders) (body : VaultOperationBody)
      (signed : Except SignedActionError Unit) (flagEnabled : Bool)
  | proceed (request : ℕ) (progress : Progress)
  | allow (wallet : String)
  | disallow (wallet : String)
  | override (wallet : String) (expiresAt : ℕ)
  | deleteKey (key : String)
  | clear

section Gates

variable (cfg : VaultConfig)

def requireSignedWalletAction (signed : Except SignedActionError Unit)
    (body : VaultOperationBody) : Except VaultResponse VaultOperationBody :=
  if cfg.signatureEnforced then
    if body.walletAddress = "" ∨ truthy body.nonce = none ∨ truthy body.signature = none then
      .error .signedActionRequired
    else
      match signed with
      | .error error => .error (.signedActionRefused error)
      | .ok _ => .ok { body with walletAddress := cfg.normalizeWalletAddress body.walletAddress }
  else .ok body

def isAllowed (allowedAddresses : Finset String) (wallet : String) : Bool :=
  decide (cfg.normalizeWalletAddress wallet ∈ allowedAddresses)

def allowlistMiddleware (allowedAddresses : Finset String) (headers : VaultHeaders)
    (body : VaultOperationBody) : Except VaultResponse Unit :=
  if cfg.allowlistEnabled then
    match truthy (some body.walletAddress) <|> truthy headers.xWalletAddress with
    | none => .error .walletRequired
    | some wallet =>
      if isAllowed cfg allowedAddresses wallet then .ok () else .error .walletNotApproved
  else .ok ()

def requireFlag (flagEnabled : Bool) : Except VaultResponse Unit :=
  if flagEnabled then .ok () else .error .endpointNotAvailable

def validate (body : VaultOperationBody) : Except VaultResponse Unit :=
  if vaultOperationSchema cfg body then .ok () else .error .invalidBody

/-- The gate that differs between the routes. -/
def VaultRoute.gate (route : VaultRoute) (allowedAddresses : Finset String)
    (headers : VaultHeaders) (flagEnabled : Bool) (body : VaultOperationBody) :
    Except VaultResponse Unit :=
  match route with
  | .deposits | .withdrawals => allowlistMiddleware cfg allowedAddresses headers body
  | .depositsV2 => requireFlag flagEnabled

/-- The gates of a route up to the daily limit. A body that the schema accepts has no
reason for an override, so that a request for one is always denied. -/
def VaultRoute.gates (route : VaultRoute) (allowedAddresses : Finset String)
    (headers : VaultHeaders) (signed : Except SignedActionError Unit) (flagEnabled : Bool)
    (body : VaultOperationBody) : Except VaultResponse VaultOperationBody := do
  let body ← requireSignedWalletAction cfg signed body
  route.gate cfg allowedAddresses headers flagEnabled body
  validate cfg body
  if route = .withdrawals ∧ headers.overrideRequested then throw .overrideDenied
  return body

end Gates

section DailyLimit

def dayMs : ℕ := 86400000

def getUtcDayStart (now : ℕ) : ℕ := now/dayMs*dayMs

variable (cfg : VaultConfig)

def sumWithdrawalsForDay (wallet : String) (start : ℕ) (rows : List TransactionRow) : ℚ :=
  (rows.filter fun row => decide (row.user = wallet ∧ row.type = .withdrawal ∧
    start ≤ row.timestamp ∧ row.timestamp < start+dayMs)).foldl
      (fun total row => cfg.decimals.plus total row.amount) 0

def overrideActive (overrides : String → Option ℕ) (wallet : String) (now : ℕ) : Bool :=
  (overrides wallet).any fun expiresAt => decide (now < expiresAt)

def withinDailyLimit (overrides : String → Option ℕ) (now : ℕ) (used : ℚ)
    (body : VaultOperationBody) : Bool :=
  overrideActive overrides (cfg.normalizeWalletAddress body.walletAddress) now ||
    decide (cfg.decimals.plus used body.amount ≤ cfg.dailyLimit)

def dailyLimitExceeded (start : ℕ) (used : ℚ) (body : VaultOperationBody) : VaultResponse :=
  .dailyLimitExceeded cfg.dailyLimit used (max (cfg.decimals.minus cfg.dailyLimit used) 0)
    body.amount (start+dayMs)

end DailyLimit

/-- The error branches of the handler. -/
def OperationError.response : OperationError → VaultResponse
  | .circuitOpen retryAfterMs => .serviceUnavailable retryAfterMs
  | .simulation statusCode code message => .simulationFailed statusCode code message
  | .other _ => .internalError

def outcomeResponse (replayed : Bool) : Except OperationError OperationResult → VaultResponse
  | .ok result => .created result replayed
  | .error error => error.response

def VaultRequest.wallet (cfg : VaultConfig) (request : VaultRequest) : String :=
  cfg.normalizeWalletAddress request.body.walletAddress

def VaultRequest.fingerprint (cfg : VaultConfig) (request : VaultRequest) : String :=
  cfg.generateFingerprint request.body

def VaultRequest.result (request : VaultRequest) (txHash id : String) (now : ℕ) :
    OperationResult :=
  ⟨id,request.route.type,request.body.amount,request.body.asset,request.body.walletAddress,
    txHash,"pending",now⟩

def VaultRequest.at (request : VaultRequest) (phase : RequestPhase) : VaultRequest :=
  { request with phase := phase }

/-- Whether the transaction that has come back succeeded on chain. -/
def Progress.landed : Progress → Option Bool → Option Bool
  | .submitted landed _, _ => some landed
  | _, before => before

namespace VaultServer

def put (id : ℕ) (request : VaultRequest) (s : VaultServer) : VaultServer :=
  { s with requests := Function.update s.requests id (some request) }

/-- The handler up to its first await. -/
def enter (cfg : VaultConfig) (now id : ℕ) (request : VaultRequest) (s : VaultServer) :
    VaultServer :=
  let wallet := request.wallet cfg
  if wallet = "" ∨ wallet ∈ s.inFlightWallets then
    s.put id (request.at (.answered (.walletOperationInProgress wallet)))
  else
    let s := { s with inFlightWallets := insert wallet s.inFlightWallets }
    match request.key with
    | none => s.put id (request.at (.operating .submitting))
    | some key =>
      let answer :=
        (s.keyed.store.execute cfg.ttlMs now key (request.fingerprint cfg) s.keyed.next).1
      put id { request with phase := answer.phase, call := some s.keyed.next }
        { s with keyed := s.keyed.serve cfg.ttlMs (.execute now key (request.fingerprint cfg)) }

def arrive (cfg : VaultConfig) (now : ℕ) (route : VaultRoute) (headers : VaultHeaders)
    (body : VaultOperationBody) (signed : Except SignedActionError Unit) (flagEnabled : Bool)
    (s : VaultServer) : VaultServer :=
  let numbered := { s with next := s.next+1 }
  match route.gates cfg s.allowedAddresses headers signed flagEnabled body with
  | .error response => numbered.put s.next ⟨route,headers.key,body,.answered response,none,none⟩
  | .ok body =>
    if route = .withdrawals then
      numbered.put s.next ⟨route,headers.key,body,.summing (getUtcDayStart now),none,none⟩
    else numbered.enter cfg now s.next ⟨route,headers.key,body,.awaiting,none,none⟩

def evaluate (cfg : VaultConfig) (now id start : ℕ) (used : ℚ) (request : VaultRequest)
    (s : VaultServer) : VaultServer :=
  if withinDailyLimit cfg s.overrides now used request.body then s.enter cfg now id request
  else s.put id (request.at (.answered (dailyLimitExceeded cfg start used request.body)))

def settlement (s : VaultServer) (request : VaultRequest) : Option VaultResponse :=
  match request.phase, request.call with
  | .operating (.finished outcome), none => some (outcomeResponse false outcome)
  | .operating (.finished _), some call => (s.keyed.response call).map (outcomeResponse false)
  | .awaiting, some call =>
    match s.keyed.calls call with
    | some ⟨_,_,.answered .conflict⟩ => some .keyConflict
    | _ => (s.keyed.response call).map (outcomeResponse true)
  | _, _ => none

/-- The response is sent, and the lock of the wallet released. -/
def respond (cfg : VaultConfig) (id : ℕ) (request : VaultRequest) (s : VaultServer) :
    VaultServer :=
  match s.settlement request with
  | some response =>
    put id (request.at (.answered response))
      { s with inFlightWallets := s.inFlightWallets.erase (request.wallet cfg) }
  | none => s

def operate (cfg : VaultConfig) (request : VaultRequest) (progress : Progress)
    (step : OperationStep) (ledger : Ledger) : Option (OperationStep × Ledger) :=
  match progress, step with
  | .submitted _ (.ok txHash), .submitting => some (.inserting txHash,ledger)
  | .submitted _ (.error error), .submitting => some (.finished (.error error),ledger)
  | .inserted timestamp now (.ok _), .inserting txHash => some (.updating txHash now,
      ledger.createTransaction request.route.type (request.wallet cfg) request.body timestamp)
  | .inserted _ _ (.error error), .inserting _ => some (.finished (.error error),ledger)
  | .updated now id (.ok _), .updating txHash recordedAt =>
    some (match request.route.type with
      | .deposit => .recording txHash
      | .withdrawal => .finished (.ok (request.result txHash id now)),
      ledger.updateVaultStateAndSnapshot cfg.decimals request.route.type request.body.amount
        recordedAt)
  | .updated _ _ (.error error), .updating _ _ => some (.finished (.error error),ledger)
  -- an error of the referral service is caught there
  | .recorded now id, .recording txHash =>
    some (.finished (.ok (request.result txHash id now)),ledger)
  | _, _ => none

def settle (cfg : VaultConfig) (now : ℕ) (request : VaultRequest) (s : VaultServer) :
    VaultServer :=
  match request.phase, request.call with
  | .operating (.finished (.ok result)), some call =>
    { s with keyed := s.keyed.serve cfg.ttlMs (.fulfil now call result) }
  | .operating (.finished (.error error)), some call =>
    { s with keyed := s.keyed.serve cfg.ttlMs (.reject call error) }
  | _, _ => s

def release (cfg : VaultConfig) (request : VaultRequest) (s : VaultServer) : VaultServer :=
  match request.call with
  | some call => { s with keyed := s.keyed.serve cfg.ttlMs (.release call) }
  | none => s

def proceed (cfg : VaultConfig) (id : ℕ) (progress : Progress) (request : VaultRequest)
    (s : VaultServer) : VaultServer :=
  match request.phase, progress with
  | .summing start, .sum => s.put id (request.at (.evaluating start
      (sumWithdrawalsForDay cfg (request.wallet cfg) start s.ledger.transactions)))
  | .evaluating start used, .evaluate now => s.evaluate cfg now id start used request
  | _, .settle now => s.settle cfg now request
  | _, .release => s.release cfg request
  | _, .respond => s.respond cfg id request
  | .operating step, progress =>
    match operate cfg request progress step s.ledger with
    | some (next,ledger) =>
      put id { request with
        phase := .operating next
        landed := progress.landed request.landed } { s with ledger := ledger }
    | none => s
  | _, _ => s

/-- One step; an event that does not fit the state changes nothing. -/
def serve (cfg : VaultConfig) : VaultEvent → VaultServer → VaultServer
  | .arrive now route headers body signed flagEnabled, s =>
    s.arrive cfg now route headers body signed flagEnabled
  | .proceed id progress, s =>
    match s.requests id with
    | some request => s.proceed cfg id progress request
    | none => s
  | .allow wallet, s =>
    { s with allowedAddresses := insert (cfg.normalizeWalletAddress wallet) s.allowedAddresses }
  | .disallow wallet, s =>
    { s with allowedAddresses := s.allowedAddresses.erase (cfg.normalizeWalletAddress wallet) }
  | .override wallet expiresAt, s => { s with
      overrides := Function.update s.overrides (cfg.normalizeWalletAddress wallet) (some expiresAt) }
  | .deleteKey key, s => { s with keyed := s.keyed.serve cfg.ttlMs (.deleteKey key) }
  | .clear, s => { s with keyed := s.keyed.serve cfg.ttlMs .clear }

def runFrom (cfg : VaultConfig) (events : List VaultEvent) : VaultServer :=
  Runs.run (serve cfg) events {}

end VaultServer

section Demo

def exactDecimals : DecimalArithmetic :=
  ⟨fun x y => x+y,fun x y => x-y,fun x y => x/y,fun _ x => x⟩

/-- A server that asks for no signature and lets every wallet in. -/
def openConfig : VaultConfig where
  ttlMs := 86400000
  signatureEnforced := false
  allowlistEnabled := false
  dailyLimit := 10000
  decimals := exactDecimals
  normalizeWalletAddress := fun wallet => wallet
  generateFingerprint := fun body => body.asset
  isEmail := fun _ => true

def aliceWallet : String := "GALICEAAAAAAAAAAAAAAAAAAAAAAAAAAAAAAAAAAAAAAAAAAAAAAAAAA"

def aliceBody (amount : ℚ) : VaultOperationBody :=
  { amount := amount, asset := "USDC", walletAddress := aliceWallet }

def aliceSends (route : VaultRoute) (now : ℕ) (amount : ℚ) : VaultEvent :=
  .arrive now route { idempotencyKey := some "key" } (aliceBody amount) (.ok ()) false

def goesWell (id now : ℕ) : List VaultEvent :=
  [.proceed id (.submitted true (.ok "hash")),.proceed id (.inserted now now (.ok ())),
    .proceed id (.updated now "tx" (.ok ())),.proceed id (.recorded now "tx"),
    .proceed id (.settle now),.proceed id .release,.proceed id .respond]

def aliceResult : OperationResult :=
  ⟨"tx",.deposit,1000,"USDC",aliceWallet,"hash","pending",1⟩

end Demo

end YieldVault.Backend
