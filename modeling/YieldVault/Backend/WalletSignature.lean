import YieldVault.Texts
import YieldVault.Backend.VaultHandler

/-! The signatures of wallet actions. The text that a wallet signs has the wallet, the action
and the nonce with its times in it. The asset and the amount are not part of it. -/
namespace YieldVault.Backend

open Texts

def WalletAction.text : WalletAction → String
  | .login => "login"
  | .deposit => "deposit"
  | .withdrawal => "withdrawal"

def VaultRoute.action : VaultRoute → WalletAction
  | .deposits | .depositsV2 => .deposit
  | .withdrawals => .withdrawal

structure SignMessageParams where
  walletAddress : String
  action : WalletAction
  nonce : String
  issuedAt : String
  expiresAt : String

def buildWalletSignMessage (normalizeWalletAddress : String → String)
    (params : SignMessageParams) : String :=
  joinLines ["YieldVault Signed Action",
    "Wallet: " ++ normalizeWalletAddress params.walletAddress,
    "Action: " ++ params.action.text,
    "Nonce: " ++ params.nonce,
    "Issued At: " ++ params.issuedAt,
    "Expires At: " ++ params.expiresAt]

inductive WalletSignatureMode
  | hmac | stellar

/-- The settings of the signatures, and the cryptography that they rest on: the keyed digest
in hexadecimal, and the verification of a message under the key of a wallet. -/
structure SignatureConfig where
  vault : VaultConfig
  kind : NonceStoreKind
  ttlSeconds : ℕ := 300
  maxActiveNoncesPerWallet : ℕ := 10
  trim : String → String
  toLowerCase : String → String
  mode : WalletSignatureMode
  hmacSha256 : String → String
  keypairVerify : String → String → String → Bool

namespace SignatureConfig

variable (cfg : SignatureConfig)

def nonces : NonceConfig :=
  ⟨cfg.kind,cfg.ttlSeconds,cfg.maxActiveNoncesPerWallet,cfg.vault.normalizeWalletAddress,cfg.trim⟩

def verifyHmacSignature (message signature : String) : Bool :=
  decide (cfg.hmacSha256 message = cfg.toLowerCase (cfg.trim signature))

def verifyStellarSignature (walletAddress message signature : String) : Bool :=
  cfg.keypairVerify (cfg.vault.normalizeWalletAddress walletAddress) message (cfg.trim signature)

def verifySignature (walletAddress message signature : String) : Bool :=
  match cfg.mode with
  | .stellar => cfg.verifyStellarSignature walletAddress message signature
  | .hmac => cfg.verifyHmacSignature message signature

def verifyWalletActionSignature (params : SignMessageParams) (signature : String) : Bool :=
  cfg.verifySignature params.walletAddress
    (buildWalletSignMessage cfg.vault.normalizeWalletAddress params) signature

/-- A signature is one of one message only. -/
def Unforgeable : Prop :=
  ∀ walletAddress walletAddress' message message' signature,
    cfg.verifySignature walletAddress message signature = true →
    cfg.verifySignature walletAddress' message' signature = true → message = message'

/-- The middleware between its awaits: the check of the nonce entry that the store has
returned, that of the signature, and what consuming the nonce has come to. -/
def signedAction (walletAddress : String) (action : WalletAction) (signature : String) (now : ℕ)
    (found : Option StoredNonce) (consumed : Except NonceError Unit) :
    Except SignedActionError Unit :=
  match validateNonce (cfg.vault.normalizeWalletAddress walletAddress) action now found with
  | .error error => .error (.nonce error)
  | .ok entry =>
    if cfg.verifyWalletActionSignature ⟨walletAddress,action,entry.nonce,
        toISOString entry.issuedAt,toISOString entry.expiresAt⟩ signature then
      match consumed with
      | .error error => .error (.nonce error)
      | .ok _ => .ok ()
    else .error .invalidSignature

end SignatureConfig

inductive SignedRequest
  | login (walletAddress : String) (nonce signature : Option String)
  | operation (route : VaultRoute) (body : VaultOperationBody)

namespace SignedRequest

def action : SignedRequest → WalletAction
  | .login _ _ _ => .login
  | .operation route _ => route.action

def walletAddress : SignedRequest → String
  | .login walletAddress _ _ => walletAddress
  | .operation _ body => body.walletAddress

def nonce : SignedRequest → Option String
  | .login _ nonce _ => nonce
  | .operation _ body => body.nonce

def signature : SignedRequest → Option String
  | .login _ _ signature => signature
  | .operation _ body => body.signature

variable (cfg : SignatureConfig) (request : SignedRequest)

/-- The nonce as the store is asked for it. -/
def trimmedNonce : String := cfg.trim (request.nonce.getD "")

/-- What the middleware makes of a request to a server; the entry is read at one time and
checked at another. -/
def signed (s : NonceService) (server got now : ℕ) (consumed : Except NonceError Unit) :
    Except SignedActionError Unit :=
  cfg.signedAction request.walletAddress request.action (request.signature.getD "") now
    (liveNonce got (s.entries (cfg.nonces.shelf server,request.trimmedNonce cfg))) consumed

structure Accepted (s : NonceService) : Prop where
  given : request.walletAddress ≠ "" ∧ truthy request.nonce ≠ none ∧
    truthy request.signature ≠ none
  passes : ∃ server got now consumed, request.signed cfg s server got now consumed = .ok ()

/-- The gate of the vault routes with this middleware lets the accepted operations through,
with the wallet rewritten. -/
theorem requireSignedWalletAction_ok (henforced : cfg.vault.signatureEnforced = true)
    (route : VaultRoute) (body executed : VaultOperationBody) (s : NonceService)
    (server got now : ℕ) (consumed : Except NonceError Unit)
    (h : requireSignedWalletAction cfg.vault
      ((operation route body).signed cfg s server got now consumed) body = .ok executed) :
    (operation route body).Accepted cfg s ∧
      executed = { body with
        walletAddress := cfg.vault.normalizeWalletAddress body.walletAddress } := by
  simp only [requireSignedWalletAction,henforced,if_true] at h
  split_ifs at h with hmissing
  rw [not_or,not_or] at hmissing
  split at h
  · cases h
  · next hok => exact ⟨⟨hmissing,server,got,now,consumed,hok⟩,(Except.ok.inj h).symm⟩

end SignedRequest

section Message

variable {normalizeWalletAddress : String → String} {params params' : SignMessageParams}

/-- What the server puts under the wallet and the action is one line each. -/
structure SignMessageParams.OneLine (params : SignMessageParams) : Prop where
  nonce : Texts.OneLine params.nonce
  issuedAt : Texts.OneLine params.issuedAt
  expiresAt : Texts.OneLine params.expiresAt

theorem oneLine_text (action : WalletAction) : Texts.OneLine ("Action: " ++ action.text) := by
  cases action <;> decide

theorem text_inj {action action' : WalletAction} (h : action.text = action'.text) :
    action = action' := by
  cases action <;> cases action' <;> first | rfl | exact absurd h (by decide)

theorem append_left_inj {text text' label : String} (h : label ++ text = label ++ text') :
    text = text' := by
  have hlist := congrArg String.toList h
  rw [String.toList_append,String.toList_append] at hlist
  exact String.toList_inj.mp (List.append_cancel_left hlist)

/-- The message tells all of its fields, read from its last line upwards. -/
theorem buildWalletSignMessage_inj (h : params.OneLine) (h' : params'.OneLine)
    (heq : buildWalletSignMessage normalizeWalletAddress params =
      buildWalletSignMessage normalizeWalletAddress params') :
    normalizeWalletAddress params.walletAddress = normalizeWalletAddress params'.walletAddress ∧
      params.action = params'.action ∧ params.nonce = params'.nonce ∧
      params.issuedAt = params'.issuedAt ∧ params.expiresAt = params'.expiresAt := by
  have hlabel : ∀ label text, Texts.OneLine label → Texts.OneLine text →
      Texts.OneLine (label ++ text) := fun _ _ => Texts.OneLine.append
  have hnonce : Texts.OneLine "Nonce: " := by decide
  have hissuedAt : Texts.OneLine "Issued At: " := by decide
  have hexpiresAt : Texts.OneLine "Expires At: " := by decide
  obtain ⟨heq,hexpires⟩ := joinLines_concat_inj [_,_,_,_,_] [_,_,_,_,_]
    (List.cons_ne_nil _ _) (List.cons_ne_nil _ _) (hlabel _ _ hexpiresAt h.expiresAt)
    (hlabel _ _ hexpiresAt h'.expiresAt) heq
  obtain ⟨heq,hissued⟩ := joinLines_concat_inj [_,_,_,_] [_,_,_,_]
    (List.cons_ne_nil _ _) (List.cons_ne_nil _ _) (hlabel _ _ hissuedAt h.issuedAt)
    (hlabel _ _ hissuedAt h'.issuedAt) heq
  obtain ⟨heq,hnonces⟩ := joinLines_concat_inj [_,_,_] [_,_,_]
    (List.cons_ne_nil _ _) (List.cons_ne_nil _ _) (hlabel _ _ hnonce h.nonce)
    (hlabel _ _ hnonce h'.nonce) heq
  obtain ⟨heq,haction⟩ := joinLines_concat_inj [_,_] [_,_]
    (List.cons_ne_nil _ _) (List.cons_ne_nil _ _) (oneLine_text _) (oneLine_text _) heq
  exact ⟨append_left_inj (append_left_inj heq),text_inj (append_left_inj haction),
    append_left_inj hnonces,append_left_inj hissued,append_left_inj hexpires⟩

end Message

section Runs

variable {cfg : NonceConfig} {s : NonceService}

def IsHex (text : String) : Prop := ∀ c ∈ text.toList, c ∈ "0123456789abcdef".toList

instance (text : String) : Decidable (IsHex text) := List.decidableBAll _ _

theorem IsHex.oneLine {text : String} (h : IsHex text) : Texts.OneLine text :=
  fun hmem => absurd (h _ hmem) (by decide)

/-- A nonce is drawn as random bytes in hexadecimal. -/
def DrawsHex (_ : NonceService) : NonceEvent → Prop
  | .issue _ _ _ _ _ nonce _ => IsHex nonce
  | _ => True

/-- An entry is found under its nonce, which is hexadecimal. -/
def StoredNonce.HexUnder (entry : StoredNonce) (nonce : String) : Prop :=
  entry.nonce = nonce ∧ IsHex nonce

structure HexStored (s : NonceService) : Prop where
  stored : ∀ slot c, s.entries slot = some c → c.value.HexUnder slot.2
  held : ∀ id call found, s.calls id = some call → call.phase.holding = some found →
    found.HexUnder call.nonce

theorem HexStored.live (h : HexStored s) {now : ℕ} {slot : ℕ × String} {found : StoredNonce}
    (hfound : liveNonce now (s.entries slot) = some found) : found.HexUnder slot.2 := by
  obtain ⟨c,hc,rfl⟩ := NonceService.liveNonce_eq_some hfound
  exact h.stored slot c hc

/-- What the next command of a call leaves in its hands and in the store is an entry of its
nonce again. -/
theorem HexStored.advanced (h : HexStored s) {id now : ℕ} {call : NonceCall}
    (hcall : s.calls id = some call) {next : NoncePhase × Option (Cached StoredNonce)}
    (hadvanced : Advanced cfg now (s.entries (call.slot cfg)) call next) :
    (∀ found, next.1.holding = some found → found.HexUnder call.nonce) ∧
      ∀ c, next.2 = some c → c.value.HexUnder call.nonce := by
  have hkept : ∀ c, s.entries (call.slot cfg) = some c → c.value.HexUnder call.nonce :=
    fun c hc => h.stored _ c hc
  have hlive : ∀ found, liveNonce now (s.entries (call.slot cfg)) = some found →
      found.HexUnder call.nonce := fun _ hfound => h.live hfound
  cases hadvanced with
  | looked => exact ⟨hlive,hkept⟩
  | refused error => exact ⟨nofun,hkept⟩
  | checked found phase held wallet action inTime next =>
    rcases next with rfl | rfl
    · exact ⟨nofun,hkept⟩
    · exact ⟨nofun,hkept⟩
  | read found checkedAt marking live unused =>
    refine ⟨?_,hkept⟩
    rintro _ ⟨⟩
    exact hlive found live
  | timed found checkedAt ttl timing =>
    refine ⟨?_,hkept⟩
    rintro _ ⟨⟩
    exact h.held id call found hcall (by rw [timing]; rfl)
  | marked found checkedAt written value way =>
    refine ⟨nofun,?_⟩
    rintro _ ⟨⟩
    have hfound : found.HexUnder call.nonce := by
      rcases way with ⟨-,-,live,-⟩ | ⟨ttl,writing⟩
      · exact hlive found live
      · exact h.held id call found hcall (by rw [writing]; rfl)
    rw [value]
    exact hfound
  | idle phase same holds rests =>
    refine ⟨?_,hkept⟩
    intro found hfound
    rw [holds] at hfound
    cases hfound

theorem hexStored_serve {event : NonceEvent} (h : HexStored s) (hdraws : DrawsHex s event) :
    HexStored (s.serve cfg event) := by
  cases event with
  | issue server now saved wallet action nonce active =>
    simp only [NonceService.serve,NonceService.issue]
    split_ifs
    · exact h
    refine ⟨?_,h.held⟩
    intro slot c hc
    rcases update_eq_some.mp hc with ⟨rfl,⟨⟩⟩ | ⟨-,hold⟩
    · exact ⟨rfl,hdraws⟩
    · exact h.stored slot c hold
  | enter server wallet action nonce consumes =>
    refine ⟨h.stored,?_⟩
    intro id call found hcall hheld
    rcases update_eq_some.mp hcall with ⟨rfl,⟨⟩⟩ | ⟨-,hold⟩
    · cases hheld
    · exact h.held id call found hold hheld
  | advance id now =>
    simp only [NonceService.serve,NonceService.advance]
    split
    · next call hcall =>
      have hadvanced : Advanced cfg now (s.entries (call.slot cfg)) call
        (call.advance cfg now (s.entries (call.slot cfg))) := advance_cases
      generalize call.advance cfg now (s.entries (call.slot cfg)) = next at hadvanced ⊢
      have hnext := h.advanced hcall hadvanced
      refine ⟨?_,?_⟩
      · intro slot c hc
        by_cases hslot : slot = call.slot cfg
        · have hwritten : next.2 = some c := by simpa [hslot] using hc
          rw [hslot]
          exact hnext.2 c hwritten
        · have hold : s.entries slot = some c := by simpa [hslot] using hc
          exact h.stored slot c hold
      · intro other c found hc hheld
        rcases update_eq_some.mp hc with ⟨rfl,⟨⟩⟩ | ⟨-,hold⟩
        · exact hnext.1 found hheld
        · exact h.held other c found hold hheld
    · exact h

theorem hexStored_runFrom {events : List NonceEvent}
    (h : Runs.Along (NonceService.serve cfg) DrawsHex {} events) :
    HexStored (NonceService.runFrom cfg events) := by
  have hstep : ∀ s event, HexStored s → DrawsHex s event →
      HexStored (NonceService.serve cfg event s) := fun _ _ => hexStored_serve
  have hempty : HexStored {} := by
    refine ⟨?_,?_⟩
    · rintro _ _ ⟨⟩
    · rintro _ _ _ ⟨⟩
  exact Runs.Along.invariant hstep h hempty

end Runs

section Binding

variable {cfg : SignatureConfig} {s s' : NonceService} {request request' : SignedRequest}

/-- What the wallet signs of a request: who does what under which nonce. -/
structure SameAction (cfg : SignatureConfig) (request request' : SignedRequest) : Prop where
  wallet : cfg.vault.normalizeWalletAddress request.walletAddress =
    cfg.vault.normalizeWalletAddress request'.walletAddress
  action : request.action = request'.action
  nonce : request.trimmedNonce cfg = request'.trimmedNonce cfg

/-- The fields of the message come from one entry, which is that of the request's nonce. -/
theorem SignedRequest.Accepted.message (h : request.Accepted cfg s) (hs : HexStored s) :
    ∃ issuedAt expiresAt, cfg.verifyWalletActionSignature
        ⟨request.walletAddress,request.action,request.trimmedNonce cfg,toISOString issuedAt,
          toISOString expiresAt⟩ (request.signature.getD "") = true ∧
      IsHex (request.trimmedNonce cfg) := by
  obtain ⟨server,got,now,consumed,hpasses⟩ := h.passes
  unfold SignedRequest.signed SignatureConfig.signedAction at hpasses
  split at hpasses
  · cases hpasses
  · next entry hvalid =>
    have hread := (validateNonce_ok hvalid).1
    obtain ⟨hnonce,hhex⟩ := hs.live hread
    split at hpasses
    · next hverified =>
      rw [hnonce] at hverified
      exact ⟨entry.issuedAt,entry.expiresAt,hverified,hhex⟩
    · cases hpasses

theorem SignedRequest.Accepted.sameAction (hunforgeable : cfg.Unforgeable) (hs : HexStored s)
    (hs' : HexStored s') (h : request.Accepted cfg s) (h' : request'.Accepted cfg s')
    (hsignature : request.signature = request'.signature) : SameAction cfg request request' := by
  obtain ⟨issuedAt,expiresAt,hverified,hhex⟩ := h.message hs
  obtain ⟨issuedAt',expiresAt',hverified',hhex'⟩ := h'.message hs'
  rw [hsignature] at hverified
  have hmessage := hunforgeable _ _ _ _ _ hverified hverified'
  have hline : ∀ {text : String}, IsHex text → ∀ wallet action issuedAt expiresAt,
      SignMessageParams.OneLine
        ⟨wallet,action,text,toISOString issuedAt,toISOString expiresAt⟩ :=
    fun hhex _ _ _ _ => ⟨hhex.oneLine,oneLine_toISOString _,oneLine_toISOString _⟩
  obtain ⟨hwallet,haction,hnonce,-,-⟩ :=
    buildWalletSignMessage_inj (hline hhex _ _ _ _) (hline hhex' _ _ _ _) hmessage
  exact ⟨hwallet,haction,hnonce⟩

/-- Requests that are accepted with one signature are the same action of the same wallet
under the same nonce, for the message determines these, and the times of the nonce. -/
theorem signature_binds_action (hunforgeable : cfg.Unforgeable) {events events' : List NonceEvent}
    (hdraws : Runs.Along (NonceService.serve cfg.nonces) DrawsHex {} events)
    (hdraws' : Runs.Along (NonceService.serve cfg.nonces) DrawsHex {} events') :
    (∀ request request' : SignedRequest,
      request.Accepted cfg (NonceService.runFrom cfg.nonces events) →
      request'.Accepted cfg (NonceService.runFrom cfg.nonces events') →
      request.signature = request'.signature → SameAction cfg request request') ∧
    ∀ params params' : SignMessageParams, params.OneLine → params'.OneLine →
      buildWalletSignMessage cfg.vault.normalizeWalletAddress params =
        buildWalletSignMessage cfg.vault.normalizeWalletAddress params' →
      cfg.vault.normalizeWalletAddress params.walletAddress =
          cfg.vault.normalizeWalletAddress params'.walletAddress ∧
        params.action = params'.action ∧ params.nonce = params'.nonce ∧
        params.issuedAt = params'.issuedAt ∧ params.expiresAt = params'.expiresAt := by
  refine ⟨?_,?_⟩
  · intro request request' h h' hsignature
    exact h.sameAction hunforgeable (hexStored_runFrom hdraws) (hexStored_runFrom hdraws') h'
      hsignature
  · intro params params' h h' heq
    exact buildWalletSignMessage_inj h h' heq

end Binding

section Signed

def aliceNonce : String := "000102030405060708090a0b0c0d0e0f1011121314151617"

/-- The digest under the secret of the development mode. -/
def aliceSignature : String := "f10dbbfba079d8d238aa11f9184022dc0de1d43aa8e459230ad4a1054d40af89"

def aliceMessage : String :=
  buildWalletSignMessage (fun wallet => wallet) ⟨aliceWallet,.deposit,aliceNonce,
    "1970-01-01T00:00:00.000Z","1970-01-01T00:05:00.000Z"⟩

/-- The digest is known for one message; those of others only differ from it. -/
def hmacConfig : SignatureConfig where
  vault := { openConfig with signatureEnforced := true }
  kind := .memory
  trim := fun text => text
  toLowerCase := fun text => text
  mode := .hmac
  hmacSha256 := fun message =>
    if message = aliceMessage then aliceSignature else "digest of " ++ message
  keypairVerify := fun _ _ _ => false

def aliceSigned (amount : ℚ) : SignedRequest :=
  .operation .deposits { aliceBody amount with
    nonce := some aliceNonce, signature := some aliceSignature }

def aliceIssue : List NonceEvent := [.issue 0 0 0 aliceWallet .deposit aliceNonce 0]

theorem hmacConfig_unforgeable : hmacConfig.Unforgeable := by
  intro wallet wallet' message message' signature h h'
  have hdigest : hmacConfig.hmacSha256 message = hmacConfig.hmacSha256 message' :=
    (of_decide_eq_true h).trans (of_decide_eq_true h').symm
  have hother : ∀ text, aliceSignature ≠ "digest of " ++ text := by
    intro text heq
    have hhead := congrArg (fun t => t.toList.head?) heq
    have halice : aliceSignature.toList.head? = some 'f' := by decide
    simp [halice] at hhead
  simp only [hmacConfig] at hdigest
  split_ifs at hdigest with halice halice' halice'
  · exact halice.trans halice'.symm
  · exact absurd hdigest (hother _)
  · exact absurd hdigest.symm (hother _)
  · exact append_left_inj hdigest

theorem aliceMessage_signed : hmacConfig.verifyWalletActionSignature
    ⟨aliceWallet,.deposit,aliceNonce,toISOString 0,toISOString 300000⟩ aliceSignature = true := by
  have hissued : toISOString 0 = "1970-01-01T00:00:00.000Z" := by decide
  have hexpires : toISOString 300000 = "1970-01-01T00:05:00.000Z" := by decide
  have hmessage : buildWalletSignMessage hmacConfig.vault.normalizeWalletAddress
      ⟨aliceWallet,.deposit,aliceNonce,toISOString 0,toISOString 300000⟩ = aliceMessage := by
    rw [hissued,hexpires]
    rfl
  have hdigest : hmacConfig.hmacSha256 aliceMessage = aliceSignature := by
    simp [hmacConfig]
  have hmode : ∀ message, hmacConfig.verifySignature aliceWallet message aliceSignature =
      hmacConfig.verifyHmacSignature message aliceSignature := fun _ => rfl
  unfold SignatureConfig.verifyWalletActionSignature
  rw [hmessage,hmode,SignatureConfig.verifyHmacSignature,decide_eq_true_iff]
  exact hdigest

def aliceEntry : StoredNonce := ⟨aliceNonce,aliceWallet,.deposit,0,300000,false⟩

theorem aliceEntry_valid : validateNonce aliceWallet .deposit 0 (some aliceEntry) = .ok aliceEntry := by
  simp [validateNonce,aliceEntry]

theorem aliceEntry_live : liveNonce 0 ((NonceService.runFrom hmacConfig.nonces aliceIssue).entries
    (0,aliceNonce)) = some aliceEntry := by
  have hentry : (NonceService.runFrom hmacConfig.nonces aliceIssue).entries (0,aliceNonce) =
      some ⟨aliceEntry,300000⟩ := by
    simp [NonceService.runFrom,aliceIssue,NonceService.serve,NonceService.issue,
      hmacConfig,SignatureConfig.nonces,NonceConfig.shelf,NonceConfig.livetime,openConfig,
      aliceEntry]
  rw [hentry]
  rfl

theorem aliceSigned_accepted (amount : ℚ) :
    (aliceSigned amount).Accepted hmacConfig
      (NonceService.runFrom hmacConfig.nonces aliceIssue) where
  given := by
    have hgiven : aliceWallet ≠ "" ∧ truthy (some aliceNonce) ≠ none ∧
        truthy (some aliceSignature) ≠ none := by decide
    exact hgiven
  passes := by
    refine ⟨0,0,0,.ok (),?_⟩
    show hmacConfig.signedAction aliceWallet .deposit aliceSignature 0
      (liveNonce 0 ((NonceService.runFrom hmacConfig.nonces aliceIssue).entries
        (0,aliceNonce))) (.ok ()) = .ok ()
    have hvalid : validateNonce (hmacConfig.vault.normalizeWalletAddress aliceWallet) .deposit 0
        (some aliceEntry) = .ok aliceEntry := aliceEntry_valid
    rw [aliceEntry_live,SignatureConfig.signedAction,hvalid]
    exact if_pos aliceMessage_signed

theorem aliceIssue_drawsHex :
    Runs.Along (NonceService.serve hmacConfig.nonces) DrawsHex {} aliceIssue := by
  have hhex : IsHex aliceNonce := by decide
  exact ⟨hhex,trivial⟩

theorem aliceSigned_sameAction :
    SameAction hmacConfig (aliceSigned 1) (aliceSigned 1000) :=
  (signature_binds_action hmacConfig_unforgeable aliceIssue_drawsHex aliceIssue_drawsHex).1
    (aliceSigned 1) (aliceSigned 1000) (aliceSigned_accepted 1) (aliceSigned_accepted 1000) rfl

/-- One signature lets deposits of two amounts through. -/
theorem aliceSigned_amounts_differ :
    ¬ ∀ (cfg : SignatureConfig) (events events' : List NonceEvent), cfg.Unforgeable →
      Runs.Along (NonceService.serve cfg.nonces) DrawsHex {} events →
      Runs.Along (NonceService.serve cfg.nonces) DrawsHex {} events' →
      ∀ (route route' : VaultRoute) (body body' : VaultOperationBody),
        (SignedRequest.operation route body).Accepted cfg
          (NonceService.runFrom cfg.nonces events) →
        (SignedRequest.operation route' body').Accepted cfg
          (NonceService.runFrom cfg.nonces events') →
        body.signature = body'.signature →
        cfg.vault.normalizeWalletAddress body.walletAddress =
            cfg.vault.normalizeWalletAddress body'.walletAddress ∧
          route.action = route'.action ∧ body.asset = body'.asset ∧
          body.amount = body'.amount := by
  intro h
  have hamounts := (h hmacConfig aliceIssue aliceIssue hmacConfig_unforgeable
    aliceIssue_drawsHex aliceIssue_drawsHex .deposits .deposits _ _ (aliceSigned_accepted 1)
    (aliceSigned_accepted 1000) rfl).2.2.2
  norm_num [aliceBody] at hamounts

end Signed

end YieldVault.Backend
