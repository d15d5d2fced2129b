import YieldVault.Runs

/-! The refresh tokens of sessions. A login begins a family of tokens, and a rotation
exchanges a token for the next of its family. Each call is made of single commands of a
store, the memory of the server or a Redis, and the commands of all calls interleave. -/
namespace YieldVault.Backend

inductive TokenStoreKind
  | memory | redis

/-- The time of expiry is in seconds. -/
structure RefreshTokenEntry where
  walletAddress : String
  familyId : String
  expiresAt : ℕ
  revoked : Bool

/-- An entry, and when Redis drops it, in milliseconds. -/
structure StoredToken where
  entry : RefreshTokenEntry
  livetime : ℕ

structure SessionConfig where
  kind : TokenStoreKind
  accessTtl : ℕ := 900
  refreshTtl : ℕ := 604800
  normalizeWalletAddress : String → String

inductive RefreshError
  | notFound | sessionRevoked | replayed | expired
  deriving DecidableEq

/-- Where a call of `rotateRefreshToken` or `revokeCurrentSession` stands: what it has read,
and which command comes next. -/
inductive SessionPhase
  | asking (entry : RefreshTokenEntry)
  | deciding (entry : RefreshTokenEntry) (now : ℕ) (familyRevoked : Bool)
  | issuing (entry : RefreshTokenEntry)
  | invalidating (entry : RefreshTokenEntry)
  | revoking (entry : RefreshTokenEntry)
  | erasing (entry : RefreshTokenEntry)
  | deleting (entry : RefreshTokenEntry)
  | exchanged (refreshToken : String)
  | refused (error : RefreshError)
  | revoked
  | unknown

structure SessionCall where
  token : String
  rotates : Bool
  phase : SessionPhase

/-- The store. In memory the entry of a token is one object, so that a mark on it is seen by
all calls that hold it. -/
structure TokenStore where
  tokens : String → Option StoredToken := fun _ => none
  revokedFamilies : String → Option ℕ := fun _ => none
  marked : String → Bool := fun _ => false

/-- Whom a refresh token has been issued to, and in which family. -/
structure IssuedToken where
  walletAddress : String
  familyId : String

/-- The claims of an access token, and the refresh token issued with it. -/
structure AccessClaims where
  sub : String
  exp : ℕ
  refreshToken : String

/-- The store and the calls, what has been issued so far, and the families that logouts
answered with 200 were to end. -/
structure Sessions where
  clock : ℕ
  store : TokenStore := {}
  calls : ℕ → Option SessionCall := fun _ => none
  next : ℕ := 0
  issued : String → Option IssuedToken := fun _ => none
  access : String → Option AccessClaims := fun _ => none
  ended : Set String := ∅

/-- The random strings of a pair of tokens. -/
structure NewPair where
  accessToken : String
  refreshToken : String

/-- Each event comes some time after the one before. -/
inductive SessionEvent
  | login (after : ℕ) (walletAddress : String) (pair : NewPair) (familyId : String)
  | rotate (after : ℕ) (token : String)
  | revoke (after : ℕ) (token : String)
  | advance (after call : ℕ) (pair : NewPair)
  | logout (after : ℕ) (accessToken : String)
  | logoutAll (after : ℕ) (accessToken : String)

def SessionEvent.after : SessionEvent → ℕ
  | .login after _ _ _ | .rotate after _ | .revoke after _ | .advance after _ _
  | .logout after _ | .logoutAll after _ => after

namespace TokenStore

variable (cfg : SessionConfig)

/-- `get` returns the entry. -/
def Live (now : ℕ) (stored : StoredToken) : Prop :=
  match cfg.kind with
  | .memory => now/1000 ≤ stored.entry.expiresAt
  | .redis => now < stored.livetime

instance (now : ℕ) (stored : StoredToken) : Decidable (Live cfg now stored) := by
  unfold Live
  cases cfg.kind
  · exact inferInstanceAs (Decidable (_ ≤ _))
  · exact inferInstanceAs (Decidable (_ < _))

def read (now : ℕ) (token : String) (s : TokenStore) : Option RefreshTokenEntry :=
  match s.tokens token with
  | some stored => if Live cfg now stored then some stored.entry else none
  | none => none

def set (now : ℕ) (token : String) (entry : RefreshTokenEntry) (ttlSeconds : ℕ)
    (s : TokenStore) : TokenStore :=
  { s with tokens := Function.update s.tokens token (some ⟨entry,now+ttlSeconds*1000⟩) }

def delete (token : String) (s : TokenStore) : TokenStore :=
  { s with tokens := Function.update s.tokens token none }

def sweep (now : ℕ) (token : String) (s : TokenStore) : TokenStore :=
  if s.read cfg now token = none then s.delete token else s

def isFamilyRevoked (now : ℕ) (familyId : String) (s : TokenStore) : Bool :=
  match cfg.kind with
  | .memory => (s.revokedFamilies familyId).isSome
  | .redis => (s.revokedFamilies familyId).any fun livetime => decide (now < livetime)

def revokeFamily (now : ℕ) (familyId : String) (s : TokenStore) : TokenStore :=
  { s with revokedFamilies :=
      Function.update s.revokedFamilies familyId (some (now+cfg.refreshTtl*1000)) }

def deleteFamily (now : ℕ) (familyId : String) (s : TokenStore) : TokenStore :=
  match cfg.kind with
  | .memory => { s with tokens := fun token =>
      (s.tokens token).filter fun stored => stored.entry.familyId ≠ familyId }
  | .redis => s.revokeFamily cfg now familyId

/-- The entry of the token, as a call sees it that has read it, is marked as revoked. -/
def Seen (token : String) (entry : RefreshTokenEntry) (s : TokenStore) : Prop :=
  match cfg.kind with
  | .memory => s.marked token = true
  | .redis => entry.revoked = true

instance (token : String) (entry : RefreshTokenEntry) (s : TokenStore) :
    Decidable (s.Seen cfg token entry) := by
  unfold Seen
  cases cfg.kind
  · exact inferInstanceAs (Decidable (_ = _))
  · exact inferInstanceAs (Decidable (_ = _))

/-- The old token is marked as revoked and stored again for the rest of its time. -/
def mark (now at' : ℕ) (token : String) (entry : RefreshTokenEntry) (s : TokenStore) :
    TokenStore :=
  { s.set now token { entry with revoked := true } (max (entry.expiresAt-at') 1) with
    marked := Function.update s.marked token true }

end TokenStore

namespace Sessions

variable (cfg : SessionConfig)

def issueTokenPair (now : ℕ) (walletAddress familyId : String) (pair : NewPair) (s : Sessions) :
    Sessions :=
  let wallet := cfg.normalizeWalletAddress walletAddress
  { s with
    store := s.store.set now pair.refreshToken
      ⟨wallet,familyId,now/1000+cfg.refreshTtl,false⟩ cfg.refreshTtl
    issued := Function.update s.issued pair.refreshToken (some ⟨wallet,familyId⟩)
    access := Function.update s.access pair.accessToken
      (some ⟨wallet,now/1000+cfg.accessTtl,pair.refreshToken⟩) }

def setPhase (id : ℕ) (call : SessionCall) (phase : SessionPhase) (s : Sessions) : Sessions :=
  { s with calls := Function.update s.calls id (some { call with phase := phase }) }

def enter (now : ℕ) (token : String) (rotates : Bool) (s : Sessions) : Sessions :=
  let phase := match s.store.read cfg now token, rotates with
    | some entry, true => .asking entry
    | some entry, false => .revoking entry
    | none, true => .refused .notFound
    | none, false => .unknown
  { s with
    store := s.store.sweep cfg now token
    calls := Function.update s.calls s.next (some ⟨token,rotates,phase⟩)
    next := s.next+1 }

def advance (now id : ℕ) (pair : NewPair) (call : SessionCall) (s : Sessions) : Sessions :=
  match call.phase with
  | .asking entry => s.setPhase id call
      (.deciding entry (now/1000) (s.store.isFamilyRevoked cfg now entry.familyId))
  | .deciding entry at' familyRevoked =>
    if familyRevoked then
      { s.setPhase id call (.refused .sessionRevoked) with store := s.store.delete call.token }
    else if s.store.Seen cfg call.token entry then
      { s.setPhase id call (.invalidating entry) with
        store := s.store.revokeFamily cfg now entry.familyId }
    else if entry.expiresAt < at' then
      { s.setPhase id call (.refused .expired) with store := s.store.delete call.token }
    else
      { s.setPhase id call (.issuing entry) with
        store := s.store.mark now at' call.token entry }
  | .issuing entry =>
    (s.issueTokenPair cfg now entry.walletAddress entry.familyId pair).setPhase id call
      (.exchanged pair.refreshToken)
  | .invalidating entry =>
    { s.setPhase id call (.refused .replayed) with
      store := s.store.deleteFamily cfg now entry.familyId }
  | .revoking entry =>
    { s.setPhase id call (.erasing entry) with
      store := s.store.revokeFamily cfg now entry.familyId }
  | .erasing entry =>
    { s.setPhase id call (.deleting entry) with
      store := s.store.deleteFamily cfg now entry.familyId }
  | .deleting _ =>
    { s.setPhase id call .revoked with store := s.store.delete call.token }
  | _ => s

/-- The status of a logout, which depends on the access token alone. -/
def logoutStatus (now : ℕ) (accessToken : String) (s : Sessions) : ℕ :=
  match s.access accessToken with
  | none => 401
  | some claims => if claims.exp < now/1000 then 401 else if claims.sub = "" then 500 else 200

def sessionOf (accessToken : String) (s : Sessions) : Option String :=
  (s.access accessToken).bind fun claims =>
    (s.issued claims.refreshToken).map IssuedToken.familyId

def sessionsOfWallet (accessToken : String) (s : Sessions) : Set String :=
  { familyId | ∃ claims, s.access accessToken = some claims ∧ ∃ token info,
      s.issued token = some info ∧ info.walletAddress = claims.sub ∧ info.familyId = familyId }

def endedBy (event : SessionEvent) (s : Sessions) : Set String :=
  match event with
  | .logout after accessToken => { familyId |
      s.logoutStatus (s.clock+after) accessToken = 200 ∧ s.sessionOf accessToken = some familyId }
  | .logoutAll after accessToken => { familyId |
      s.logoutStatus (s.clock+after) accessToken = 200 ∧ familyId ∈ s.sessionsOfWallet accessToken }
  | _ => ∅

/-- One step. The handlers of the logouts answer and do nothing else. -/
def step (event : SessionEvent) (s : Sessions) : Sessions :=
  let now := s.clock+event.after
  let s := { s with clock := now, ended := s.ended ∪ s.endedBy event }
  match event with
  | .login _ walletAddress pair familyId => s.issueTokenPair cfg now walletAddress familyId pair
  | .rotate _ token => s.enter cfg now token true
  | .revoke _ token => s.enter cfg now token false
  | .advance _ id pair =>
    match s.calls id with
    | some call => s.advance cfg now id pair call
    | none => s
  | .logout _ _ | .logoutAll _ _ => s

def start (now : ℕ) : Sessions := { clock := now }

def runFrom (now : ℕ) (events : List SessionEvent) : Sessions :=
  Runs.run (step cfg) events (start now)

/-- The random strings are new: the refresh token has been neither issued nor presented, and
the access token has not been issued. -/
def NewTokens (s : Sessions) (pair : NewPair) : Prop :=
  s.issued pair.refreshToken = none ∧ s.access pair.accessToken = none ∧
    ∀ id call, s.calls id = some call → call.token ≠ pair.refreshToken

/-- The tokens that are drawn are new, and so is the family that a login draws; a call draws
none but for its last command. -/
def DrawsNew (s : Sessions) : SessionEvent → Prop
  | .login _ _ pair familyId => s.NewTokens pair ∧
      ∀ token info, s.issued token = some info → info.familyId ≠ familyId
  | .advance _ id pair => ∀ call entry, s.calls id = some call → call.phase = .issuing entry →
      s.NewTokens pair
  | _ => True

/-- What the next command of a call makes of its phase and the store. -/
inductive Moves (now : ℕ) (store : TokenStore) (call : SessionCall) :
    SessionPhase → TokenStore → Prop
  | asked (entry : RefreshTokenEntry) (phase : call.phase = .asking entry) :
      Moves now store call
        (.deciding entry (now/1000) (store.isFamilyRevoked cfg now entry.familyId)) store
  | turnedAway (entry : RefreshTokenEntry) (at' : ℕ) (phase : call.phase = .deciding entry at' true) :
      Moves now store call (.refused .sessionRevoked) (store.delete call.token)
  | detected (entry : RefreshTokenEntry) (at' : ℕ) (phase : call.phase = .deciding entry at' false)
      (seen : store.Seen cfg call.token entry) :
      Moves now store call (.invalidating entry) (store.revokeFamily cfg now entry.familyId)
  | late (entry : RefreshTokenEntry) (at' : ℕ) (phase : call.phase = .deciding entry at' false)
      (unseen : ¬ store.Seen cfg call.token entry) (expired : entry.expiresAt < at') :
      Moves now store call (.refused .expired) (store.delete call.token)
  | marked (entry : RefreshTokenEntry) (at' : ℕ) (phase : call.phase = .deciding entry at' false)
      (unseen : ¬ store.Seen cfg call.token entry) (inTime : at' ≤ entry.expiresAt) :
      Moves now store call (.issuing entry) (store.mark now at' call.token entry)
  | replayed (entry : RefreshTokenEntry) (phase : call.phase = .invalidating entry) :
      Moves now store call (.refused .replayed) (store.deleteFamily cfg now entry.familyId)
  | revoked (entry : RefreshTokenEntry) (phase : call.phase = .revoking entry) :
      Moves now store call (.erasing entry) (store.revokeFamily cfg now entry.familyId)
  | erased (entry : RefreshTokenEntry) (phase : call.phase = .erasing entry) :
      Moves now store call (.deleting entry) (store.deleteFamily cfg now entry.familyId)
  | deleted (entry : RefreshTokenEntry) (phase : call.phase = .deleting entry) :
      Moves now store call .revoked (store.delete call.token)

def arriveAt (event : SessionEvent) (s : Sessions) : Sessions :=
  { s with clock := s.clock+event.after, ended := s.ended ∪ s.endedBy event }

inductive Change (s : Sessions) (event : SessionEvent) : Sessions → Prop
  | idle : Change s event (s.arriveAt event)
  | loggedIn (after : ℕ) (walletAddress : String) (pair : NewPair) (familyId : String)
      (login : event = .login after walletAddress pair familyId) :
      Change s event ((s.arriveAt event).issueTokenPair cfg (s.clock+event.after) walletAddress
        familyId pair)
  | entered (after : ℕ) (token : String) (rotates : Bool)
      (enters : event = if rotates then .rotate after token else .revoke after token) :
      Change s event ((s.arriveAt event).enter cfg (s.clock+event.after) token rotates)
  | moved (after id : ℕ) (pair : NewPair) (call : SessionCall) (phase : SessionPhase)
      (store : TokenStore) (advance : event = .advance after id pair)
      (found : s.calls id = some call)
      (moves : Moves cfg (s.clock+event.after) s.store call phase store) :
      Change s event { (s.arriveAt event).setPhase id call phase with store := store }
  | issued (after id : ℕ) (pair : NewPair) (call : SessionCall) (entry : RefreshTokenEntry)
      (advance : event = .advance after id pair) (found : s.calls id = some call)
      (phase : call.phase = .issuing entry) :
      Change s event (((s.arriveAt event).issueTokenPair cfg (s.clock+event.after)
        entry.walletAddress entry.familyId pair).setPhase id call (.exchanged pair.refreshToken))

variable {cfg} {s : Sessions}

theorem change_advance {after id : ℕ} {pair : NewPair} {call : SessionCall}
    (found : s.calls id = some call) :
    Change cfg s (.advance after id pair) (advance cfg (s.clock+after) id pair call
      (s.arriveAt (.advance after id pair))) := by
  have hmoved : ∀ {phase store}, Moves cfg (s.clock+after) s.store call phase store →
      Change cfg s (.advance after id pair)
        { (s.arriveAt (.advance after id pair)).setPhase id call phase with store := store } :=
    fun moves => .moved after id pair call _ _ rfl found moves
  unfold advance
  split
  · next entry hphase => exact hmoved (.asked entry hphase)
  · next entry at' familyRevoked hphase =>
    split
    · next hrevoked =>
      subst hrevoked
      exact hmoved (.turnedAway entry at' hphase)
    · next hrevoked =>
      obtain rfl : familyRevoked = false := eq_false_of_ne_true hrevoked
      split
      · next hseen => exact hmoved (.detected entry at' hphase hseen)
      · next hseen =>
        split
        · next hexpired => exact hmoved (.late entry at' hphase hseen hexpired)
        · next hexpired => exact hmoved (.marked entry at' hphase hseen (not_lt.mp hexpired))
  · next entry hphase => exact .issued after id pair call entry rfl found hphase
  · next entry hphase => exact hmoved (.replayed entry hphase)
  · next entry hphase => exact hmoved (.revoked entry hphase)
  · next entry hphase => exact hmoved (.erased entry hphase)
  · next entry hphase => exact hmoved (.deleted entry hphase)
  · exact .idle

theorem change_step (cfg : SessionConfig) (s : Sessions) (event : SessionEvent) :
    Change cfg s event (step cfg event s) := by
  cases event with
  | login after walletAddress pair familyId => exact .loggedIn after walletAddress pair familyId rfl
  | rotate after token => exact .entered after token true rfl
  | revoke after token => exact .entered after token false rfl
  | advance after id pair =>
    cases found : s.calls id with
    | none =>
      simp only [step,found]
      exact .idle
    | some call =>
      simp only [step,found]
      exact change_advance found
  | logout after accessToken => exact .idle
  | logoutAll after accessToken => exact .idle

/-- Calls are numbered in the order in which they begin. -/
def Numbered (s : Sessions) : Prop := ∀ id, s.next ≤ id → s.calls id = none

theorem Numbered.setPhase (h : s.Numbered) {id : ℕ} {call : SessionCall}
    (found : s.calls id = some call) (phase : SessionPhase) :
    (s.setPhase id call phase).Numbered := by
  intro other hother
  have hnone := h other hother
  have hne : other ≠ id := by
    rintro rfl
    rw [hnone] at found
    cases found
  exact (Function.update_of_ne hne _ _).trans hnone

theorem Numbered.step (h : s.Numbered) (event : SessionEvent) : (step cfg event s).Numbered := by
  have hchange := change_step cfg s event
  revert hchange
  generalize Sessions.step cfg event s = t
  intro hchange
  have harrive : (s.arriveAt event).Numbered := h
  cases hchange with
  | idle => exact harrive
  | loggedIn after wallet pair familyId login => exact h
  | entered after token rotates enters =>
    intro id hid
    have hlt : s.next+1 ≤ id := hid
    have hne : id ≠ s.next := by omega
    exact (Function.update_of_ne hne _ _).trans (h id (by omega))
  | moved after id pair call phase store advance found moves =>
    exact harrive.setPhase found phase
  | issued after id pair call entry advance found hphase =>
    exact harrive.setPhase found (.exchanged pair.refreshToken)

theorem numbered_runFrom (cfg : SessionConfig) (now : ℕ) (events : List SessionEvent) :
    (runFrom cfg now events).Numbered := by
  have hstart : (start now).Numbered := fun _ _ => rfl
  exact Runs.invariant (fun _ event h => h.step event) events hstart

end Sessions

end YieldVault.Backend
