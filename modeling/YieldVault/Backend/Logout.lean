import YieldVault.Backend.Idempotency
import YieldVault.Backend.RefreshTokens

/-! Logouts. Their handlers revoke nothing, so that a session ends with a logout only if
there was nothing left of it. -/
namespace YieldVault.Backend

/-- The entry that a rotation has read and has not yet accepted. -/
def SessionPhase.checking : SessionPhase → Option RefreshTokenEntry
  | .asking entry | .deciding entry _ _ => some entry
  | _ => none

/-- Nothing is left of a session: each stored token is used or has expired, no rotation is
about to accept one, and none is about to issue one. -/
structure Settled (cfg : SessionConfig) (now : ℕ) (familyId : String) (store : TokenStore)
    (calls : ℕ → Option SessionCall) : Prop where
  stored : ∀ token stored, store.tokens token = some stored → stored.entry.familyId = familyId →
    TokenStore.Live cfg now stored → store.Seen cfg token stored.entry
  checking : ∀ id call entry, calls id = some call → call.phase.checking = some entry →
    entry.familyId = familyId → store.Seen cfg call.token entry
  issuing : ∀ id call entry, calls id = some call → call.phase = .issuing entry →
    entry.familyId ≠ familyId

section Settled

variable {cfg : SessionConfig} {now now' : ℕ} {familyId : String} {store store' : TokenStore}
  {calls : ℕ → Option SessionCall}

theorem TokenStore.Live.earlier {stored : StoredToken} (h : Live cfg now' stored)
    (hnow : now ≤ now') : Live cfg now stored := by
  unfold Live at h ⊢
  cases hkind : cfg.kind with
  | memory =>
    rw [hkind] at h
    exact (Nat.div_le_div_right hnow).trans h
  | redis =>
    rw [hkind] at h
    exact hnow.trans_lt h

theorem TokenStore.Seen.mono {token : String} {entry : RefreshTokenEntry}
    (h : store.Seen cfg token entry)
    (hmarked : ∀ token, store.marked token = true → store'.marked token = true) :
    store'.Seen cfg token entry := by
  unfold Seen at h ⊢
  cases hkind : cfg.kind with
  | memory =>
    rw [hkind] at h
    exact hmarked token h
  | redis =>
    rw [hkind] at h
    exact h

theorem TokenStore.read_eq_some {token : String} {entry : RefreshTokenEntry}
    (h : store.read cfg now token = some entry) :
    ∃ stored, store.tokens token = some stored ∧ Live cfg now stored ∧ stored.entry = entry := by
  unfold read at h
  split at h
  · next stored hstored =>
    split_ifs at h with hlive
    exact ⟨stored,hstored,hlive,Option.some.inj h⟩
  · cases h

theorem Settled.later (h : Settled cfg now familyId store calls) (hnow : now ≤ now') :
    Settled cfg now' familyId store calls :=
  ⟨fun token stored hstored hfamily hlive => h.stored token stored hstored hfamily
    (hlive.earlier hnow),h.checking,h.issuing⟩

theorem Settled.restore (h : Settled cfg now familyId store calls)
    (hsub : ∀ token stored, store'.tokens token = some stored →
      stored.entry.familyId = familyId → store.tokens token = some stored)
    (hmarked : ∀ token, store.marked token = true → store'.marked token = true) :
    Settled cfg now familyId store' calls := by
  refine ⟨?_,?_,h.issuing⟩
  · intro token stored hstored hfamily hlive
    exact (h.stored token stored (hsub token stored hstored hfamily) hfamily hlive).mono hmarked
  · intro id call entry hcall hchecking hfamily
    exact (h.checking id call entry hcall hchecking hfamily).mono hmarked

/-- A call that sees a mark on what it has read of the family, and issues none of it. -/
theorem Settled.call (h : Settled cfg now familyId store calls) {call : SessionCall}
    (hchecking : ∀ entry, call.phase.checking = some entry → entry.familyId = familyId →
      store.Seen cfg call.token entry)
    (hissuing : ∀ entry, call.phase = .issuing entry → entry.familyId ≠ familyId) (id : ℕ) :
    Settled cfg now familyId store (Function.update calls id (some call)) := by
  refine ⟨h.stored,?_,?_⟩
  · intro other call' entry hcall
    rcases update_eq_some.mp hcall with ⟨rfl,⟨⟩⟩ | ⟨-,hold⟩
    · exact hchecking entry
    · exact h.checking other call' entry hold
  · intro other call' entry hcall
    rcases update_eq_some.mp hcall with ⟨rfl,⟨⟩⟩ | ⟨-,hold⟩
    · exact hissuing entry
    · exact h.issuing other call' entry hold

theorem Settled.done (h : Settled cfg now familyId store calls) {call : SessionCall}
    (hchecking : call.phase.checking = none) (hissuing : ∀ entry, call.phase ≠ .issuing entry)
    (id : ℕ) : Settled cfg now familyId store (Function.update calls id (some call)) := by
  refine h.call ?_ (fun entry hphase => absurd hphase (hissuing entry)) id
  intro entry hentry
  rw [hchecking] at hentry
  cases hentry

theorem tokens_set {token other : String} {entry : RefreshTokenEntry} {ttl : ℕ}
    {stored : StoredToken} (h : (store.set now token entry ttl).tokens other = some stored)
    (hfamily : stored.entry.familyId = familyId) (hentry : entry.familyId ≠ familyId) :
    store.tokens other = some stored := by
  rcases update_eq_some.mp h with ⟨rfl,⟨⟩⟩ | ⟨-,hold⟩
  · exact absurd hfamily hentry
  · exact hold

theorem tokens_delete {token other : String} {stored : StoredToken}
    (h : (store.delete token).tokens other = some stored) : store.tokens other = some stored := by
  rcases update_eq_some.mp h with ⟨-,hnone⟩ | ⟨-,hold⟩
  · cases hnone
  · exact hold

theorem tokens_sweep {token other : String} {stored : StoredToken}
    (h : (store.sweep cfg now token).tokens other = some stored) :
    store.tokens other = some stored := by
  unfold TokenStore.sweep at h
  split_ifs at h
  · exact tokens_delete h
  · exact h

theorem marked_sweep (token : String) : (store.sweep cfg now token).marked = store.marked := by
  unfold TokenStore.sweep
  split_ifs <;> rfl

theorem tokens_deleteFamily {family other : String} {stored : StoredToken}
    (h : (store.deleteFamily cfg now family).tokens other = some stored) :
    store.tokens other = some stored := by
  unfold TokenStore.deleteFamily at h
  split at h
  · exact (Option.filter_eq_some_iff.mp h).1
  · exact h

theorem marked_deleteFamily (family : String) :
    (store.deleteFamily cfg now family).marked = store.marked := by
  unfold TokenStore.deleteFamily
  split <;> rfl

theorem Settled.moves (h : Settled cfg now familyId store calls) {id : ℕ} {call : SessionCall}
    (hcall : calls id = some call) {phase : SessionPhase}
    (hmoves : Sessions.Moves cfg now store call phase store') :
    Settled cfg now familyId store'
      (Function.update calls id (some { call with phase := phase })) := by
  have hkept := h.checking id call
  have hdelete : Settled cfg now familyId (store.delete call.token) calls :=
    h.restore (fun _ _ h _ => tokens_delete h) fun _ h => h
  have hrevoke : ∀ family, Settled cfg now familyId (store.revokeFamily cfg now family) calls :=
    fun _ => h.restore (fun _ _ h _ => h) fun _ h => h
  have herase : ∀ family, Settled cfg now familyId (store.deleteFamily cfg now family) calls :=
    fun family => h.restore (fun _ _ h _ => tokens_deleteFamily h)
      fun token h => (congrFun (marked_deleteFamily family) token).trans h
  cases hmoves with
  | asked entry hphase =>
    refine h.call ?_ (by rintro _ ⟨⟩) id
    rintro _ ⟨⟩ hfamily
    exact hkept entry hcall (by rw [hphase]; rfl) hfamily
  | turnedAway entry at' hphase => exact hdelete.done rfl (by rintro _ ⟨⟩) id
  | detected entry at' hphase seen => exact (hrevoke _).done rfl (by rintro _ ⟨⟩) id
  | late entry at' hphase unseen expired => exact hdelete.done rfl (by rintro _ ⟨⟩) id
  | marked entry at' hphase unseen inTime =>
    have hother : entry.familyId ≠ familyId := fun hfamily =>
      unseen (hkept entry hcall (by rw [hphase]; rfl) hfamily)
    have hmark : Settled cfg now familyId (store.mark now at' call.token entry) calls := by
      refine h.restore ?_ ?_
      · intro token stored hstored hfamily
        rcases update_eq_some.mp hstored with ⟨rfl,⟨⟩⟩ | ⟨-,hold⟩
        · exact absurd hfamily hother
        · exact hold
      · intro token htoken
        by_cases heq : token = call.token
        · rw [heq]
          exact Function.update_self _ _ _
        · exact (Function.update_of_ne heq _ _).trans htoken
    refine hmark.call (by rintro _ ⟨⟩) ?_ id
    rintro _ ⟨⟩
    exact hother
  | replayed entry hphase => exact (herase _).done rfl (by rintro _ ⟨⟩) id
  | revoked entry hphase => exact (hrevoke _).done rfl (by rintro _ ⟨⟩) id
  | erased entry hphase => exact (herase _).done rfl (by rintro _ ⟨⟩) id
  | deleted entry hphase => exact hdelete.done rfl (by rintro _ ⟨⟩) id

end Settled

namespace Sessions

/-- Where a logout is answered with 200, nothing is left of the sessions that it is to end. -/
def NothingLeft (cfg : SessionConfig) (s : Sessions) (event : SessionEvent) : Prop :=
  ∀ familyId ∈ s.endedBy event,
    Settled cfg (s.clock+event.after) familyId s.store s.calls

/-- A refresh that succeeds is one of a session that no logout was to end, and a logout
changes nothing about the sessions of other wallets. -/
structure LogoutsEnd (cfg : SessionConfig) (s : Sessions) (event : SessionEvent) : Prop where
  refused : ∀ after id pair call entry, event = .advance after id pair →
    s.calls id = some call → call.phase = .issuing entry → entry.familyId ∉ s.ended
  others : ∀ after accessToken,
    event = .logout after accessToken ∨ event = .logoutAll after accessToken →
    (∀ claims token info, s.access accessToken = some claims → s.issued token = some info →
      info.walletAddress ≠ claims.sub →
      (step cfg event s).store.tokens token = s.store.tokens token ∧
      (step cfg event s).store.revokedFamilies info.familyId =
        s.store.revokedFamilies info.familyId) ∧
    (step cfg event s).calls = s.calls

structure EndedSettled (cfg : SessionConfig) (s : Sessions) : Prop where
  settled : ∀ familyId ∈ s.ended, Settled cfg s.clock familyId s.store s.calls
  known : ∀ familyId ∈ s.ended, ∃ token info, s.issued token = some info ∧
    info.familyId = familyId

variable {cfg : SessionConfig} {s : Sessions}

theorem known_of_endedBy {event : SessionEvent} {familyId : String}
    (h : familyId ∈ s.endedBy event) :
    ∃ token info, s.issued token = some info ∧ info.familyId = familyId := by
  cases event with
  | logout after accessToken =>
    obtain ⟨-,hsession⟩ := h
    obtain ⟨claims,-,hclaims⟩ := Option.bind_eq_some_iff.mp hsession
    obtain ⟨info,hinfo,hfamily⟩ := Option.map_eq_some_iff.mp hclaims
    exact ⟨claims.refreshToken,info,hinfo,hfamily⟩
  | logoutAll after accessToken =>
    obtain ⟨-,-,-,token,info,hinfo,-,hfamily⟩ := h
    exact ⟨token,info,hinfo,hfamily⟩
  | _ => cases h

theorem EndedSettled.arriveAt (h : EndedSettled cfg s) {event : SessionEvent}
    (hleft : NothingLeft cfg s event) : EndedSettled cfg (s.arriveAt event) := by
  refine ⟨?_,?_⟩
  · rintro familyId (hold | hnew)
    · exact (h.settled familyId hold).later (Nat.le_add_right _ _)
    · exact hleft familyId hnew
  · rintro familyId (hold | hnew)
    · exact h.known familyId hold
    · exact known_of_endedBy (s := s) hnew

/-- A pair of tokens is issued in a family that was not to end. -/
theorem EndedSettled.issueTokenPair (h : EndedSettled cfg s) (wallet : String)
    {familyId : String} {pair : NewPair} (hnew : s.NewTokens pair) (hfamily : familyId ∉ s.ended) :
    EndedSettled cfg (s.issueTokenPair cfg s.clock wallet familyId pair) := by
  refine ⟨?_,?_⟩
  · intro ended hended
    have hne : familyId ≠ ended := by
      rintro rfl
      exact hfamily hended
    exact (h.settled ended hended).restore (fun _ _ hset hsame => tokens_set hset hsame hne)
      fun _ hmarked => hmarked
  · intro ended hended
    obtain ⟨token,info,hinfo,hsame⟩ := h.known ended hended
    have hold : token ≠ pair.refreshToken := by
      rintro rfl
      rw [hnew.1] at hinfo
      cases hinfo
    exact ⟨token,info,(Function.update_of_ne hold _ _).trans hinfo,hsame⟩

theorem EndedSettled.enter (h : EndedSettled cfg s) (token : String) (rotates : Bool) :
    EndedSettled cfg (s.enter cfg s.clock token rotates) := by
  refine ⟨?_,h.known⟩
  intro familyId hended
  have hsettled := h.settled familyId hended
  have hsweep : Settled cfg s.clock familyId (s.store.sweep cfg s.clock token) s.calls :=
    hsettled.restore (fun _ _ hsweep _ => tokens_sweep hsweep)
      fun other hmarked => (congrFun (marked_sweep token) other).trans hmarked
  unfold Sessions.enter
  dsimp only
  cases hread : s.store.read cfg s.clock token with
  | none =>
    cases rotates with
    | true => exact hsweep.done rfl (by rintro _ ⟨⟩) _
    | false => exact hsweep.done rfl (by rintro _ ⟨⟩) _
  | some entry =>
    cases rotates with
    | true =>
      refine hsweep.call ?_ (by rintro _ ⟨⟩) _
      rintro _ ⟨⟩ hfamily
      obtain ⟨stored,hstored,hlive,rfl⟩ := TokenStore.read_eq_some hread
      exact (hsettled.stored token stored hstored hfamily hlive).mono
        fun other hmarked => (congrFun (marked_sweep token) other).trans hmarked
    | false => exact hsweep.done rfl (by rintro _ ⟨⟩) _

theorem EndedSettled.step (h : EndedSettled cfg s) {event : SessionEvent}
    (hnew : DrawsNew s event) (hleft : NothingLeft cfg s event) :
    EndedSettled cfg (step cfg event s) := by
  have harrive := h.arriveAt hleft
  have hchange := change_step cfg s event
  revert hchange
  generalize Sessions.step cfg event s = t
  intro hchange
  cases hchange with
  | idle => exact harrive
  | loggedIn after wallet pair familyId login =>
    subst login
    refine harrive.issueTokenPair wallet hnew.1 fun hended => ?_
    obtain ⟨token,info,hinfo,hfamily⟩ := harrive.known familyId hended
    exact hnew.2 token info hinfo hfamily
  | entered after token rotates enters => exact harrive.enter token rotates
  | moved after id pair call phase store advance found moves =>
    exact ⟨fun familyId hended => (harrive.settled familyId hended).moves found moves,harrive.known⟩
  | issued after id pair call entry advance found hphase =>
    subst advance
    have hfamily : entry.familyId ∉ (s.arriveAt (.advance after id pair)).ended := fun hended =>
      (harrive.settled _ hended).issuing id call entry found hphase rfl
    have hissued := harrive.issueTokenPair entry.walletAddress
      (hnew call entry found hphase) hfamily
    exact ⟨fun familyId hended => (hissued.settled familyId hended).done rfl (by rintro _ ⟨⟩) id,
      hissued.known⟩

theorem EndedSettled.logoutsEnd (h : EndedSettled cfg s) (event : SessionEvent) :
    LogoutsEnd cfg s event := by
  refine ⟨?_,?_⟩
  · rintro after id pair call entry rfl found hphase hended
    exact (h.settled _ hended).issuing id call entry found hphase rfl
  · rintro after accessToken (rfl | rfl)
    · exact ⟨fun _ _ _ _ _ _ => ⟨rfl,rfl⟩,rfl⟩
    · exact ⟨fun _ _ _ _ _ _ => ⟨rfl,rfl⟩,rfl⟩

/-- Where each logout comes when nothing is left of the sessions that it is to end, no
refresh of theirs succeeds after its answer. -/
theorem logouts_end (cfg : SessionConfig) (now : ℕ) (events : List SessionEvent)
    (hnew : Runs.Along (step cfg) DrawsNew (start now) events)
    (hleft : Runs.Along (step cfg) (NothingLeft cfg) (start now) events) :
    Runs.Along (step cfg) (LogoutsEnd cfg) (start now) events := by
  have hstart : EndedSettled cfg (start now) := ⟨by rintro _ ⟨⟩,by rintro _ ⟨⟩⟩
  have hkeep : ∀ s event, EndedSettled cfg s → DrawsNew s event ∧ NothingLeft cfg s event →
      EndedSettled cfg (step cfg event s) := fun _ _ h hguard => h.step hguard.1 hguard.2
  exact (hnew.and hleft).of_invariant hkeep (fun _ event h _ => h.logoutsEnd event) hstart

section Demo

def memorySessions : SessionConfig where
  kind := .memory
  normalizeWalletAddress := fun wallet => wallet

def alicePair : NewPair := ⟨"access token","refresh token"⟩

def aliceLogin : SessionEvent := .login 0 "alice" alicePair "family"

theorem aliceLogin_new : DrawsNew (start 0) aliceLogin :=
  ⟨⟨rfl,rfl,by rintro _ _ ⟨⟩⟩,by rintro _ _ ⟨⟩⟩

def revokedFirst : List SessionEvent :=
  [aliceLogin,.revoke 0 "refresh token",.advance 0 0 ⟨"",""⟩,.advance 0 0 ⟨"",""⟩,
    .advance 0 0 ⟨"",""⟩,.logout 0 "access token",.rotate 0 "refresh token"]

def refreshedAfter : List SessionEvent :=
  [aliceLogin,.logout 0 "access token",.rotate 0 "refresh token",.advance 0 0 ⟨"",""⟩,
    .advance 0 0 ⟨"",""⟩,.advance 0 0 ⟨"second access token","second refresh token"⟩]

/-- A call draws nothing before its last command. -/
theorem drawsNew_of_phase {id after : ℕ} {pair : NewPair} {call : SessionCall}
    (hcall : s.calls id = some call) (hphase : ∀ entry, call.phase ≠ .issuing entry) :
    DrawsNew s (.advance after id pair) := by
  intro call' entry hcall' hissuing
  obtain rfl := Option.some.inj (hcall.symm.trans hcall')
  exact absurd hissuing (hphase entry)

theorem revokedFirst_end :
    Runs.Along (step memorySessions) (LogoutsEnd memorySessions) (start 0) revokedFirst := by
  have hnone : ∀ {s : Sessions} {event : SessionEvent}, s.endedBy event = ∅ →
      NothingLeft memorySessions s event := by
    intro s event hempty familyId hended
    rw [hempty] at hended
    cases hended
  refine logouts_end memorySessions 0 revokedFirst ?_ ?_
  · exact ⟨aliceLogin_new,trivial,drawsNew_of_phase rfl (by rintro _ ⟨⟩),
      drawsNew_of_phase rfl (by rintro _ ⟨⟩),drawsNew_of_phase rfl (by rintro _ ⟨⟩),
      trivial,trivial,trivial⟩
  · refine ⟨hnone rfl,hnone rfl,hnone rfl,hnone rfl,hnone rfl,?_,hnone rfl,trivial⟩
    intro familyId _
    have hrun := numbered_runFrom memorySessions 0 (revokedFirst.take 5)
    have hrevoked : ∀ id call, (runFrom memorySessions 0 (revokedFirst.take 5)).calls id =
        some call → call.phase = .revoked := by
      intro id call hcall
      rcases Nat.eq_zero_or_pos id with rfl | hpos
      · obtain rfl := Option.some.inj hcall
        rfl
      · rw [hrun id hpos] at hcall
        cases hcall
    refine ⟨?_,?_,?_⟩
    · intro token stored hstored
      rcases update_eq_some.mp hstored with ⟨-,⟨⟩⟩ | ⟨hne,hold⟩
      obtain ⟨hlogin,-⟩ := Option.filter_eq_some_iff.mp hold
      rcases update_eq_some.mp hlogin with ⟨hsame,-⟩ | ⟨-,⟨⟩⟩
      exact absurd hsame hne
    · intro id call entry hcall hchecking
      rw [hrevoked id call hcall] at hchecking
      cases hchecking
    · intro id call entry hcall hissuing
      rw [hrevoked id call hcall] at hissuing
      cases hissuing

theorem refreshedAfter_accepted : ¬ ∀ (cfg : SessionConfig) (now : ℕ) (events : List SessionEvent),
    Runs.Along (step cfg) DrawsNew (start now) events →
    Runs.Along (step cfg) (LogoutsEnd cfg) (start now) events := by
  intro h
  have hrun := numbered_runFrom memorySessions 0 (refreshedAfter.take 5)
  have hlastNew : NewTokens (runFrom memorySessions 0 (refreshedAfter.take 5))
      ⟨"second access token","second refresh token"⟩ := by
    refine ⟨by decide,by decide,?_⟩
    intro id call hcall
    rcases Nat.eq_zero_or_pos id with rfl | hpos
    · obtain rfl := Option.some.inj hcall
      decide
    · rw [hrun id hpos] at hcall
      cases hcall
  have hnew : Runs.Along (step memorySessions) DrawsNew (start 0) refreshedAfter :=
    ⟨aliceLogin_new,trivial,trivial,drawsNew_of_phase rfl (by rintro _ ⟨⟩),
      drawsNew_of_phase rfl (by rintro _ ⟨⟩),fun _ _ _ _ => hlastNew,trivial⟩
  have hends := h memorySessions 0 refreshedAfter hnew
  have hlast := hends.2.2.2.2.2.1.refused 0 0 _ _ ⟨"alice","family",604800,false⟩ rfl rfl rfl
  exact hlast (Or.inl (Or.inl (Or.inl (Or.inr ⟨by decide,rfl⟩))))

end Demo

end Sessions

end YieldVault.Backend
