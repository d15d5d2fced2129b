import YieldVault.Backend.Logout

/-! The rotation of refresh tokens. A token is exchanged at most once, and a family that has
been closed, by a second presentation or a revocation, gives out no more tokens, if the
calls on one family come one at a time and find their tokens alive. -/
namespace YieldVault.Backend

def SessionPhase.held : SessionPhase → Option RefreshTokenEntry
  | .asking entry | .deciding entry _ _ | .issuing entry | .invalidating entry
  | .revoking entry | .erasing entry | .deleting entry => some entry
  | _ => none

def SessionPhase.rotates : SessionPhase → Bool
  | .revoking _ | .erasing _ | .deleting _ | .revoked | .unknown => false
  | _ => true

theorem SessionPhase.held_of_checking {phase : SessionPhase} {entry : RefreshTokenEntry}
    (h : phase.checking = some entry) : phase.held = some entry := by
  cases phase with
  | asking e => exact h
  | deciding e at' familyRevoked => exact h
  | _ => cases h

namespace Sessions

def Presented (s : Sessions) (id : ℕ) (token : String) : Prop :=
  ∃ call, s.calls id = some call ∧ call.rotates = true ∧ call.token = token

/-- A token of the family has been presented twice, or given to `revokeCurrentSession`. -/
def Closed (s : Sessions) (familyId : String) : Prop :=
  (∃ token info i j, s.issued token = some info ∧ info.familyId = familyId ∧ i ≠ j ∧
      s.Presented i token ∧ s.Presented j token) ∨
    ∃ id call info, s.calls id = some call ∧ call.rotates = false ∧
      s.issued call.token = some info ∧ info.familyId = familyId

/-- A rotation that succeeds is of a family that is not closed, and the only one of its
token. -/
structure RotatesOnce (s : Sessions) (event : SessionEvent) : Prop where
  notClosed : ∀ after id pair call entry, event = .advance after id pair →
    s.calls id = some call → call.phase = .issuing entry → ¬ s.Closed entry.familyId
  once : ∀ after id pair call entry, event = .advance after id pair →
    s.calls id = some call → call.phase = .issuing entry → ∀ other call' newToken, other ≠ id →
      s.calls other = some call' → call'.token = call.token → call'.phase ≠ .exchanged newToken

def Quiet (s : Sessions) (familyId : String) : Prop :=
  ∀ id call entry, s.calls id = some call → call.phase.held = some entry →
    entry.familyId ≠ familyId

/-- A call begins on a family when no other is under way; it finds the token that it revokes,
or that has been presented before, unless the family is revoked already; and where it is, a
rotation asks Redis for the mark of the family before its token expires. -/
def OneAtATime (cfg : SessionConfig) (s : Sessions) : SessionEvent → Prop
  | .rotate after token => ∀ info, s.issued token = some info → s.Quiet info.familyId ∧
      ((∃ id, s.Presented id token) → s.store.read cfg (s.clock+after) token ≠ none ∨
        s.store.revokedFamilies info.familyId ≠ none)
  | .revoke after token => ∀ info, s.issued token = some info → s.Quiet info.familyId ∧
      (s.store.read cfg (s.clock+after) token ≠ none ∨
        s.store.revokedFamilies info.familyId ≠ none)
  | .advance after id _ => ∀ call entry, s.calls id = some call → call.phase = .asking entry →
      cfg.kind = .redis → s.store.revokedFamilies entry.familyId ≠ none →
      ∃ stored, s.store.tokens call.token = some stored ∧
        TokenStore.Live cfg (s.clock+after) stored
  | _ => True

def Closing (store : TokenStore) (call : SessionCall) : Prop :=
  (∃ entry, call.phase.checking = some entry) ∧ store.marked call.token = true ∨
    ∃ entry, call.phase = .revoking entry

/-- The stored tokens, and how they stand to the marks. -/
structure TokensAgree (cfg : SessionConfig) (s : Sessions) : Prop where
  known : ∀ token stored, s.store.tokens token = some stored →
    ∃ info, s.issued token = some info ∧ info.familyId = stored.entry.familyId
  agree : ∀ token stored, s.store.tokens token = some stored →
    stored.entry.revoked = s.store.marked token
  window : ∀ token stored, s.store.tokens token = some stored → s.store.marked token = false →
    stored.livetime ≤ s.clock+cfg.refreshTtl*1000
  covered : ∀ token stored livetime, s.store.tokens token = some stored →
    s.store.marked token = false →
    s.store.revokedFamilies stored.entry.familyId = some livetime → stored.livetime ≤ livetime

/-- The entries that the calls hold. -/
structure EntriesAgree (s : Sessions) : Prop where
  held : ∀ id call entry, s.calls id = some call → call.phase.held = some entry →
    ∃ info, s.issued call.token = some info ∧ info.familyId = entry.familyId
  kinds : ∀ id call, s.calls id = some call → call.phase.rotates = call.rotates
  checked : ∀ id call entry, s.calls id = some call → call.phase.checking = some entry →
    entry.revoked = s.store.marked call.token
  sole : ∀ i j call call' entry entry', s.calls i = some call → s.calls j = some call' →
    call.phase.held = some entry → call'.phase.held = some entry' →
    entry.familyId = entry'.familyId → i = j

/-- What the calls have found out about their families. -/
structure Decided (s : Sessions) : Prop where
  decidedYes : ∀ id call entry at', s.calls id = some call →
    call.phase = .deciding entry at' true → s.store.revokedFamilies entry.familyId ≠ none
  decidedNo : ∀ id call entry at', s.calls id = some call →
    call.phase = .deciding entry at' false →
    s.store.revokedFamilies entry.familyId = none ∨ s.store.marked call.token = true
  issuing : ∀ id call entry, s.calls id = some call → call.phase = .issuing entry →
    s.store.revokedFamilies entry.familyId = none ∧ s.store.marked call.token = true
  invalidated : ∀ id call entry, s.calls id = some call → call.phase = .invalidating entry →
    s.store.revokedFamilies entry.familyId ≠ none

/-- The marks that the presented tokens and the closed families have left. -/
structure Closings (cfg : SessionConfig) (s : Sessions) : Prop where
  spent : ∀ id call info, s.calls id = some call → call.rotates = true →
    call.phase.held = none → s.issued call.token = some info →
    s.store.marked call.token = true ∨ s.store.revokedFamilies info.familyId ≠ none ∨
      ∀ stored, s.store.tokens call.token = some stored → ¬ TokenStore.Live cfg s.clock stored
  closing : ∀ familyId, s.Closed familyId → s.store.revokedFamilies familyId ≠ none ∨
    ∃ id call entry, s.calls id = some call ∧ call.phase.held = some entry ∧
      entry.familyId = familyId ∧ Closing s.store call
  markers : ∀ familyId, s.store.revokedFamilies familyId ≠ none →
    ∃ token info, s.issued token = some info ∧ info.familyId = familyId
  marks : ∀ token, s.store.marked token = true →
    ∃ id call, s.calls id = some call ∧ call.token = token

structure Guarded (cfg : SessionConfig) (s : Sessions) : Prop extends
    TokensAgree cfg s, EntriesAgree s, Decided s, Closings cfg s where
  numbered : s.Numbered

variable {cfg : SessionConfig} {s : Sessions}

theorem guarded_start (now : ℕ) : Guarded cfg (start now) where
  numbered := fun _ _ => rfl
  known := by rintro _ _ ⟨⟩
  agree := by rintro _ _ ⟨⟩
  held := by rintro _ _ _ ⟨⟩
  kinds := by rintro _ _ ⟨⟩
  checked := by rintro _ _ _ ⟨⟩
  sole := by rintro _ _ _ _ _ _ ⟨⟩
  window := by rintro _ _ ⟨⟩
  covered := by rintro _ _ _ ⟨⟩
  decidedYes := by rintro _ _ _ _ ⟨⟩
  decidedNo := by rintro _ _ _ _ ⟨⟩
  issuing := by rintro _ _ _ ⟨⟩
  invalidated := by rintro _ _ _ ⟨⟩
  spent := by rintro _ _ _ ⟨⟩
  closing := by
    rintro familyId (⟨_,_,_,_,⟨⟩,-⟩ | ⟨_,_,_,⟨⟩,-⟩)
  markers := fun _ h => absurd rfl h
  marks := by rintro _ ⟨⟩

theorem Guarded.notClosed (h : Guarded cfg s) {id : ℕ} {call : SessionCall}
    {entry : RefreshTokenEntry} (found : s.calls id = some call)
    (hphase : call.phase = .issuing entry) : ¬ s.Closed entry.familyId := by
  intro hclosed
  have hheld : call.phase.held = some entry := by rw [hphase]; rfl
  rcases h.closing _ hclosed with hrevoked | ⟨other,call',entry',found',hheld',hfamily,hclosing⟩
  · exact hrevoked (h.issuing id call entry found hphase).1
  · obtain rfl := h.sole other id call' call entry' entry found' found hheld' hheld hfamily
    obtain rfl := Option.some.inj (found.symm.trans found')
    rcases hclosing with ⟨⟨entry'',hchecking⟩,-⟩ | ⟨entry'',hrevoking⟩
    · rw [hphase] at hchecking
      cases hchecking
    · rw [hphase] at hrevoking
      cases hrevoking

theorem Guarded.rotatesOnce (h : Guarded cfg s) (event : SessionEvent) : s.RotatesOnce event := by
  refine ⟨?_,?_⟩
  · rintro after id pair call entry - found hphase
    exact h.notClosed found hphase
  · rintro after id pair call entry - found hphase other call' newToken hne found' htoken hexchanged
    obtain ⟨info,hissued,hfamily⟩ := h.held id call entry found (by rw [hphase]; rfl)
    have hrotates : call.rotates = true := by rw [← h.kinds id call found,hphase]; rfl
    have hrotates' : call'.rotates = true := by rw [← h.kinds other call' found',hexchanged]; rfl
    have hclosed : s.Closed entry.familyId := Or.inl ⟨call.token,info,other,id,hissued,hfamily,hne,
      ⟨call',found',hrotates',htoken⟩,⟨call,found,hrotates,rfl⟩⟩
    exact h.notClosed found hphase hclosed

theorem Guarded.later (h : Guarded cfg s) (event : SessionEvent) :
    Guarded cfg (s.arriveAt event) :=
  { h with
    window := fun token stored hstored hmarked =>
      (h.window token stored hstored hmarked).trans
        (Nat.add_le_add_right (Nat.le_add_right _ _) _)
    spent := by
      intro id call info found hrotates hheld hissued
      rcases h.spent id call info found hrotates hheld hissued with hmarked | hrevoked | hdead
      · exact Or.inl hmarked
      · exact Or.inr (Or.inl hrevoked)
      · refine Or.inr (Or.inr fun stored hstored hlive => hdead stored hstored ?_)
        exact hlive.earlier (Nat.le_add_right _ _) }

/-- What a command of a call on the family of its entry may do. -/
structure Goes (cfg : SessionConfig) (s : Sessions) (call : SessionCall)
    (entry : RefreshTokenEntry) (phase : SessionPhase) (store : TokenStore) : Prop where
  tokens : ∀ token stored, store.tokens token = some stored →
    s.store.tokens token = some stored ∧ store.marked token = s.store.marked token ∨
      token = call.token ∧ stored.entry.familyId = entry.familyId ∧
      stored.entry.revoked = true ∧ store.marked token = true
  marked : ∀ token, store.marked token = s.store.marked token ∨
    token = call.token ∧ store.marked token = true
  families : ∀ familyId, store.revokedFamilies familyId = s.store.revokedFamilies familyId ∨
    familyId = entry.familyId ∧
      store.revokedFamilies familyId = some (s.clock+cfg.refreshTtl*1000)
  held : ∀ entry', phase.held = some entry' → entry' = entry
  kind : phase.rotates = call.phase.rotates
  checked : ∀ entry', phase.checking = some entry' → entry'.revoked = store.marked call.token
  decidedYes : ∀ entry' at', phase = .deciding entry' at' true →
    store.revokedFamilies entry'.familyId ≠ none
  decidedNo : ∀ entry' at', phase = .deciding entry' at' false →
    store.revokedFamilies entry'.familyId = none ∨ store.marked call.token = true
  issuing : ∀ entry', phase = .issuing entry' →
    store.revokedFamilies entry'.familyId = none ∧ store.marked call.token = true
  invalidated : ∀ entry', phase = .invalidating entry' →
    store.revokedFamilies entry'.familyId ≠ none
  spent : phase.held = none → call.rotates = true → store.marked call.token = true ∨
    store.revokedFamilies entry.familyId ≠ none ∨
    ∀ stored, store.tokens call.token = some stored → ¬ TokenStore.Live cfg s.clock stored
  closing : Closing s.store call → store.revokedFamilies entry.familyId ≠ none ∨
    Closing store { call with phase := phase }

section Goes

variable {call : SessionCall} {entry : RefreshTokenEntry} {phase : SessionPhase}
  {store : TokenStore} {id : ℕ}

theorem Goes.revoked_mono (h : Goes cfg s call entry phase store) {familyId : String}
    (hrevoked : s.store.revokedFamilies familyId ≠ none) :
    store.revokedFamilies familyId ≠ none := by
  rcases h.families familyId with hsame | ⟨-,hnew⟩
  · rw [hsame]
    exact hrevoked
  · rw [hnew]
    exact Option.some_ne_none _

theorem Goes.marked_mono (h : Goes cfg s call entry phase store) {token : String}
    (hmarked : s.store.marked token = true) : store.marked token = true := by
  rcases h.marked token with hsame | ⟨-,hnew⟩
  · exact hsame.trans hmarked
  · exact hnew

theorem Goes.unmarked (h : Goes cfg s call entry phase store) {token : String}
    (hunmarked : store.marked token = false) : s.store.marked token = false := by
  rcases h.marked token with hsame | ⟨-,hnew⟩
  · exact hsame.symm.trans hunmarked
  · exact absurd (hunmarked.symm.trans hnew) Bool.false_ne_true

theorem Goes.unmarked_tokens (h : Goes cfg s call entry phase store) {token : String}
    {stored : StoredToken} (hstored : store.tokens token = some stored)
    (hunmarked : store.marked token = false) : s.store.tokens token = some stored := by
  rcases h.tokens token stored hstored with ⟨hold,-⟩ | ⟨-,-,-,hnew⟩
  · exact hold
  · exact absurd (hunmarked.symm.trans hnew) Bool.false_ne_true

theorem Goes.families_of_ne (h : Goes cfg s call entry phase store) {familyId : String}
    (hne : familyId ≠ entry.familyId) :
    store.revokedFamilies familyId = s.store.revokedFamilies familyId := by
  rcases h.families familyId with hsame | ⟨hfamily,-⟩
  · exact hsame
  · exact absurd hfamily hne

theorem Closing.held {store : TokenStore} (h : Closing store call) :
    ∃ entry, call.phase.held = some entry := by
  rcases h with ⟨⟨entry,hchecking⟩,-⟩ | ⟨entry,hrevoking⟩
  · exact ⟨entry,SessionPhase.held_of_checking hchecking⟩
  · exact ⟨entry,by rw [hrevoking]; rfl⟩

theorem presented_setPhase (found : s.calls id = some call) {other : ℕ} {token : String}
    (h : (s.setPhase id call phase).Presented other token) : s.Presented other token := by
  obtain ⟨call',found',hrotates,htoken⟩ := h
  rcases update_eq_some.mp found' with ⟨rfl,⟨⟩⟩ | ⟨-,hold⟩
  · exact ⟨call,found,hrotates,htoken⟩
  · exact ⟨call',hold,hrotates,htoken⟩

theorem closed_setPhase (found : s.calls id = some call) {familyId : String}
    (h : (s.setPhase id call phase).Closed familyId) : s.Closed familyId := by
  rcases h with ⟨token,info,i,j,hissued,hfamily,hne,hi,hj⟩ | ⟨other,call',info,found',hrevokes,hissued⟩
  · exact Or.inl ⟨token,info,i,j,hissued,hfamily,hne,presented_setPhase found hi,
      presented_setPhase found hj⟩
  · rcases update_eq_some.mp found' with ⟨rfl,⟨⟩⟩ | ⟨-,hold⟩
    · exact Or.inr ⟨other,call,info,found,hrevokes,hissued⟩
    · exact Or.inr ⟨other,call',info,hold,hrevokes,hissued⟩

theorem Guarded.otherFamily (h : Guarded cfg s) (found : s.calls id = some call)
    (hheld : call.phase.held = some entry) {other : ℕ}
    {call' : SessionCall} {entry' : RefreshTokenEntry} (hne : other ≠ id)
    (found' : s.calls other = some call') (hheld' : call'.phase.held = some entry') :
    entry'.familyId ≠ entry.familyId := fun hfamily =>
  hne (h.sole other id call' call entry' entry found' found hheld' hheld hfamily)

theorem Guarded.otherMarks (h : Guarded cfg s) (found : s.calls id = some call)
    (hheld : call.phase.held = some entry) (hgoes : Goes cfg s call entry phase store)
    {other : ℕ} {call' : SessionCall} {entry' : RefreshTokenEntry} (hne : other ≠ id)
    (found' : s.calls other = some call') (hheld' : call'.phase.held = some entry') :
    store.marked call'.token = s.store.marked call'.token := by
  rcases hgoes.marked call'.token with hsame | ⟨htoken,-⟩
  · exact hsame
  · obtain ⟨info,hinfo,hfamily⟩ := h.held id call entry found hheld
    obtain ⟨info',hinfo',hfamily'⟩ := h.held other call' entry' found' hheld'
    rw [htoken,hinfo] at hinfo'
    obtain rfl := Option.some.inj hinfo'
    exact absurd (hfamily'.symm.trans hfamily) (h.otherFamily found hheld hne found' hheld')

theorem Guarded.move_tokens (h : Guarded cfg s) (found : s.calls id = some call)
    (hheld : call.phase.held = some entry) (hgoes : Goes cfg s call entry phase store) :
    TokensAgree cfg { s.setPhase id call phase with store := store } where
  known := by
    intro token stored hstored
    rcases hgoes.tokens token stored hstored with ⟨hold,-⟩ | ⟨rfl,hfamily,-,-⟩
    · exact h.known token stored hold
    · rw [hfamily]
      exact h.held id call entry found hheld
  agree := by
    intro token stored hstored
    rcases hgoes.tokens token stored hstored with ⟨hold,hsame⟩ | ⟨-,-,hrevoked,hmarked⟩
    · exact (h.agree token stored hold).trans hsame.symm
    · exact hrevoked.trans hmarked.symm
  window := by
    intro token stored hstored hunmarked
    exact h.window token stored (hgoes.unmarked_tokens hstored hunmarked)
      (hgoes.unmarked hunmarked)
  covered := by
    intro token stored livetime hstored hunmarked hrevoked
    have hold := hgoes.unmarked_tokens hstored hunmarked
    rcases hgoes.families stored.entry.familyId with hsame | ⟨-,hnew⟩
    · exact h.covered token stored livetime hold (hgoes.unmarked hunmarked)
        (hsame.symm.trans hrevoked)
    · obtain rfl := Option.some.inj (hnew.symm.trans hrevoked)
      exact h.window token stored hold (hgoes.unmarked hunmarked)

theorem Guarded.move_entries (h : Guarded cfg s) (found : s.calls id = some call)
    (hheld : call.phase.held = some entry) (hgoes : Goes cfg s call entry phase store) :
    EntriesAgree { s.setPhase id call phase with store := store } where
  held := by
    intro other call' entry' found' hheld'
    rcases update_eq_some.mp found' with ⟨rfl,⟨⟩⟩ | ⟨-,hold⟩
    · obtain rfl := hgoes.held entry' hheld'
      exact h.held other call entry' found hheld
    · exact h.held other call' entry' hold hheld'
  kinds := by
    intro other call' found'
    rcases update_eq_some.mp found' with ⟨rfl,⟨⟩⟩ | ⟨-,hold⟩
    · exact hgoes.kind.trans (h.kinds other call found)
    · exact h.kinds other call' hold
  checked := by
    intro other call' entry' found' hchecking
    rcases update_eq_some.mp found' with ⟨rfl,⟨⟩⟩ | ⟨hne,hold⟩
    · exact hgoes.checked entry' hchecking
    · exact (h.checked other call' entry' hold hchecking).trans
        (h.otherMarks found hheld hgoes hne hold (SessionPhase.held_of_checking hchecking)).symm
  sole := by
    intro i j c c' e e' hi hj hci hcj hfamily
    rcases update_eq_some.mp hi with ⟨rfl,⟨⟩⟩ | ⟨hne,hold⟩
    · obtain rfl := hgoes.held e hci
      rcases update_eq_some.mp hj with ⟨rfl,⟨⟩⟩ | ⟨hne',hold'⟩
      · rfl
      · exact absurd hfamily.symm (h.otherFamily found hheld hne' hold' hcj)
    · rcases update_eq_some.mp hj with ⟨rfl,⟨⟩⟩ | ⟨hne',hold'⟩
      · obtain rfl := hgoes.held e' hcj
        exact absurd hfamily (h.otherFamily found hheld hne hold hci)
      · exact h.sole i j c c' e e' hold hold' hci hcj hfamily

theorem Guarded.move_decided (h : Guarded cfg s) (found : s.calls id = some call)
    (hheld : call.phase.held = some entry) (hgoes : Goes cfg s call entry phase store) :
    Decided { s.setPhase id call phase with store := store } where
  decidedYes := by
    intro other call' entry' at' found' hphase
    rcases update_eq_some.mp found' with ⟨rfl,⟨⟩⟩ | ⟨-,hold⟩
    · exact hgoes.decidedYes entry' at' hphase
    · exact hgoes.revoked_mono (h.decidedYes other call' entry' at' hold hphase)
  decidedNo := by
    intro other call' entry' at' found' hphase
    rcases update_eq_some.mp found' with ⟨rfl,⟨⟩⟩ | ⟨hne,hold⟩
    · exact hgoes.decidedNo entry' at' hphase
    · have hfamily := h.otherFamily found hheld hne hold (by rw [hphase]; rfl)
      rcases h.decidedNo other call' entry' at' hold hphase with hnone | hmarked
      · exact Or.inl ((hgoes.families_of_ne hfamily).trans hnone)
      · exact Or.inr (hgoes.marked_mono hmarked)
  issuing := by
    intro other call' entry' found' hphase
    rcases update_eq_some.mp found' with ⟨rfl,⟨⟩⟩ | ⟨hne,hold⟩
    · exact hgoes.issuing entry' hphase
    · have hfamily := h.otherFamily found hheld hne hold (by rw [hphase]; rfl)
      obtain ⟨hnone,hmarked⟩ := h.issuing other call' entry' hold hphase
      exact ⟨(hgoes.families_of_ne hfamily).trans hnone,hgoes.marked_mono hmarked⟩
  invalidated := by
    intro other call' entry' found' hphase
    rcases update_eq_some.mp found' with ⟨rfl,⟨⟩⟩ | ⟨-,hold⟩
    · exact hgoes.invalidated entry' hphase
    · exact hgoes.revoked_mono (h.invalidated other call' entry' hold hphase)

theorem Guarded.move_closings (h : Guarded cfg s) (found : s.calls id = some call)
    (hheld : call.phase.held = some entry) (hgoes : Goes cfg s call entry phase store) :
    Closings cfg { s.setPhase id call phase with store := store } where
  spent := by
    intro other call' info found' hrotates hnone hinfo
    rcases update_eq_some.mp found' with ⟨rfl,⟨⟩⟩ | ⟨-,hold⟩
    · obtain ⟨info',hinfo',hfamily⟩ := h.held other call entry found hheld
      obtain rfl := Option.some.inj (hinfo'.symm.trans hinfo)
      rw [hfamily]
      exact hgoes.spent hnone hrotates
    · rcases h.spent other call' info hold hrotates hnone hinfo with hmarked | hrevoked | hdead
      · exact Or.inl (hgoes.marked_mono hmarked)
      · exact Or.inr (Or.inl (hgoes.revoked_mono hrevoked))
      · by_cases hmarked : store.marked call'.token = true
        · exact Or.inl hmarked
        · refine Or.inr (Or.inr fun stored hstored => hdead stored ?_)
          exact hgoes.unmarked_tokens hstored (eq_false_of_ne_true hmarked)
  closing := by
    intro familyId hclosed
    rcases h.closing familyId (closed_setPhase found hclosed) with
      hrevoked | ⟨other,call',entry',found',hheld',rfl,hclosing⟩
    · exact Or.inl (hgoes.revoked_mono hrevoked)
    · by_cases hsame : other = id
      · subst hsame
        obtain rfl := Option.some.inj (found.symm.trans found')
        obtain rfl := Option.some.inj (hheld.symm.trans hheld')
        rcases hgoes.closing hclosing with hrevoked | hclosing
        · exact Or.inl hrevoked
        · obtain ⟨entry',hnext⟩ := hclosing.held
          obtain rfl := hgoes.held entry' hnext
          exact Or.inr ⟨other,_,entry',Function.update_self _ _ _,hnext,rfl,hclosing⟩
      · refine Or.inr ⟨other,call',entry',(Function.update_of_ne hsame _ _).trans found',hheld',
          rfl,?_⟩
        rcases hclosing with ⟨hchecking,hmarked⟩ | hrevoking
        · exact Or.inl ⟨hchecking,hgoes.marked_mono hmarked⟩
        · exact Or.inr hrevoking
  markers := by
    intro familyId hrevoked
    rcases hgoes.families familyId with hsame | ⟨rfl,-⟩
    · rw [hsame] at hrevoked
      exact h.markers familyId hrevoked
    · obtain ⟨info,hinfo,hfamily⟩ := h.held id call entry found hheld
      exact ⟨call.token,info,hinfo,hfamily⟩
  marks := by
    intro token hmarked
    rcases hgoes.marked token with hsame | ⟨rfl,-⟩
    · obtain ⟨other,call',found',htoken⟩ := h.marks token (hsame.symm.trans hmarked)
      by_cases heq : other = id
      · subst heq
        obtain rfl := Option.some.inj (found.symm.trans found')
        exact ⟨other,_,Function.update_self _ _ _,htoken⟩
      · exact ⟨other,call',(Function.update_of_ne heq _ _).trans found',htoken⟩
    · exact ⟨id,_,Function.update_self _ _ _,rfl⟩

/-- A call that is the only one on its family goes on. -/
theorem Guarded.move (h : Guarded cfg s) (found : s.calls id = some call)
    (hheld : call.phase.held = some entry) (hgoes : Goes cfg s call entry phase store) :
    Guarded cfg { s.setPhase id call phase with store := store } where
  toTokensAgree := h.move_tokens found hheld hgoes
  toEntriesAgree := h.move_entries found hheld hgoes
  toDecided := h.move_decided found hheld hgoes
  toClosings := h.move_closings found hheld hgoes
  numbered := h.numbered.setPhase found phase

theorem Guarded.unseen (h : Guarded cfg s) (found : s.calls id = some call)
    (hchecking : call.phase.checking = some entry) :
    s.store.Seen cfg call.token entry ↔ s.store.marked call.token = true := by
  unfold TokenStore.Seen
  cases cfg.kind with
  | memory => rfl
  | redis => rw [h.checked id call entry found hchecking]

/-- A command that leaves the marks and at most drops tokens. -/
theorem Goes.of_dropped (htokens : ∀ token stored, store.tokens token = some stored →
      s.store.tokens token = some stored) (hmarked : store.marked = s.store.marked)
    (hfamilies : ∀ familyId, store.revokedFamilies familyId = s.store.revokedFamilies familyId ∨
      familyId = entry.familyId ∧
        store.revokedFamilies familyId = some (s.clock+cfg.refreshTtl*1000))
    (hheld : ∀ entry', phase.held = some entry' → entry' = entry)
    (hkind : phase.rotates = call.phase.rotates) (hchecking : phase.checking = none)
    (hissuing : ∀ entry', phase ≠ .issuing entry')
    (hinvalidated : ∀ entry', phase = .invalidating entry' →
      store.revokedFamilies entry'.familyId ≠ none)
    (hspent : phase.held = none → call.rotates = true → store.marked call.token = true ∨
      store.revokedFamilies entry.familyId ≠ none ∨ store.tokens call.token = none)
    (hclosing : Closing s.store call → store.revokedFamilies entry.familyId ≠ none) :
    Goes cfg s call entry phase store where
  tokens := fun token stored hstored => Or.inl ⟨htokens token stored hstored,by rw [hmarked]⟩
  marked := fun token => Or.inl (by rw [hmarked])
  families := hfamilies
  held := hheld
  kind := hkind
  checked := fun entry' h => by
    rw [hchecking] at h
    cases h
  decidedYes := fun entry' at' h => by
    rw [h] at hchecking
    cases hchecking
  decidedNo := fun entry' at' h => by
    rw [h] at hchecking
    cases hchecking
  issuing := fun entry' h => absurd h (hissuing entry')
  invalidated := hinvalidated
  spent := fun hnone hrotates => by
    rcases hspent hnone hrotates with hmark | hrevoked | htoken
    · exact Or.inl hmark
    · exact Or.inr (Or.inl hrevoked)
    · refine Or.inr (Or.inr fun stored hstored => ?_)
      rw [htoken] at hstored
      cases hstored
  closing := fun h => Or.inl (hclosing h)

theorem revokeFamily_families (cfg : SessionConfig) (now : ℕ) (family : String)
    (store : TokenStore) (familyId : String) :
    (store.revokeFamily cfg now family).revokedFamilies familyId =
        store.revokedFamilies familyId ∨
      familyId = family ∧ (store.revokeFamily cfg now family).revokedFamilies familyId =
        some (now+cfg.refreshTtl*1000) := by
  by_cases heq : familyId = family
  · subst heq
    exact Or.inr ⟨rfl,Function.update_self _ _ _⟩
  · exact Or.inl (Function.update_of_ne heq _ _)

theorem revokeFamily_ne_none (cfg : SessionConfig) (now : ℕ) (family : String)
    (store : TokenStore) : (store.revokeFamily cfg now family).revokedFamilies family ≠ none := by
  have hself : (store.revokeFamily cfg now family).revokedFamilies family =
      some (now+cfg.refreshTtl*1000) := Function.update_self _ _ _
  rw [hself]
  exact Option.some_ne_none _

theorem deleteFamily_families (cfg : SessionConfig) (now : ℕ) (family : String)
    (store : TokenStore) (familyId : String) :
    (store.deleteFamily cfg now family).revokedFamilies familyId =
        store.revokedFamilies familyId ∨
      familyId = family ∧ (store.deleteFamily cfg now family).revokedFamilies familyId =
        some (now+cfg.refreshTtl*1000) := by
  unfold TokenStore.deleteFamily
  split
  · exact Or.inl rfl
  · exact revokeFamily_families cfg now family store familyId

theorem not_closing (h : ∀ entry, call.phase.checking ≠ some entry)
    (h' : ∀ entry, call.phase ≠ .revoking entry) : ¬ Closing store call := by
  rintro (⟨⟨entry,hchecking⟩,-⟩ | ⟨entry,hrevoking⟩)
  · exact h entry hchecking
  · exact h' entry hrevoking

theorem families_of_isFamilyRevoked {now : ℕ} {familyId : String}
    (h : store.isFamilyRevoked cfg now familyId = true) :
    store.revokedFamilies familyId ≠ none := by
  intro hnone
  unfold TokenStore.isFamilyRevoked at h
  rw [hnone] at h
  cases hkind : cfg.kind with
  | memory =>
    rw [hkind] at h
    cases h
  | redis =>
    rw [hkind] at h
    cases h

/-- Only a mark that has expired is not found. -/
theorem expired_of_isFamilyRevoked {now livetime : ℕ} {familyId : String}
    (h : store.isFamilyRevoked cfg now familyId = false)
    (hmark : store.revokedFamilies familyId = some livetime) :
    cfg.kind = .redis ∧ livetime ≤ now := by
  unfold TokenStore.isFamilyRevoked at h
  rw [hmark] at h
  cases hkind : cfg.kind with
  | memory =>
    rw [hkind] at h
    cases h
  | redis =>
    rw [hkind] at h
    exact ⟨rfl,not_lt.mp (of_decide_eq_false h)⟩

/-- A rotation that has read an unmarked entry asks for the mark of its family in time. -/
theorem Guarded.asked (h : Guarded cfg s) (found : s.calls id = some call)
    (hphase : call.phase = .asking entry)
    (hintime : cfg.kind = .redis → s.store.revokedFamilies entry.familyId ≠ none →
      ∃ stored, s.store.tokens call.token = some stored ∧ TokenStore.Live cfg s.clock stored) :
    Goes cfg s call entry
      (.deciding entry (s.clock/1000) (s.store.isFamilyRevoked cfg s.clock entry.familyId))
      s.store := by
  have hchecking : call.phase.checking = some entry := by rw [hphase]; rfl
  exact {
    tokens := fun _ _ hstored => Or.inl ⟨hstored,rfl⟩
    marked := fun _ => Or.inl rfl
    families := fun _ => Or.inl rfl
    held := by
      rintro _ ⟨⟩
      rfl
    kind := by
      rw [hphase]
      rfl
    checked := by
      rintro _ ⟨⟩
      exact h.checked id call entry found hchecking
    decidedYes := by
      intro entry' at' hdeciding
      obtain ⟨rfl,-,hyes⟩ := SessionPhase.deciding.inj hdeciding
      exact families_of_isFamilyRevoked hyes
    decidedNo := by
      intro entry' at' hdeciding
      obtain ⟨rfl,-,hno⟩ := SessionPhase.deciding.inj hdeciding
      by_contra hneither
      obtain ⟨hrevoked,hunmarked⟩ := not_or.mp hneither
      obtain ⟨livetime,hlivetime⟩ := Option.ne_none_iff_exists'.mp hrevoked
      obtain ⟨hkind,hexpired⟩ := expired_of_isFamilyRevoked hno hlivetime
      obtain ⟨stored,hstored,hlive⟩ := hintime hkind hrevoked
      obtain ⟨info,hinfo,hfamily⟩ := h.held id call entry found (by rw [hphase]; rfl)
      obtain ⟨info',hinfo',hfamily'⟩ := h.known call.token stored hstored
      obtain rfl := Option.some.inj (hinfo.symm.trans hinfo')
      have hcovered := h.covered call.token stored livetime hstored
        (eq_false_of_ne_true hunmarked) (by rw [← hfamily',hfamily]; exact hlivetime)
      have hlt : s.clock < stored.livetime := by
        unfold TokenStore.Live at hlive
        rwa [hkind] at hlive
      omega
    issuing := by
      rintro _ ⟨⟩
    invalidated := by
      rintro _ ⟨⟩
    spent := by
      rintro ⟨⟩
    closing := by
      rintro (⟨-,hmarked⟩ | ⟨entry',hrevoking⟩)
      · exact Or.inr (Or.inl ⟨⟨entry,rfl⟩,hmarked⟩)
      · rw [hphase] at hrevoking
        cases hrevoking }

theorem Guarded.marked (h : Guarded cfg s) (found : s.calls id = some call) {at' : ℕ}
    (hphase : call.phase = .deciding entry at' false)
    (hunmarked : s.store.marked call.token ≠ true) :
    Goes cfg s call entry (.issuing entry) (s.store.mark s.clock at' call.token entry) := by
  have hself : (s.store.mark s.clock at' call.token entry).marked call.token = true :=
    Function.update_self _ _ _
  have hne : ∀ {token}, token ≠ call.token →
      (s.store.mark s.clock at' call.token entry).marked token = s.store.marked token :=
    fun hne => Function.update_of_ne hne _ _
  exact {
    tokens := by
      intro token stored hstored
      rcases update_eq_some.mp hstored with ⟨rfl,⟨⟩⟩ | ⟨hother,hold⟩
      · exact Or.inr ⟨rfl,rfl,rfl,hself⟩
      · exact Or.inl ⟨hold,hne hother⟩
    marked := by
      intro token
      by_cases heq : token = call.token
      · subst heq
        exact Or.inr ⟨rfl,hself⟩
      · exact Or.inl (hne heq)
    families := fun _ => Or.inl rfl
    held := by
      rintro _ ⟨⟩
      rfl
    kind := by
      rw [hphase]
      rfl
    checked := by
      rintro _ ⟨⟩
    decidedYes := by
      rintro _ _ ⟨⟩
    decidedNo := by
      rintro _ _ ⟨⟩
    issuing := by
      rintro _ ⟨⟩
      exact ⟨(h.decidedNo id call entry at' found hphase).resolve_right hunmarked,hself⟩
    invalidated := by
      rintro _ ⟨⟩
    spent := by
      rintro ⟨⟩
    closing := by
      rintro (⟨-,hmarked⟩ | ⟨entry',hrevoking⟩)
      · exact absurd hmarked hunmarked
      · rw [hphase] at hrevoking
        cases hrevoking }

/-- The call ends by deleting its token. -/
theorem Goes.of_deleted (hheld : phase.held = none) (hkind : phase.rotates = call.phase.rotates)
    (hclosing : Closing s.store call → s.store.revokedFamilies entry.familyId ≠ none) :
    Goes cfg s call entry phase (s.store.delete call.token) := by
  have hdeleted : (s.store.delete call.token).tokens call.token = none :=
    Function.update_self _ _ _
  refine .of_dropped (fun _ _ => tokens_delete) rfl (fun _ => Or.inl rfl) ?_ hkind ?_ ?_ ?_
    (fun _ _ => Or.inr (Or.inr hdeleted)) hclosing
  · intro entry' h
    rw [hheld] at h
    cases h
  · cases phase <;> first | rfl | cases hheld
  · rintro entry' rfl
    cases hheld
  · rintro entry' rfl
    cases hheld

/-- The call marks its family and goes on. -/
theorem Goes.of_familyRevoked (hheld : phase.held = some entry)
    (hkind : phase.rotates = call.phase.rotates) (hchecking : phase.checking = none)
    (hissuing : ∀ entry', phase ≠ .issuing entry') :
    Goes cfg s call entry phase (s.store.revokeFamily cfg s.clock entry.familyId) := by
  have hsome : ∀ entry', phase.held = some entry' → entry' = entry :=
    fun entry' h => Option.some.inj (h.symm.trans hheld)
  refine .of_dropped (fun _ _ hstored => hstored) rfl
    (revokeFamily_families cfg s.clock entry.familyId s.store) hsome hkind hchecking hissuing ?_
    (fun hnone => by rw [hheld] at hnone; cases hnone) fun _ => revokeFamily_ne_none _ _ _ _
  rintro entry' rfl
  obtain rfl := hsome entry' rfl
  exact revokeFamily_ne_none _ _ _ _

theorem deleteFamily_ne_none {familyId : String}
    (hrevoked : s.store.revokedFamilies familyId ≠ none) :
    (s.store.deleteFamily cfg s.clock familyId).revokedFamilies familyId ≠ none := by
  rcases deleteFamily_families cfg s.clock familyId s.store familyId with hsame | ⟨-,hnew⟩
  · rw [hsame]
    exact hrevoked
  · rw [hnew]
    exact Option.some_ne_none _

/-- A rotation whose token was marked before closes its family. -/
theorem Guarded.replayed (h : Guarded cfg s) (found : s.calls id = some call)
    (hphase : call.phase = .invalidating entry) :
    Goes cfg s call entry (.refused .replayed)
      (s.store.deleteFamily cfg s.clock entry.familyId) := by
  have hkept : (s.store.deleteFamily cfg s.clock entry.familyId).revokedFamilies entry.familyId ≠
      none := deleteFamily_ne_none (h.invalidated id call entry found hphase)
  exact .of_dropped (fun _ _ => tokens_deleteFamily) (marked_deleteFamily _)
    (deleteFamily_families cfg s.clock entry.familyId s.store) (by rintro _ ⟨⟩)
    (by rw [hphase]; rfl) rfl (by rintro _ ⟨⟩) (by rintro _ ⟨⟩)
    (fun _ _ => Or.inr (Or.inl hkept)) fun _ => hkept

theorem Goes.of_erased (hphase : call.phase = .erasing entry) :
    Goes cfg s call entry (.deleting entry)
      (s.store.deleteFamily cfg s.clock entry.familyId) := by
  refine .of_dropped (fun _ _ => tokens_deleteFamily) (marked_deleteFamily _)
    (deleteFamily_families cfg s.clock entry.familyId s.store) ?_ (by rw [hphase]; rfl) rfl
    (by rintro _ ⟨⟩) (by rintro _ ⟨⟩) (by rintro ⟨⟩)
    fun hclosing => absurd hclosing (not_closing ?_ ?_)
  · rintro _ ⟨⟩
    rfl
  · rw [hphase]
    rintro _ ⟨⟩
  · rw [hphase]
    rintro _ ⟨⟩

theorem Guarded.goes (h : Guarded cfg s) (found : s.calls id = some call)
    (hintime : ∀ entry, call.phase = .asking entry → cfg.kind = .redis →
      s.store.revokedFamilies entry.familyId ≠ none →
      ∃ stored, s.store.tokens call.token = some stored ∧ TokenStore.Live cfg s.clock stored)
    (hmoves : Moves cfg s.clock s.store call phase store) :
    ∃ entry, call.phase.held = some entry ∧ Goes cfg s call entry phase store := by
  cases hmoves with
  | asked entry hphase =>
    exact ⟨entry,by rw [hphase]; rfl,h.asked found hphase (hintime entry hphase)⟩
  | turnedAway entry at' hphase =>
    refine ⟨entry,by rw [hphase]; rfl,.of_deleted rfl (by rw [hphase]; rfl) fun _ => ?_⟩
    exact h.decidedYes id call entry at' found hphase
  | detected entry at' hphase seen =>
    exact ⟨entry,by rw [hphase]; rfl,.of_familyRevoked rfl (by rw [hphase]; rfl) rfl nofun⟩
  | late entry at' hphase unseen expired =>
    have hchecking : call.phase.checking = some entry := by rw [hphase]; rfl
    refine ⟨entry,by rw [hphase]; rfl,.of_deleted rfl (by rw [hphase]; rfl) ?_⟩
    rintro (⟨-,hmarked⟩ | ⟨entry',hrevoking⟩)
    · exact absurd ((h.unseen found hchecking).mpr hmarked) unseen
    · rw [hphase] at hrevoking
      cases hrevoking
  | marked entry at' hphase unseen inTime =>
    have hchecking : call.phase.checking = some entry := by rw [hphase]; rfl
    refine ⟨entry,by rw [hphase]; rfl,h.marked found hphase fun hmarked => ?_⟩
    exact unseen ((h.unseen found hchecking).mpr hmarked)
  | replayed entry hphase => exact ⟨entry,by rw [hphase]; rfl,h.replayed found hphase⟩
  | revoked entry hphase =>
    exact ⟨entry,by rw [hphase]; rfl,.of_familyRevoked rfl (by rw [hphase]; rfl) rfl nofun⟩
  | erased entry hphase => exact ⟨entry,by rw [hphase]; rfl,.of_erased hphase⟩
  | deleted entry hphase =>
    refine ⟨entry,by rw [hphase]; rfl,.of_deleted rfl (by rw [hphase]; rfl) fun hclosing => ?_⟩
    refine absurd hclosing (not_closing ?_ ?_)
    · rw [hphase]
      rintro _ ⟨⟩
    · rw [hphase]
      rintro _ ⟨⟩

end Goes

section Issue

variable {wallet familyId : String} {pair : NewPair}

theorem closed_issueTokenPair (hnew : s.NewTokens pair) {family : String}
    (h : (s.issueTokenPair cfg s.clock wallet familyId pair).Closed family) : s.Closed family := by
  have hissued : ∀ {token info},
      (s.issueTokenPair cfg s.clock wallet familyId pair).issued token = some info →
      (∃ id call, s.calls id = some call ∧ call.token = token) → s.issued token = some info := by
    intro token info hinfo hcall
    obtain ⟨id,call,found,rfl⟩ := hcall
    exact (Function.update_of_ne (hnew.2.2 id call found) _ _).symm.trans hinfo
  rcases h with ⟨token,info,i,j,hinfo,hfamily,hne,hi,hj⟩ | ⟨id,call,info,found,hrevokes,hinfo,hfamily⟩
  · obtain ⟨call,found,hrotates,htoken⟩ := hi
    exact Or.inl ⟨token,info,i,j,hissued hinfo ⟨i,call,found,htoken⟩,hfamily,hne,
      ⟨call,found,hrotates,htoken⟩,hj⟩
  · exact Or.inr ⟨id,call,info,found,hrevokes,hissued hinfo ⟨id,call,found,rfl⟩,hfamily⟩

theorem Guarded.issueTokenPair (h : Guarded cfg s) (wallet : String) (hnew : s.NewTokens pair)
    (hfamily : s.store.revokedFamilies familyId = none) :
    Guarded cfg (s.issueTokenPair cfg s.clock wallet familyId pair) := by
  have hissued : ∀ {token info}, s.issued token = some info →
      (s.issueTokenPair cfg s.clock wallet familyId pair).issued token = some info := by
    intro token info hinfo
    have hne : token ≠ pair.refreshToken := by
      rintro rfl
      rw [hnew.1] at hinfo
      cases hinfo
    exact (Function.update_of_ne hne _ _).trans hinfo
  have hunmarked : s.store.marked pair.refreshToken = false := by
    apply eq_false_of_ne_true
    intro hmarked
    obtain ⟨id,call,found,htoken⟩ := h.marks _ hmarked
    exact hnew.2.2 id call found htoken
  have hcalls : ∀ {id call stored}, s.calls id = some call →
      (s.issueTokenPair cfg s.clock wallet familyId pair).store.tokens call.token = some stored →
      s.store.tokens call.token = some stored := fun found hstored =>
    (Function.update_of_ne (hnew.2.2 _ _ found) _ _).symm.trans hstored
  exact { h with
    known := by
      intro token stored hstored
      rcases update_eq_some.mp hstored with ⟨rfl,⟨⟩⟩ | ⟨-,hold⟩
      · exact ⟨_,Function.update_self _ _ _,rfl⟩
      · obtain ⟨info,hinfo,hsame⟩ := h.known token stored hold
        exact ⟨info,hissued hinfo,hsame⟩
    agree := by
      intro token stored hstored
      rcases update_eq_some.mp hstored with ⟨rfl,⟨⟩⟩ | ⟨-,hold⟩
      · exact hunmarked.symm
      · exact h.agree token stored hold
    held := by
      intro id call entry found hheld
      obtain ⟨info,hinfo,hsame⟩ := h.held id call entry found hheld
      exact ⟨info,hissued hinfo,hsame⟩
    window := by
      intro token stored hstored hmarked
      rcases update_eq_some.mp hstored with ⟨rfl,⟨⟩⟩ | ⟨-,hold⟩
      · exact le_rfl
      · exact h.window token stored hold hmarked
    covered := by
      intro token stored livetime hstored hmarked hrevoked
      rcases update_eq_some.mp hstored with ⟨rfl,⟨⟩⟩ | ⟨-,hold⟩
      · cases hfamily.symm.trans hrevoked
      · exact h.covered token stored livetime hold hmarked hrevoked
    spent := by
      intro id call info found hrotates hnone hinfo
      have hold : s.issued call.token = some info :=
        (Function.update_of_ne (hnew.2.2 id call found) _ _).symm.trans hinfo
      rcases h.spent id call info found hrotates hnone hold with hmarked | hrevoked | hdead
      · exact Or.inl hmarked
      · exact Or.inr (Or.inl hrevoked)
      · exact Or.inr (Or.inr fun stored hstored => hdead stored (hcalls found hstored))
    closing := fun family hclosed => h.closing family (closed_issueTokenPair hnew hclosed)
    markers := by
      intro family hrevoked
      obtain ⟨token,info,hinfo,hsame⟩ := h.markers family hrevoked
      exact ⟨token,info,hissued hinfo,hsame⟩ }

end Issue

section Enter

variable {token : String} {rotates : Bool}

def entryPhase (found : Option RefreshTokenEntry) (rotates : Bool) : SessionPhase :=
  match found, rotates with
  | some entry, true => .asking entry
  | some entry, false => .revoking entry
  | none, true => .refused .notFound
  | none, false => .unknown

theorem held_entryPhase (found : Option RefreshTokenEntry) (rotates : Bool) :
    (entryPhase found rotates).held = found := by
  cases found <;> cases rotates <;> rfl

theorem rotates_entryPhase (found : Option RefreshTokenEntry) (rotates : Bool) :
    (entryPhase found rotates).rotates = rotates := by
  cases found <;> cases rotates <;> rfl

theorem checking_entryPhase {found : Option RefreshTokenEntry} {entry : RefreshTokenEntry}
    (h : (entryPhase found rotates).checking = some entry) : found = some entry ∧ rotates = true := by
  cases found <;> cases rotates <;> cases h
  exact ⟨rfl,rfl⟩

/-- A call begins on a family when no other is under way, and finds its token or a mark on the
family, if it revokes or its token has been presented before. -/
structure Enters (cfg : SessionConfig) (s : Sessions) (token : String) (rotates : Bool) : Prop where
  quiet : ∀ info, s.issued token = some info → s.Quiet info.familyId
  found : ∀ info, s.issued token = some info →
    (rotates = true → ∃ id, s.Presented id token) →
    s.store.read cfg s.clock token ≠ none ∨ s.store.revokedFamilies info.familyId ≠ none

theorem Guarded.read (h : Guarded cfg s) {entry : RefreshTokenEntry}
    (hread : s.store.read cfg s.clock token = some entry) :
    (∃ info, s.issued token = some info ∧ info.familyId = entry.familyId) ∧
      entry.revoked = s.store.marked token := by
  obtain ⟨stored,hstored,-,rfl⟩ := TokenStore.read_eq_some hread
  exact ⟨h.known token stored hstored,h.agree token stored hstored⟩

theorem Guarded.closing_enter (h : Guarded cfg s) (henters : Enters cfg s token rotates)
    {info : IssuedToken} (hinfo : s.issued token = some info)
    (hagain : rotates = true → ∃ id, s.Presented id token) :
    s.store.revokedFamilies info.familyId ≠ none ∨ ∃ entry,
      s.store.read cfg s.clock token = some entry ∧ entry.familyId = info.familyId ∧
        Closing s.store ⟨token,rotates,entryPhase (some entry) rotates⟩ := by
  by_cases hrevoked : s.store.revokedFamilies info.familyId ≠ none
  · exact Or.inl hrevoked
  right
  obtain ⟨entry,hread⟩ := Option.ne_none_iff_exists'.mp
    ((henters.found info hinfo hagain).resolve_right hrevoked)
  obtain ⟨⟨info',hinfo',hfamily⟩,-⟩ := h.read hread
  obtain rfl := Option.some.inj (hinfo.symm.trans hinfo')
  refine ⟨entry,hread,hfamily.symm,?_⟩
  cases hrotates : rotates with
  | false => exact Or.inr ⟨entry,rfl⟩
  | true =>
    -- the token has been presented by a call that has ended and marked it
    obtain ⟨id,call,found,hcall,rfl⟩ := hagain hrotates
    have hended : call.phase.held = none := by
      by_contra hheld
      obtain ⟨entry',hheld⟩ := Option.ne_none_iff_exists'.mp hheld
      obtain ⟨info',hinfo',hfamily'⟩ := h.held id call entry' found hheld
      obtain rfl := Option.some.inj (hinfo.symm.trans hinfo')
      exact henters.quiet info hinfo id call entry' found hheld hfamily'.symm
    rcases h.spent id call info found hcall hended hinfo with hmarked | hrevoked' | hdead
    · exact Or.inl ⟨⟨entry,rfl⟩,hmarked⟩
    · exact absurd hrevoked' hrevoked
    · obtain ⟨stored,hstored,hlive,-⟩ := TokenStore.read_eq_some hread
      exact absurd hlive (hdead stored hstored)

theorem calls_enter {id : ℕ} {call : SessionCall}
    (found : (s.enter cfg s.clock token rotates).calls id = some call) :
    id = s.next ∧ call = ⟨token,rotates,entryPhase (s.store.read cfg s.clock token) rotates⟩ ∨
      s.calls id = some call := by
  rcases update_eq_some.mp found with ⟨rfl,⟨⟩⟩ | ⟨-,hold⟩
  · exact Or.inl ⟨rfl,rfl⟩
  · exact Or.inr hold

/-- A call in a phase in which none begins was there before. -/
theorem calls_enter_of_phase {phase : SessionPhase}
    (hne : ∀ found, entryPhase found rotates ≠ phase) {id : ℕ} {call : SessionCall}
    (found : (s.enter cfg s.clock token rotates).calls id = some call)
    (hcall : call.phase = phase) : s.calls id = some call := by
  rcases calls_enter found with ⟨-,rfl⟩ | hold
  · exact absurd hcall (hne _)
  · exact hold

/-- A family is closed by a call that begins only if the call revokes, or presents its token
again. -/
theorem closed_enter {familyId : String}
    (h : (s.enter cfg s.clock token rotates).Closed familyId) :
    s.Closed familyId ∨ ∃ info, s.issued token = some info ∧ info.familyId = familyId ∧
      (rotates = true → ∃ id, s.Presented id token) := by
  have hpresented : ∀ {id other}, (s.enter cfg s.clock token rotates).Presented id other →
      id = s.next ∧ other = token ∧ rotates = true ∨ s.Presented id other := by
    rintro id other ⟨call,found,hrotates,htoken⟩
    rcases calls_enter found with ⟨rfl,rfl⟩ | hold
    · exact Or.inl ⟨rfl,htoken.symm,hrotates⟩
    · exact Or.inr ⟨call,hold,hrotates,htoken⟩
  rcases h with ⟨other,info,i,j,hinfo,hfamily,hne,hi,hj⟩ | ⟨id,call,info,found,hrevokes,hinfo,hfamily⟩
  · rcases hpresented hi with ⟨rfl,rfl,-⟩ | hi'
    · rcases hpresented hj with ⟨rfl,-,-⟩ | hj'
      · exact absurd rfl hne
      · exact Or.inr ⟨info,hinfo,hfamily,fun _ => ⟨j,hj'⟩⟩
    · rcases hpresented hj with ⟨-,rfl,-⟩ | hj'
      · exact Or.inr ⟨info,hinfo,hfamily,fun _ => ⟨i,hi'⟩⟩
      · exact Or.inl (Or.inl ⟨other,info,i,j,hinfo,hfamily,hne,hi',hj'⟩)
  · rcases update_eq_some.mp found with ⟨rfl,⟨⟩⟩ | ⟨-,hold⟩
    · refine Or.inr ⟨info,hinfo,hfamily,fun hrotates => ?_⟩
      exact absurd (hrevokes.symm.trans hrotates) Bool.false_ne_true
    · exact Or.inl (Or.inr ⟨id,call,info,hold,hrevokes,hinfo,hfamily⟩)

theorem Closing.restore {store store' : TokenStore} {call : SessionCall}
    (h : Closing store call) (hmarked : store'.marked = store.marked) : Closing store' call := by
  rcases h with ⟨hchecking,hmark⟩ | hrevoking
  · exact Or.inl ⟨hchecking,(congrFun hmarked _).trans hmark⟩
  · exact Or.inr hrevoking

theorem revokedFamilies_sweep (cfg : SessionConfig) (now : ℕ) (token : String)
    (store : TokenStore) :
    (store.sweep cfg now token).revokedFamilies = store.revokedFamilies := by
  unfold TokenStore.sweep
  split_ifs <;> rfl

theorem Numbered.ne_next (h : s.Numbered) {id : ℕ} {call : SessionCall}
    (found : s.calls id = some call) : id ≠ s.next := by
  rintro rfl
  cases (h s.next le_rfl).symm.trans found

theorem Guarded.enter_tokens (h : Guarded cfg s) :
    TokensAgree cfg (s.enter cfg s.clock token rotates) := by
  have hmarked : (s.store.sweep cfg s.clock token).marked = s.store.marked := marked_sweep token
  have hfamilies : (s.store.sweep cfg s.clock token).revokedFamilies =
      s.store.revokedFamilies := revokedFamilies_sweep cfg s.clock token s.store
  exact {
    known := fun other stored hstored => h.known other stored (tokens_sweep hstored)
    agree := by
      intro other stored hstored
      rw [h.agree other stored (tokens_sweep hstored)]
      exact congrFun hmarked.symm other
    window := by
      intro other stored hstored hunmarked
      exact h.window other stored (tokens_sweep hstored) ((congrFun hmarked other).symm.trans hunmarked)
    covered := by
      intro other stored livetime hstored hunmarked hrevoked
      exact h.covered other stored livetime (tokens_sweep hstored)
        ((congrFun hmarked other).symm.trans hunmarked) ((congrFun hfamilies _).symm.trans hrevoked) }

theorem Guarded.enter_entries (h : Guarded cfg s) (henters : Enters cfg s token rotates) :
    EntriesAgree (s.enter cfg s.clock token rotates) := by
  have hmarked : (s.store.sweep cfg s.clock token).marked = s.store.marked := marked_sweep token
  exact {
    held := by
      intro id call entry found hheld
      rcases calls_enter found with ⟨rfl,rfl⟩ | hold
      · rw [held_entryPhase] at hheld
        exact (h.read hheld).1
      · exact h.held id call entry hold hheld
    kinds := by
      intro id call found
      rcases calls_enter found with ⟨rfl,rfl⟩ | hold
      · exact rotates_entryPhase _ _
      · exact h.kinds id call hold
    checked := by
      intro id call entry found hchecking
      show entry.revoked = (s.store.sweep cfg s.clock token).marked call.token
      rw [hmarked]
      rcases calls_enter found with ⟨rfl,rfl⟩ | hold
      · exact (h.read (checking_entryPhase hchecking).1).2
      · exact h.checked id call entry hold hchecking
    sole := by
      intro i j call call' entry entry' hi hj hheld hheld' hfamily
      rcases calls_enter hi with ⟨rfl,rfl⟩ | hi
      · rcases calls_enter hj with ⟨rfl,rfl⟩ | hj
        · rfl
        · rw [held_entryPhase] at hheld
          obtain ⟨info,hinfo,hsame⟩ := (h.read hheld).1
          exact absurd (hfamily.symm.trans hsame.symm)
            (henters.quiet info hinfo j call' entry' hj hheld')
      · rcases calls_enter hj with ⟨rfl,rfl⟩ | hj
        · rw [held_entryPhase] at hheld'
          obtain ⟨info,hinfo,hsame⟩ := (h.read hheld').1
          exact absurd (hfamily.trans hsame.symm)
            (henters.quiet info hinfo i call entry hi hheld)
        · exact h.sole i j call call' entry entry' hi hj hheld hheld' hfamily }

theorem Guarded.enter_decided (h : Guarded cfg s) :
    Decided (s.enter cfg s.clock token rotates) := by
  have hmarked : (s.store.sweep cfg s.clock token).marked = s.store.marked := marked_sweep token
  have hfamilies : (s.store.sweep cfg s.clock token).revokedFamilies =
      s.store.revokedFamilies := revokedFamilies_sweep cfg s.clock token s.store
  exact {
    decidedYes := by
      intro id call entry at' found hcall
      have hsame := calls_enter_of_phase (by cases rotates <;> rintro (_ | _) ⟨⟩) found hcall
      show (s.store.sweep cfg s.clock token).revokedFamilies _ ≠ none
      rw [hfamilies]
      exact h.decidedYes id call entry at' hsame hcall
    decidedNo := by
      intro id call entry at' found hcall
      have hsame := calls_enter_of_phase (by cases rotates <;> rintro (_ | _) ⟨⟩) found hcall
      show (s.store.sweep cfg s.clock token).revokedFamilies _ = none ∨
        (s.store.sweep cfg s.clock token).marked _ = true
      rw [hfamilies,hmarked]
      exact h.decidedNo id call entry at' hsame hcall
    issuing := by
      intro id call entry found hcall
      have hsame := calls_enter_of_phase (by cases rotates <;> rintro (_ | _) ⟨⟩) found hcall
      show (s.store.sweep cfg s.clock token).revokedFamilies _ = none ∧
        (s.store.sweep cfg s.clock token).marked _ = true
      rw [hfamilies,hmarked]
      exact h.issuing id call entry hsame hcall
    invalidated := by
      intro id call entry found hcall
      have hsame := calls_enter_of_phase (by cases rotates <;> rintro (_ | _) ⟨⟩) found hcall
      show (s.store.sweep cfg s.clock token).revokedFamilies _ ≠ none
      rw [hfamilies]
      exact h.invalidated id call entry hsame hcall }

theorem Guarded.enter_closings (h : Guarded cfg s) (henters : Enters cfg s token rotates) :
    Closings cfg (s.enter cfg s.clock token rotates) := by
  have hmarked : (s.store.sweep cfg s.clock token).marked = s.store.marked := marked_sweep token
  have hfamilies : (s.store.sweep cfg s.clock token).revokedFamilies =
      s.store.revokedFamilies := revokedFamilies_sweep cfg s.clock token s.store
  have hold : ∀ {id call}, s.calls id = some call → id ≠ s.next := fun found =>
    h.numbered.ne_next found
  exact {
    spent := by
      intro id call info found hrotates hheld hinfo
      show (s.store.sweep cfg s.clock token).marked _ = true ∨
        (s.store.sweep cfg s.clock token).revokedFamilies _ ≠ none ∨ _
      rw [hmarked,hfamilies]
      rcases calls_enter found with ⟨rfl,rfl⟩ | hold
      · rw [held_entryPhase] at hheld
        refine Or.inr (Or.inr fun stored hstored => ?_)
        have hgone : (s.store.sweep cfg s.clock token).tokens token = none := by
          unfold TokenStore.sweep
          rw [if_pos hheld]
          exact Function.update_self _ _ _
        cases hgone.symm.trans hstored
      · rcases h.spent id call info hold hrotates hheld hinfo with hmarked | hrevoked | hdead
        · exact Or.inl hmarked
        · exact Or.inr (Or.inl hrevoked)
        · exact Or.inr (Or.inr fun stored hstored => hdead stored (tokens_sweep hstored))
    closing := by
      intro familyId hclosed
      show (s.store.sweep cfg s.clock token).revokedFamilies familyId ≠ none ∨ _
      rw [hfamilies]
      rcases closed_enter hclosed with hclosed | ⟨info,hinfo,rfl,hagain⟩
      · rcases h.closing familyId hclosed with
          hrevoked | ⟨id,call,entry,found,hheld,hfamily,hclosing⟩
        · exact Or.inl hrevoked
        · exact Or.inr ⟨id,call,entry,(Function.update_of_ne (hold found) _ _).trans found,hheld,
            hfamily,hclosing.restore hmarked⟩
      · rcases h.closing_enter henters hinfo hagain with hrevoked | ⟨entry,hread,hfamily,hclosing⟩
        · exact Or.inl hrevoked
        · rw [← hread] at hclosing
          exact Or.inr ⟨s.next,_,entry,Function.update_self _ _ _,
            (held_entryPhase _ _).trans hread,hfamily,hclosing.restore hmarked⟩
    markers := by
      intro family hrevoked
      exact h.markers family (by rwa [← hfamilies])
    marks := by
      intro other hother
      obtain ⟨id,call,found,htoken⟩ := h.marks other ((congrFun hmarked other).symm.trans hother)
      exact ⟨id,call,(Function.update_of_ne (hold found) _ _).trans found,htoken⟩ }

theorem Guarded.enter (h : Guarded cfg s) (henters : Enters cfg s token rotates) :
    Guarded cfg (s.enter cfg s.clock token rotates) where
  toTokensAgree := h.enter_tokens
  toEntriesAgree := h.enter_entries henters
  toDecided := h.enter_decided
  toClosings := h.enter_closings henters
  numbered := by
    intro id hid
    have hlt : s.next+1 ≤ id := hid
    have hne : id ≠ s.next := by omega
    exact (Function.update_of_ne hne _ _).trans (h.numbered id (by omega))

end Enter

theorem Guarded.step (h : Guarded cfg s) {event : SessionEvent} (hnew : DrawsNew s event)
    (htime : OneAtATime cfg s event) : Guarded cfg (step cfg event s) := by
  have hlater := h.later event
  have hchange := change_step cfg s event
  revert hchange
  generalize Sessions.step cfg event s = t
  intro hchange
  cases hchange with
  | idle => exact hlater
  | loggedIn after wallet pair familyId login =>
    subst login
    refine hlater.issueTokenPair wallet hnew.1 ?_
    by_contra hrevoked
    obtain ⟨token,info,hinfo,hfamily⟩ := h.markers familyId hrevoked
    exact hnew.2 token info hinfo hfamily
  | entered after token rotates enters =>
    refine hlater.enter ?_
    cases rotates with
    | true =>
      subst enters
      exact ⟨fun info hinfo => (htime info hinfo).1,
        fun info hinfo hagain => (htime info hinfo).2 (hagain rfl)⟩
    | false =>
      subst enters
      exact ⟨fun info hinfo => (htime info hinfo).1,fun info hinfo _ => (htime info hinfo).2⟩
  | moved after id pair call phase store advance found moves =>
    subst advance
    obtain ⟨entry,hheld,hgoes⟩ := hlater.goes found (htime call · found) moves
    exact hlater.move found hheld hgoes
  | issued after id pair call entry advance found hphase =>
    subst advance
    have hpair := hnew call entry found hphase
    obtain ⟨hnone,hmarked⟩ := h.issuing id call entry found hphase
    have hissued := hlater.issueTokenPair entry.walletAddress hpair hnone
    have hheld : call.phase.held = some entry := by rw [hphase]; rfl
    refine hissued.move found hheld ?_
    refine .of_dropped (fun _ _ hstored => hstored) rfl (fun _ => Or.inl rfl) (by rintro _ ⟨⟩)
      (by rw [hphase]; rfl) rfl (by rintro _ ⟨⟩) (by rintro _ ⟨⟩) (fun _ _ => Or.inl hmarked) ?_
    refine fun hclosing => absurd hclosing (not_closing ?_ ?_)
    · rw [hphase]
      rintro _ ⟨⟩
    · rw [hphase]
      rintro _ ⟨⟩

/-- Where the calls on a family come one at a time and find their tokens, every refresh token
is exchanged at most once, and a family in which a token has been presented twice or revoked
gives out no more. -/
theorem rotates_once (cfg : SessionConfig) (now : ℕ) (events : List SessionEvent)
    (hnew : Runs.Along (Sessions.step cfg) DrawsNew (start now) events)
    (htime : Runs.Along (Sessions.step cfg) (OneAtATime cfg) (start now) events) :
    Runs.Along (Sessions.step cfg) RotatesOnce (start now) events := by
  have hkeep : ∀ s event, Guarded cfg s → DrawsNew s event ∧ OneAtATime cfg s event →
      Guarded cfg (Sessions.step cfg event s) := fun _ _ h hguard => h.step hguard.1 hguard.2
  exact (hnew.and htime).of_invariant hkeep (fun _ event h _ => h.rotatesOnce event)
    (guarded_start now)

section Demo

def redisSessions : SessionConfig := { memorySessions with kind := .redis }

def secondPair : NewPair := ⟨"second access token","second refresh token"⟩

def replayedOnce : List SessionEvent :=
  [aliceLogin,.rotate 0 "refresh token",.advance 0 0 ⟨"",""⟩,.advance 0 0 ⟨"",""⟩,
    .advance 0 0 secondPair,.rotate 0 "refresh token"]

/-- Two rotations of one token that both read its entry before either marks it. -/
def rotatedTwice : List SessionEvent :=
  [aliceLogin,.rotate 0 "refresh token",.rotate 0 "refresh token",.advance 0 0 ⟨"",""⟩,
    .advance 0 1 ⟨"",""⟩,.advance 0 0 ⟨"",""⟩,.advance 0 1 ⟨"",""⟩,.advance 0 0 secondPair,
    .advance 0 1 ⟨"third access token","third refresh token"⟩]

theorem newTokens_of_calls {events : List SessionEvent} {pair : NewPair}
    (hissued : (runFrom cfg 0 events).issued pair.refreshToken = none)
    (haccess : (runFrom cfg 0 events).access pair.accessToken = none)
    (hcalls : ∀ id < (runFrom cfg 0 events).next,
      ((runFrom cfg 0 events).calls id).all fun call => decide (call.token ≠ pair.refreshToken)) :
    NewTokens (runFrom cfg 0 events) pair := by
  refine ⟨hissued,haccess,?_⟩
  intro id call found
  by_cases hlt : id < (runFrom cfg 0 events).next
  · have hcall := hcalls id hlt
    rw [found] at hcall
    exact of_decide_eq_true hcall
  · rw [numbered_runFrom cfg 0 events id (not_lt.mp hlt)] at found
    cases found

theorem replayedOnce_rotatesOnce :
    Runs.Along (step redisSessions) RotatesOnce (start 0) replayedOnce := by
  have hpair : NewTokens (runFrom redisSessions 0 (replayedOnce.take 4)) secondPair :=
    newTokens_of_calls (by decide) (by decide) (by decide)
  have hunrevoked : ∀ {s : Sessions} {id after : ℕ} {pair : NewPair},
      s.store.revokedFamilies = (fun _ => none) →
      OneAtATime redisSessions s (.advance after id pair) := by
    intro s id after pair hnone call entry _ _ _ hrevoked
    exact absurd (congrFun hnone _) hrevoked
  have hrun := numbered_runFrom redisSessions 0 (replayedOnce.take 5)
  have hended : ∀ id call, (runFrom redisSessions 0 (replayedOnce.take 5)).calls id =
      some call → call.phase.held = none := by
    intro id call found
    rcases Nat.eq_zero_or_pos id with rfl | hpos
    · obtain rfl := Option.some.inj found
      rfl
    · rw [hrun id hpos] at found
      cases found
  refine rotates_once redisSessions 0 replayedOnce ?_ ?_
  · exact ⟨aliceLogin_new,trivial,drawsNew_of_phase rfl (by rintro _ ⟨⟩),
      drawsNew_of_phase rfl (by rintro _ ⟨⟩),fun _ _ _ _ => hpair,trivial,trivial⟩
  · refine ⟨trivial,?_,hunrevoked rfl,hunrevoked rfl,hunrevoked rfl,?_,trivial⟩
    · rintro info -
      refine ⟨?_,?_⟩
      · rintro id call entry ⟨⟩
      · rintro ⟨id,call,⟨⟩,-⟩
    · rintro info -
      refine ⟨?_,fun _ => Or.inl (Option.some_ne_none _)⟩
      intro id call entry found hheld
      rw [hended id call found] at hheld
      cases hheld

theorem rotatedTwice_not_once : ¬ ∀ (cfg : SessionConfig) (now : ℕ) (events : List SessionEvent),
    Runs.Along (step cfg) DrawsNew (start now) events →
    Runs.Along (step cfg) RotatesOnce (start now) events := by
  intro h
  have hsecond : NewTokens (runFrom redisSessions 0 (rotatedTwice.take 7)) secondPair :=
    newTokens_of_calls (by decide) (by decide) (by decide)
  have hthird : NewTokens (runFrom redisSessions 0 (rotatedTwice.take 8))
      ⟨"third access token","third refresh token"⟩ :=
    newTokens_of_calls (by decide) (by decide) (by decide)
  have hnew : Runs.Along (step redisSessions) DrawsNew (start 0) rotatedTwice :=
    ⟨aliceLogin_new,trivial,trivial,drawsNew_of_phase rfl (by rintro _ ⟨⟩),
      drawsNew_of_phase rfl (by rintro _ ⟨⟩),drawsNew_of_phase rfl (by rintro _ ⟨⟩),
      drawsNew_of_phase rfl (by rintro _ ⟨⟩),fun _ _ _ _ => hsecond,fun _ _ _ _ => hthird,trivial⟩
  have honce := (h redisSessions 0 rotatedTwice hnew).2.2.2.2.2.2.2.2.1.once
  exact honce 0 1 _ _ _ rfl rfl rfl 0 _ "second refresh token" (by decide) rfl rfl rfl

end Demo

end Sessions

end YieldVault.Backend
