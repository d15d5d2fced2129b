import YieldVault.Backend.Idempotency

/-! Nonces of wallet actions. A nonce is consumed by a check of its entry and a mark on it,
each made of single commands of a store: the memory of a server instance, where the mark
is one command, or a Redis shared by all, where it is a read, a query of the time to live
and a write. The commands of all calls interleave. -/
namespace YieldVault.Backend

inductive WalletAction
  | login | deposit | withdrawal
  deriving DecidableEq

inductive NonceError
  | notFound | expired | replay | actionMismatch | walletMismatch
  deriving DecidableEq

structure StoredNonce where
  nonce : String
  walletAddress : String
  action : WalletAction
  issuedAt : ℕ
  expiresAt : ℕ
  used : Bool

inductive NonceStoreKind
  | memory | redis

/-- The settings of the service, and the functions on strings that it uses. -/
structure NonceConfig where
  kind : NonceStoreKind
  ttlSeconds : ℕ := 300
  maxActiveNoncesPerWallet : ℕ := 10
  normalizeWalletAddress : String → String
  trim : String → String

/-- The part of the stores that a server instance sees. -/
def NonceConfig.shelf (cfg : NonceConfig) (server : ℕ) : ℕ :=
  match cfg.kind with
  | .memory => server
  | .redis => 0

/-- Where a call of `validateForUse` or `consume` stands; from the check on with the time of it. -/
inductive NoncePhase
  | validating
  | checking (entry : Option StoredNonce)
  | marking (checkedAt : ℕ)
  | timing (checkedAt : ℕ) (entry : StoredNonce)
  | writing (checkedAt : ℕ) (entry : StoredNonce) (ttl : ℤ)
  | validated
  | consumed (time : ℕ)
  | rejected (error : NonceError)

structure NonceCall where
  server : ℕ
  wallet : String
  action : WalletAction
  nonce : String
  consumes : Bool
  phase : NoncePhase

def NonceCall.slot (cfg : NonceConfig) (call : NonceCall) : ℕ × String :=
  (cfg.shelf call.server,call.nonce)

/-- The stores, the calls so far, and the nonces issued, each with the store it went to. -/
structure NonceService where
  entries : ℕ × String → Option (Cached StoredNonce) := fun _ => none
  calls : ℕ → Option NonceCall := fun _ => none
  next : ℕ := 0
  issued : List (ℕ × StoredNonce) := []

inductive NonceEvent
  | issue (server now saved : ℕ) (wallet : String) (action : WalletAction) (nonce : String)
      (active : ℕ)
  | enter (server : ℕ) (wallet : String) (action : WalletAction) (nonce : String)
      (consumes : Bool)
  | advance (call now : ℕ)

/-- `get` of either store. -/
def liveNonce (now : ℕ) : Option (Cached StoredNonce) → Option StoredNonce
  | some entry => if entry.alive now then some entry.value else none
  | none => none

/-- The seconds that the entry still lives, rounded, and -2 where there is none. -/
def redisTtl (now : ℕ) (entry : Option (Cached StoredNonce)) : ℤ :=
  match entry with
  | some entry => if entry.alive now then ((entry.livetime-now+500)/1000 : ℕ) else -2
  | none => -2

def validateNonce (wallet : String) (action : WalletAction) (now : ℕ) :
    Option StoredNonce → Except NonceError StoredNonce
  | none => .error .notFound
  | some entry =>
    if entry.walletAddress ≠ wallet then .error .walletMismatch
    else if entry.action ≠ action then .error .actionMismatch
    else if entry.expiresAt < now then .error .expired
    else if entry.used then .error .replay
    else .ok entry

def StoredNonce.marked (entry : StoredNonce) : StoredNonce := { entry with used := true }

def NonceConfig.livetime (cfg : NonceConfig) (now : ℕ) : ℕ :=
  if cfg.ttlSeconds = 0 then 0 else now+cfg.ttlSeconds*1000

def NonceCall.advance (cfg : NonceConfig) (now : ℕ) (entry : Option (Cached StoredNonce))
    (call : NonceCall) : NoncePhase × Option (Cached StoredNonce) :=
  match call.phase with
  | .validating => (.checking (liveNonce now entry),entry)
  | .checking found =>
    match validateNonce call.wallet call.action now found with
    | .error error => (.rejected error,entry)
    | .ok _ => (if call.consumes then .marking now else .validated,entry)
  | .marking checkedAt =>
    match liveNonce now entry with
    | none => (.rejected .replay,entry)
    | some found =>
      if found.used then (.rejected .replay,entry)
      else match cfg.kind with
        -- the memory store writes at once, with its standard time to live
        | .memory => (.consumed now,some ⟨found.marked,cfg.livetime now⟩)
        | .redis => (.timing checkedAt found,entry)
  | .timing checkedAt found => (.writing checkedAt found (redisTtl now entry),entry)
  | .writing _ found ttl =>
    let seconds := if 0 < ttl then ttl.toNat else cfg.ttlSeconds
    (.consumed now,some ⟨found.marked,now+seconds*1000⟩)
  | phase => (phase,entry)

namespace NonceService

/-- `issue`, where `active` is what counting the wallet's active nonces has come to. -/
def issue (cfg : NonceConfig) (server now saved : ℕ) (wallet : String) (action : WalletAction)
    (nonce : String) (active : ℕ) (s : NonceService) : NonceService :=
  if cfg.maxActiveNoncesPerWallet ≤ active then s
  else
    let entry : StoredNonce :=
      ⟨nonce,cfg.normalizeWalletAddress wallet,action,now,now+cfg.ttlSeconds*1000,false⟩
    { s with
      entries := Function.update s.entries (cfg.shelf server,nonce)
        (some ⟨entry,cfg.livetime saved⟩)
      issued := (cfg.shelf server,entry) :: s.issued }

def enter (cfg : NonceConfig) (server : ℕ) (wallet : String) (action : WalletAction)
    (nonce : String) (consumes : Bool) (s : NonceService) : NonceService :=
  { s with
    calls := Function.update s.calls s.next (some ⟨server,cfg.normalizeWalletAddress wallet,action,
      cfg.trim nonce,consumes,.validating⟩)
    next := s.next+1 }

def advance (cfg : NonceConfig) (id now : ℕ) (s : NonceService) : NonceService :=
  match s.calls id with
  | some call =>
    let (phase,entry) := call.advance cfg now (s.entries (call.slot cfg))
    { s with
      entries := Function.update s.entries (call.slot cfg) entry
      calls := Function.update s.calls id (some { call with phase := phase }) }
  | none => s

def serve (cfg : NonceConfig) : NonceEvent → NonceService → NonceService
  | .issue server now saved wallet action nonce active, s =>
    s.issue cfg server now saved wallet action nonce active
  | .enter server wallet action nonce consumes, s => s.enter cfg server wallet action nonce consumes
  | .advance id now, s => s.advance cfg id now

def runFrom (cfg : NonceConfig) (events : List NonceEvent) : NonceService :=
  Runs.run (serve cfg) events {}

end NonceService

section Advance

variable {cfg : NonceConfig} {now : ℕ} {entry : Option (Cached StoredNonce)} {call : NonceCall}

def StoredNonce.unmarked (entry : StoredNonce) : StoredNonce := { entry with used := false }

def NoncePhase.holding : NoncePhase → Option StoredNonce
  | .checking found => found
  | .timing _ found | .writing _ found _ => some found
  | _ => none

/-- When a call that is about to mark its nonce has checked it. -/
def NoncePhase.checkedAt : NoncePhase → Option ℕ
  | .marking time | .timing time _ | .writing time _ _ => some time
  | _ => none

/-- The wallet and the action have been compared with those of the entry. -/
def NoncePhase.isChecked : NoncePhase → Prop
  | .marking _ | .timing _ _ | .writing _ _ _ | .validated | .consumed _ => True
  | _ => False

inductive Advanced (cfg : NonceConfig) (now : ℕ) (entry : Option (Cached StoredNonce))
    (call : NonceCall) : NoncePhase × Option (Cached StoredNonce) → Prop
  | looked : Advanced cfg now entry call (.checking (liveNonce now entry),entry)
  | refused (error : NonceError) : Advanced cfg now entry call (.rejected error,entry)
  | checked (found : StoredNonce) (phase : NoncePhase) (held : call.phase.holding = some found)
      (wallet : found.walletAddress = call.wallet) (action : found.action = call.action)
      (inTime : now ≤ found.expiresAt) (next : phase = .marking now ∨ phase = .validated) :
      Advanced cfg now entry call (phase,entry)
  | read (found : StoredNonce) (checkedAt : ℕ) (marking : call.phase = .marking checkedAt)
      (live : liveNonce now entry = some found) (unused : found.used = false) :
      Advanced cfg now entry call (.timing checkedAt found,entry)
  | timed (found : StoredNonce) (checkedAt : ℕ) (ttl : ℤ)
      (timing : call.phase = .timing checkedAt found) :
      Advanced cfg now entry call (.writing checkedAt found ttl,entry)
  | marked (found : StoredNonce) (checkedAt : ℕ) (written : Cached StoredNonce)
      (value : written.value = found.marked)
      (way : (cfg.kind = .memory ∧ call.phase = .marking checkedAt ∧
          liveNonce now entry = some found ∧ found.used = false) ∨
        ∃ ttl, call.phase = .writing checkedAt found ttl) :
      Advanced cfg now entry call (.consumed now,some written)
  | idle (phase : NoncePhase) (same : call.phase = phase) (holds : phase.holding = none)
      (rests : phase.checkedAt = none) : Advanced cfg now entry call (phase,entry)

theorem validateNonce_ok {wallet : String} {action : WalletAction} {found : Option StoredNonce}
    {valid : StoredNonce} (h : validateNonce wallet action now found = .ok valid) :
    found = some valid ∧ valid.walletAddress = wallet ∧ valid.action = action ∧
      now ≤ valid.expiresAt ∧ valid.used = false := by
  cases found with
  | none => cases h
  | some entry =>
    simp only [validateNonce] at h
    split_ifs at h with hwallet haction hexpired hused
    obtain rfl := Except.ok.inj h
    exact ⟨rfl,not_not.mp hwallet,not_not.mp haction,not_lt.mp hexpired,
      Bool.not_eq_true _ ▸ hused⟩

theorem advance_cases : Advanced cfg now entry call (call.advance cfg now entry) := by
  unfold NonceCall.advance
  cases hphase : call.phase with
  | validating => exact .looked
  | checking found =>
    cases hvalid : validateNonce call.wallet call.action now found with
    | error error => simpa [hvalid] using Advanced.refused error
    | ok valid =>
      obtain ⟨rfl,hwallet,haction,htime,-⟩ := validateNonce_ok hvalid
      simp only [hvalid]
      refine .checked valid _ (by rw [hphase]; rfl) hwallet haction htime ?_
      cases call.consumes <;> simp
  | marking checkedAt =>
    cases hlive : liveNonce now entry with
    | none => simpa [hlive] using Advanced.refused .replay
    | some found =>
      cases hused : found.used with
      | true => simpa [hlive,hused] using Advanced.refused .replay
      | false =>
        cases hkind : cfg.kind with
        | memory =>
          simp only [hused]
          exact .marked found checkedAt _ rfl (Or.inl ⟨hkind,hphase,hlive,hused⟩)
        | redis =>
          simp only [hused]
          exact .read found checkedAt hphase hlive hused
  | timing checkedAt found => exact .timed found checkedAt _ hphase
  | writing checkedAt found ttl => exact .marked found checkedAt _ rfl (Or.inr ⟨ttl,hphase⟩)
  | validated => exact .idle _ hphase rfl rfl
  | consumed time => exact .idle _ hphase rfl rfl
  | rejected error => exact .idle _ hphase rfl rfl

end Advance

namespace NonceService

variable {cfg : NonceConfig} {s : NonceService} {id now : ℕ} {call : NonceCall}

/-- The entry is that of a nonce issued into the store of its slot. -/
def Issued (s : NonceService) (slot : ℕ × String) (entry : StoredNonce) : Prop :=
  entry.nonce = slot.2 ∧ (slot.1,entry.unmarked) ∈ s.issued

/-- The call is for the wallet and the action that its nonce was issued to. -/
def Matches (cfg : NonceConfig) (s : NonceService) (call : NonceCall) : Prop :=
  ∃ entry, Issued s (call.slot cfg) entry ∧ entry.walletAddress = call.wallet ∧
    entry.action = call.action

structure Inv (cfg : NonceConfig) (s : NonceService) : Prop where
  fresh : ∀ id, s.next ≤ id → s.calls id = none
  distinct : ∀ r ∈ s.issued, ∀ r' ∈ s.issued, r.2.nonce = r'.2.nonce → r = r'
  stored : ∀ slot c, s.entries slot = some c → Issued s slot c.value
  held : ∀ id call found, s.calls id = some call → call.phase.holding = some found →
    Issued s (call.slot cfg) found
  checked : ∀ id call, s.calls id = some call → call.phase.isChecked → Matches cfg s call
  passed : ∀ id call time, s.calls id = some call → call.phase.checkedAt = some time →
    (∃ entry, Issued s (call.slot cfg) entry ∧ time ≤ entry.expiresAt) ∧
      ∀ found, call.phase.holding = some found → found.used = false
  inTime : ∀ id call time, s.calls id = some call → call.phase = .consumed time →
    ∃ entry, Issued s (call.slot cfg) entry ∧ time ≤ entry.expiresAt
  marked : ∀ id call time, s.calls id = some call → call.phase = .consumed time →
    ∀ slot c, s.entries slot = some c → slot.2 = call.nonce → c.value.used = true
  once : ∀ i j call call' time time', s.calls i = some call → s.calls j = some call' →
    call.phase = .consumed time → call'.phase = .consumed time' → call.nonce = call'.nonce → i = j

/-- A nonce is issued once, so all of its entries agree. -/
theorem Inv.agree (h : Inv cfg s) {slot slot' : ℕ × String} {entry entry' : StoredNonce}
    (he : Issued s slot entry) (he' : Issued s slot' entry') (hnonce : slot.2 = slot'.2) :
    slot = slot' ∧ entry.unmarked = entry'.unmarked := by
  have hsame : entry.nonce = entry'.nonce := he.1.trans (hnonce.trans he'.1.symm)
  have heq := h.distinct _ he.2 _ he'.2 hsame
  exact ⟨Prod.ext (Prod.mk.inj heq).1 hnonce,(Prod.mk.inj heq).2⟩

theorem Inv.setPhase (h : Inv cfg s) (hcall : s.calls id = some call) {phase : NoncePhase}
    (hheld : ∀ found, phase.holding = some found → Issued s (call.slot cfg) found)
    (hchecked : phase.isChecked → Matches cfg s call)
    (hpassed : ∀ time, phase.checkedAt = some time →
      (∃ entry, Issued s (call.slot cfg) entry ∧ time ≤ entry.expiresAt) ∧
        ∀ found, phase.holding = some found → found.used = false)
    (hconsumed : ∀ time, phase = .consumed time → call.phase = .consumed time) :
    Inv cfg { s with calls := Function.update s.calls id (some { call with phase := phase }) } := by
  -- a call that has consumed in the new state has done so in the old one
  have hold : ∀ {other : ℕ} {c : NonceCall} {time : ℕ},
      Function.update s.calls id (some { call with phase := phase }) other = some c →
      c.phase = .consumed time →
      ∃ c', s.calls other = some c' ∧ c'.phase = .consumed time ∧ c'.nonce = c.nonce ∧
        c'.slot cfg = c.slot cfg := by
    intro other c time hc hphase
    rcases update_eq_some.mp hc with ⟨rfl,⟨⟩⟩ | ⟨-,hc'⟩
    · exact ⟨call,hcall,hconsumed time hphase,rfl,rfl⟩
    · exact ⟨c,hc',hphase,rfl,rfl⟩
  refine ⟨fun other hother => ?_,h.distinct,h.stored,fun other c found hc hfound => ?_,
    fun other c hc hisChecked => ?_,fun other c time hc hcheckedAt => ?_,
    fun other c time hc hphase => ?_,fun other c time hc hphase slot e he hslot => ?_,
    fun i j c c' time time' hi hj hc hc' hnonce => ?_⟩
  · have hne : other ≠ id := by
      rintro rfl
      exact absurd ((h.fresh other hother).symm.trans hcall) (by simp)
    exact (Function.update_of_ne hne _ _).trans (h.fresh other hother)
  · rcases update_eq_some.mp hc with ⟨rfl,⟨⟩⟩ | ⟨-,hc'⟩
    · exact hheld found hfound
    · exact h.held other c found hc' hfound
  · rcases update_eq_some.mp hc with ⟨rfl,⟨⟩⟩ | ⟨-,hc'⟩
    · exact hchecked hisChecked
    · exact h.checked other c hc' hisChecked
  · rcases update_eq_some.mp hc with ⟨rfl,⟨⟩⟩ | ⟨-,hc'⟩
    · exact hpassed time hcheckedAt
    · exact h.passed other c time hc' hcheckedAt
  · obtain ⟨c',hc',hphase',-,hslot⟩ := hold hc hphase
    have hin := h.inTime other c' time hc' hphase'
    rwa [hslot] at hin
  · obtain ⟨c',hc',hphase',hnonce,-⟩ := hold hc hphase
    exact h.marked other c' time hc' hphase' slot e he (hslot.trans hnonce.symm)
  · obtain ⟨d,hd,hdphase,hdnonce,-⟩ := hold hi hc
    obtain ⟨d',hd',hdphase',hdnonce',-⟩ := hold hj hc'
    exact h.once i j d d' time time' hd hd' hdphase hdphase'
      (hdnonce.trans (hnonce.trans hdnonce'.symm))

theorem Inv.mark (h : Inv cfg s) (hcall : s.calls id = some call) {found : StoredNonce}
    {written stored : Cached StoredNonce} (hfound : Issued s (call.slot cfg) found)
    (hvalue : written.value = found.marked) (hmatches : Matches cfg s call)
    (hstored : s.entries (call.slot cfg) = some stored) (hunused : stored.value.used = false)
    (htime : now ≤ stored.value.expiresAt) :
    Inv cfg { s with
      entries := Function.update s.entries (call.slot cfg) (some written)
      calls := Function.update s.calls id (some { call with phase := .consumed now }) } := by
  have hnobody : ∀ {other c time}, s.calls other = some c → c.phase = .consumed time →
      c.nonce ≠ call.nonce := by
    intro other c time hc hphase hnonce
    have hused := h.marked other c time hc hphase _ stored hstored hnonce.symm
    exact Bool.false_ne_true (hunused.symm.trans hused)
  have hwritten : Issued s (call.slot cfg) written.value := by
    rw [hvalue]
    exact hfound
  refine ⟨fun other hother => ?_,h.distinct,fun slot e he => ?_,fun other c found hc hheld => ?_,
    fun other c hc hisChecked => ?_,fun other c time hc hcheckedAt => ?_,
    fun other c time hc hphase => ?_,fun other c time hc hphase slot e he hslot => ?_,
    fun i j c c' time time' hi hj hc hc' hnonce => ?_⟩
  · have hne : other ≠ id := by
      rintro rfl
      exact absurd ((h.fresh other hother).symm.trans hcall) (by simp)
    exact (Function.update_of_ne hne _ _).trans (h.fresh other hother)
  · rcases update_eq_some.mp he with ⟨rfl,⟨⟩⟩ | ⟨-,he'⟩
    · exact hwritten
    · exact h.stored slot e he'
  · rcases update_eq_some.mp hc with ⟨rfl,⟨⟩⟩ | ⟨-,hc'⟩
    · cases hheld
    · exact h.held other c found hc' hheld
  · rcases update_eq_some.mp hc with ⟨rfl,⟨⟩⟩ | ⟨-,hc'⟩
    · exact hmatches
    · exact h.checked other c hc' hisChecked
  · rcases update_eq_some.mp hc with ⟨rfl,⟨⟩⟩ | ⟨-,hc'⟩
    · cases hcheckedAt
    · exact h.passed other c time hc' hcheckedAt
  · rcases update_eq_some.mp hc with ⟨rfl,⟨⟩⟩ | ⟨-,hc'⟩
    · obtain rfl := NoncePhase.consumed.inj hphase
      exact ⟨stored.value,h.stored _ _ hstored,htime⟩
    · exact h.inTime other c time hc' hphase
  · rcases update_eq_some.mp he with ⟨rfl,⟨⟩⟩ | ⟨hne,he'⟩
    · rw [hvalue]
      rfl
    · rcases update_eq_some.mp hc with ⟨rfl,⟨⟩⟩ | ⟨-,hc'⟩
      · exact absurd (h.agree (h.stored slot e he') hwritten hslot).1 hne
      · exact h.marked other c time hc' hphase slot e he' hslot
  · rcases update_eq_some.mp hi with ⟨rfl,⟨⟩⟩ | ⟨-,hi'⟩
    · rcases update_eq_some.mp hj with ⟨rfl,⟨⟩⟩ | ⟨-,hj'⟩
      · rfl
      · exact absurd hnonce.symm (hnobody hj' hc')
    · rcases update_eq_some.mp hj with ⟨rfl,⟨⟩⟩ | ⟨-,hj'⟩
      · exact absurd hnonce (hnobody hi' hc)
      · exact h.once i j c c' time time' hi' hj' hc hc' hnonce

/-- `issue` draws a nonce that has not been drawn before. -/
def DrawsFresh (s : NonceService) : NonceEvent → Prop
  | .issue _ _ _ _ _ nonce _ => ∀ r ∈ s.issued, r.2.nonce ≠ nonce
  | _ => True

/-- Nothing comes between two commands of a call that belong together: the nonce does not
expire between its check and its mark, and in Redis its entry stays as it was read until the
mark is written. -/
def Undisturbed (cfg : NonceConfig) (s : NonceService) : NonceEvent → Prop
  | .advance id now => ∀ call, s.calls id = some call →
      match call.phase with
      | .marking checkedAt => cfg.kind = .memory → ∀ entry,
          liveNonce now (s.entries (call.slot cfg)) = some entry → entry.used = false →
          checkedAt ≤ entry.expiresAt → now ≤ entry.expiresAt
      | .writing checkedAt found _ => liveNonce now (s.entries (call.slot cfg)) = some found ∧
          (checkedAt ≤ found.expiresAt → now ≤ found.expiresAt)
      | _ => True
  | _ => True

theorem liveNonce_eq_some {entry : Option (Cached StoredNonce)} {found : StoredNonce}
    (h : liveNonce now entry = some found) : ∃ c, entry = some c ∧ c.value = found := by
  unfold liveNonce at h
  split at h
  · split_ifs at h
    exact ⟨_,rfl,Option.some.inj h⟩
  · cases h

theorem Issued.cons {slot : ℕ × String} {entry : StoredNonce} (h : Issued s slot entry)
    (entries : ℕ × String → Option (Cached StoredNonce)) (r : ℕ × StoredNonce) :
    Issued { s with entries := entries, issued := r :: s.issued } slot entry :=
  ⟨h.1,List.mem_cons_of_mem _ h.2⟩

theorem Inv.issue (h : Inv cfg s) {server saved active : ℕ} {wallet nonce : String}
    {action : WalletAction} (hfresh : ∀ r ∈ s.issued, r.2.nonce ≠ nonce) :
    Inv cfg (s.issue cfg server now saved wallet action nonce active) := by
  unfold NonceService.issue
  split_ifs
  · exact h
  refine ⟨h.fresh,?_,fun slot c hc => ?_,fun other c found hc hheld => (h.held other c found hc hheld).cons _ _,
    fun other c hc hchecked => ?_,fun other c time hc hcheckedAt => ?_,
    fun other c time hc hphase => ?_,fun other c time hc hphase slot e he hslot => ?_,h.once⟩
  · rintro r (_ | ⟨_,hr⟩) r' (_ | ⟨_,hr'⟩) hsame
    · rfl
    · exact absurd hsame.symm (hfresh r' hr')
    · exact absurd hsame (hfresh r hr)
    · exact h.distinct r hr r' hr' hsame
  · rcases update_eq_some.mp hc with ⟨rfl,⟨⟩⟩ | ⟨-,hc'⟩
    · exact ⟨rfl,List.mem_cons_self⟩
    · exact (h.stored slot c hc').cons _ _
  · obtain ⟨entry,hissued,hmatches⟩ := h.checked other c hc hchecked
    exact ⟨entry,hissued.cons _ _,hmatches⟩
  · obtain ⟨⟨entry,hissued,htime⟩,hunused⟩ := h.passed other c time hc hcheckedAt
    exact ⟨⟨entry,hissued.cons _ _,htime⟩,hunused⟩
  · obtain ⟨entry,hissued,htime⟩ := h.inTime other c time hc hphase
    exact ⟨entry,hissued.cons _ _,htime⟩
  · rcases update_eq_some.mp he with ⟨rfl,⟨⟩⟩ | ⟨-,he'⟩
    · obtain ⟨entry,hissued,-⟩ := h.inTime other c time hc hphase
      exact absurd (hissued.1.trans hslot.symm) (hfresh _ hissued.2)
    · exact h.marked other c time hc hphase slot e he' hslot

theorem Inv.enter (h : Inv cfg s) {server : ℕ} {wallet nonce : String} {action : WalletAction}
    {consumes : Bool} : Inv cfg (s.enter cfg server wallet action nonce consumes) := by
  refine ⟨fun other hother => ?_,h.distinct,h.stored,fun other c found hc hheld => ?_,
    fun other c hc hchecked => ?_,fun other c time hc hcheckedAt => ?_,
    fun other c time hc hphase => ?_,fun other c time hc hphase slot e he hslot => ?_,
    fun i j c c' time time' hi hj hc hc' hnonce => ?_⟩
  · have hlt : s.next < other := hother
    exact (Function.update_of_ne hlt.ne' _ _).trans (h.fresh other hlt.le)
  · rcases update_eq_some.mp hc with ⟨rfl,⟨⟩⟩ | ⟨-,hc'⟩
    · cases hheld
    · exact h.held other c found hc' hheld
  · rcases update_eq_some.mp hc with ⟨rfl,⟨⟩⟩ | ⟨-,hc'⟩
    · cases hchecked
    · exact h.checked other c hc' hchecked
  · rcases update_eq_some.mp hc with ⟨rfl,⟨⟩⟩ | ⟨-,hc'⟩
    · cases hcheckedAt
    · exact h.passed other c time hc' hcheckedAt
  · rcases update_eq_some.mp hc with ⟨rfl,⟨⟩⟩ | ⟨-,hc'⟩
    · cases hphase
    · exact h.inTime other c time hc' hphase
  · rcases update_eq_some.mp hc with ⟨rfl,⟨⟩⟩ | ⟨-,hc'⟩
    · cases hphase
    · exact h.marked other c time hc' hphase slot e he hslot
  · rcases update_eq_some.mp hi with ⟨rfl,⟨⟩⟩ | ⟨-,hi'⟩
    · cases hc
    · rcases update_eq_some.mp hj with ⟨rfl,⟨⟩⟩ | ⟨-,hj'⟩
      · cases hc'
      · exact h.once i j c c' time time' hi' hj' hc hc' hnonce

/-- The time of a check is within the life of whatever entry the nonce has. -/
theorem Inv.checkedInTime (h : Inv cfg s) (hcall : s.calls id = some call) {time : ℕ}
    (hchecked : call.phase.checkedAt = some time) {found : StoredNonce}
    (hfound : Issued s (call.slot cfg) found) : time ≤ found.expiresAt := by
  obtain ⟨⟨entry,hissued,htime⟩,-⟩ := h.passed id call time hcall hchecked
  have hexpires := congrArg StoredNonce.expiresAt (h.agree hissued hfound rfl).2
  exact htime.trans_eq hexpires

theorem Inv.live (h : Inv cfg s) {slot : ℕ × String} {found : StoredNonce}
    (hlive : liveNonce now (s.entries slot) = some found) : Issued s slot found := by
  obtain ⟨c,hc,rfl⟩ := liveNonce_eq_some hlive
  exact h.stored _ c hc

/-- The mark is written over an entry that is unused and in time. -/
theorem Inv.written (h : Inv cfg s) (hcalm : Undisturbed cfg s (.advance id now))
    (hcall : s.calls id = some call) {found : StoredNonce} {checkedAt : ℕ}
    {written : Cached StoredNonce} (value : written.value = found.marked)
    (way : (cfg.kind = .memory ∧ call.phase = .marking checkedAt ∧
        liveNonce now (s.entries (call.slot cfg)) = some found ∧ found.used = false) ∨
      ∃ ttl, call.phase = .writing checkedAt found ttl) :
    Inv cfg { s with
      entries := Function.update s.entries (call.slot cfg) (some written)
      calls := Function.update s.calls id (some { call with phase := .consumed now }) } := by
  have hmark := hcalm call hcall
  rcases way with ⟨hkind,hmarking,hlive,hunused⟩ | ⟨ttl,hwriting⟩
  · rw [hmarking] at hmark
    have hchecked := h.checkedInTime hcall (by rw [hmarking]; rfl) (h.live hlive)
    have htime := hmark hkind found hlive hunused hchecked
    obtain ⟨c,hc,rfl⟩ := liveNonce_eq_some hlive
    exact h.mark hcall (h.stored _ c hc) value (h.checked id call hcall (by rw [hmarking]; trivial))
      hc hunused htime
  · rw [hwriting] at hmark
    obtain ⟨hlive,htime⟩ := hmark
    have hchecked := h.checkedInTime hcall (by rw [hwriting]; rfl) (h.live hlive)
    have hunused := (h.passed id call checkedAt hcall (by rw [hwriting]; rfl)).2 found
      (by rw [hwriting]; rfl)
    obtain ⟨c,hc,rfl⟩ := liveNonce_eq_some hlive
    exact h.mark hcall (h.stored _ c hc) value (h.checked id call hcall (by rw [hwriting]; trivial))
      hc hunused (htime hchecked)

theorem Inv.advance (h : Inv cfg s) (hcalm : Undisturbed cfg s (.advance id now)) :
    Inv cfg (s.advance cfg id now) := by
  unfold NonceService.advance
  cases hcall : s.calls id with
  | none => exact h
  | some call =>
    have hstored : ∀ found, liveNonce now (s.entries (call.slot cfg)) = some found →
        Issued s (call.slot cfg) found := fun _ => h.live
    have hadvanced : Advanced cfg now (s.entries (call.slot cfg)) call
      (call.advance cfg now (s.entries (call.slot cfg))) := advance_cases
    dsimp only
    revert hadvanced
    generalize call.advance cfg now (s.entries (call.slot cfg)) = result
    intro hadvanced
    cases hadvanced with
    | looked =>
      simp only [Function.update_eq_self]
      exact h.setPhase hcall hstored nofun nofun nofun
    | refused error =>
      simp only [Function.update_eq_self]
      exact h.setPhase hcall nofun nofun nofun nofun
    | checked found phase held wallet action inTime next =>
      simp only [Function.update_eq_self]
      have hissued := h.held id call found hcall held
      refine h.setPhase hcall ?_ (fun _ => ⟨found,hissued,wallet,action⟩) ?_ ?_
      · rcases next with rfl | rfl <;> exact nofun
      · rcases next with rfl | rfl
        · rintro _ ⟨⟩
          exact ⟨⟨found,hissued,inTime⟩,nofun⟩
        · exact nofun
      · rcases next with rfl | rfl <;> exact nofun
    | read found checkedAt marking live unused =>
      simp only [Function.update_eq_self]
      obtain ⟨hpassed,-⟩ := h.passed id call checkedAt hcall (by rw [marking]; rfl)
      refine h.setPhase hcall ?_ (fun _ => h.checked id call hcall (by rw [marking]; trivial)) ?_
        nofun
      · rintro _ ⟨⟩
        exact hstored found live
      · rintro _ ⟨⟩
        refine ⟨hpassed,?_⟩
        rintro _ ⟨⟩
        exact unused
    | timed found checkedAt ttl timing =>
      simp only [Function.update_eq_self]
      obtain ⟨hpassed,hunused⟩ := h.passed id call checkedAt hcall (by rw [timing]; rfl)
      have hheld : call.phase.holding = some found := by rw [timing]; rfl
      refine h.setPhase hcall ?_ (fun _ => h.checked id call hcall (by rw [timing]; trivial)) ?_
        nofun
      · rintro _ ⟨⟩
        exact h.held id call found hcall hheld
      · rintro _ ⟨⟩
        refine ⟨hpassed,?_⟩
        rintro _ ⟨⟩
        exact hunused found hheld
    | marked found checkedAt written value way => exact h.written hcalm hcall value way
    | idle phase same holds rests =>
      simp only [Function.update_eq_self]
      refine h.setPhase hcall (fun found hfound => ?_) (fun hchecked => ?_) (fun time htime => ?_)
        (fun time htime => ?_)
      · rw [holds] at hfound
        cases hfound
      · exact h.checked id call hcall (same ▸ hchecked)
      · rw [rests] at htime
        cases htime
      · exact same.trans htime

theorem Inv.serve {event : NonceEvent} (h : Inv cfg s) (hdraws : DrawsFresh s event)
    (hcalm : Undisturbed cfg s event) : Inv cfg (serve cfg event s) := by
  cases event with
  | issue server now saved wallet action nonce active => exact h.issue hdraws
  | enter server wallet action nonce consumes => exact h.enter
  | advance id now => exact h.advance hcalm

theorem Inv.initial (cfg : NonceConfig) : Inv cfg {} := by
  have hcalls : ∀ {i : ℕ} {call : NonceCall}, ({} : NonceService).calls i ≠ some call := by
    intro i call h
    cases h
  have hentries : ∀ {slot : ℕ × String} {c : Cached StoredNonce},
      ({} : NonceService).entries slot ≠ some c := by
    intro slot c h
    cases h
  exact ⟨fun _ _ => rfl,fun _ hr => absurd hr List.not_mem_nil,fun _ _ h => absurd h hentries,
    fun _ _ _ h => absurd h hcalls,fun _ _ h => absurd h hcalls,fun _ _ _ h => absurd h hcalls,
    fun _ _ _ h => absurd h hcalls,fun _ _ _ h => absurd h hcalls,
    fun _ _ _ _ _ _ h => absurd h hcalls⟩

/-- In every run of the calls of any number of server instances over either store, in which
drawn nonces are new and nothing comes between the check and the mark of a nonce, or between
the read and the write of a mark, at most one call consumes a nonce, and it is for the wallet
and the action that the nonce was issued to, at a time not after its end. -/
theorem nonce_consumed_once (cfg : NonceConfig) (events : List NonceEvent)
    (hdraws : Runs.Along (NonceService.serve cfg) DrawsFresh {} events)
    (hcalm : Runs.Along (NonceService.serve cfg) (Undisturbed cfg) {} events) :
    (∀ i j call call' time time', (runFrom cfg events).calls i = some call →
      (runFrom cfg events).calls j = some call' → call.phase = .consumed time →
      call'.phase = .consumed time' → call.nonce = call'.nonce → i = j) ∧
    ∀ i call time, (runFrom cfg events).calls i = some call → call.phase = .consumed time →
      (∃ entry, (cfg.shelf call.server,entry) ∈ (runFrom cfg events).issued ∧
        entry.nonce = call.nonce ∧ entry.walletAddress = call.wallet ∧
        entry.action = call.action ∧ time ≤ entry.expiresAt) ∧
      ∀ r ∈ (runFrom cfg events).issued, ∀ r' ∈ (runFrom cfg events).issued,
        r.2.nonce = r'.2.nonce → r = r' := by
  have hstep : ∀ (s : NonceService) event, Inv cfg s → DrawsFresh s event ∧ Undisturbed cfg s event →
      Inv cfg (NonceService.serve cfg event s) := fun s event h hg => h.serve hg.1 hg.2
  have hinv : Inv cfg (runFrom cfg events) := (hdraws.and hcalm).invariant hstep (.initial cfg)
  refine ⟨hinv.once,fun i call time hcall hphase => ⟨?_,hinv.distinct⟩⟩
  obtain ⟨entry,hissued,hwallet,haction⟩ := hinv.checked i call hcall (by rw [hphase]; trivial)
  obtain ⟨entry',hissued',htime⟩ := hinv.inTime i call time hcall hphase
  have hsame : entry.unmarked = entry'.unmarked := (hinv.agree hissued hissued' rfl).2
  have hexpires := congrArg StoredNonce.expiresAt hsame
  exact ⟨entry.unmarked,hissued.2,hissued.1,hwallet,haction,htime.trans_eq hexpires.symm⟩

section Runs

def redisConfig : NonceConfig := { kind := .redis, normalizeWalletAddress := fun s => s, trim := fun s => s }

/-- A nonce is issued to a wallet for a deposit; one call consumes it, and another comes late. -/
def singleUse : List NonceEvent :=
  [.issue 0 0 0 "wallet" .deposit "nonce" 0,.enter 0 "wallet" .deposit "nonce" true,
    .enter 1 "wallet" .deposit "nonce" true,.advance 0 1,.advance 0 2,.advance 0 3,.advance 0 4,
    .advance 0 5,.advance 1 6,.advance 1 7]

theorem singleUse_undisturbed :
    Runs.Along (NonceService.serve redisConfig) (Undisturbed redisConfig) {} singleUse := by
  refine ⟨trivial,trivial,trivial,?_,?_,?_,?_,?_,?_,?_,trivial⟩
  · rintro _ ⟨⟩
    trivial
  · rintro _ ⟨⟩
    trivial
  · rintro _ ⟨⟩ hkind
    cases hkind
  · rintro _ ⟨⟩
    trivial
  · rintro _ ⟨⟩
    exact ⟨rfl,fun _ => by decide⟩
  · rintro _ ⟨⟩
    trivial
  · rintro _ ⟨⟩
    trivial

theorem singleUse_consumed : ∃ entry,
    (redisConfig.shelf 0,entry) ∈ (runFrom redisConfig singleUse).issued ∧
      entry.nonce = "nonce" ∧ entry.walletAddress = "wallet" ∧ entry.action = .deposit ∧
      5 ≤ entry.expiresAt :=
  ((nonce_consumed_once redisConfig singleUse
    ⟨fun _ hr => absurd hr List.not_mem_nil,trivial,trivial,trivial,trivial,trivial,trivial,
      trivial,trivial,trivial,trivial⟩ singleUse_undisturbed).2 0 _ 5 rfl rfl).1

/-- Both calls read the entry before either of them writes its mark. -/
def overlapping : List NonceEvent :=
  [.issue 0 0 0 "wallet" .deposit "nonce" 0,.enter 0 "wallet" .deposit "nonce" true,
    .enter 1 "wallet" .deposit "nonce" true,.advance 0 1,.advance 0 1,.advance 0 1,.advance 1 1,
    .advance 1 1,.advance 1 1,.advance 0 2,.advance 0 2,.advance 1 2,.advance 1 2]

theorem overlapping_consumed_twice : ¬ ∀ (events : List NonceEvent),
    Runs.Along (NonceService.serve redisConfig) DrawsFresh {} events →
    ∀ i j call call' time time', (runFrom redisConfig events).calls i = some call →
      (runFrom redisConfig events).calls j = some call' → call.phase = .consumed time →
      call'.phase = .consumed time' → call.nonce = call'.nonce → i = j := by
  intro h
  have hdraws : Runs.Along (NonceService.serve redisConfig) DrawsFresh {} overlapping :=
    ⟨fun _ hr => absurd hr List.not_mem_nil,trivial,trivial,trivial,trivial,trivial,trivial,trivial,
      trivial,trivial,trivial,trivial,trivial,trivial⟩
  exact absurd (h overlapping hdraws 0 1 _ _ 2 2 rfl rfl rfl rfl rfl) (by decide)

end Runs

end NonceService

end YieldVault.Backend
