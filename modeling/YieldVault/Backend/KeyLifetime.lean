import YieldVault.Backend.Idempotency

/-! One key that nobody deletes, for as long as a stored response lives: at most one
operation is in flight, and none once a response is stored. -/
namespace YieldVault.Backend

def StoreEvent.Within {κ φ ρ ε : Type} (since last : ℕ) : StoreEvent κ φ ρ ε → Prop
  | .execute now _ _ | .fulfil now _ _ => since ≤ now ∧ now ≤ last
  | _ => True

/-- The call's operation has been started and has not returned. -/
def Phase.isOpen {ρ ε : Type} : Phase ρ ε → Prop
  | .running | .settled _ => True
  | _ => False

theorem IdempotencyStore.le_standardTtl (ttlMs : ℕ) : ttlMs ≤ standardTtl ttlMs := by
  unfold standardTtl
  omega

namespace KeyedCalls

variable {κ φ ρ ε : Type} [DecidableEq κ] [DecidableEq φ] {ttlMs since : ℕ} {key : κ}
  {s : KeyedCalls κ φ ρ ε} {event : StoreEvent κ φ ρ ε}

/-- A call of the key that has not returned has the pending entry. -/
def OwnsPending (key : κ) (s : KeyedCalls κ φ ρ ε) : Prop :=
  ∀ id fingerprint phase, s.calls id = some ⟨key,fingerprint,phase⟩ → phase.isOpen →
    ∃ fingerprint, s.store.pendingResponses key = some ⟨fingerprint,id⟩

/-- The entries of a key that nobody deletes, while a response stored since lives. -/
structure Sole (ttlMs since : ℕ) (key : κ) (s : KeyedCalls κ φ ρ ε) : Prop where
  own : s.OwnsPending key
  alive : ∀ entry, s.store.completedResponses key = some entry →
    entry.livetime = 0 ∨ since+ttlMs ≤ entry.livetime
  exclusive : s.store.completedResponses key ≠ none → ∀ id, ¬ InFlight s id key

omit [DecidableEq κ] [DecidableEq φ] in
theorem OwnsPending.unique (h : s.OwnsPending key) {id id' : ℕ} (hid : InFlight s id key)
    (hid' : InFlight s id' key) : id = id' := by
  obtain ⟨fingerprint,hcall⟩ := hid
  obtain ⟨fingerprint',hcall'⟩ := hid'
  obtain ⟨_,hown⟩ := h id fingerprint _ hcall trivial
  obtain ⟨_,hown'⟩ := h id' fingerprint' _ hcall' trivial
  exact congrArg PendingOperation.promise (Option.some.inj (hown.symm.trans hown'))

omit [DecidableEq κ] [DecidableEq φ] in
theorem Sole.getCompleted (h : Sole ttlMs since key s) {now : ℕ} (hnow : now ≤ since+ttlMs)
    {entry : Cached (StoredResponse φ ρ)}
    (hentry : s.store.completedResponses key = some entry) :
    s.store.getCompleted now key = some entry.value := by
  have halive : entry.alive now = true := by
    have hlive := h.alive entry hentry
    simp only [Cached.alive,decide_eq_true_eq]
    omega
  simp [IdempotencyStore.getCompleted,hentry,halive]

section Own

variable {id : ℕ}

omit [DecidableEq κ] [DecidableEq φ] in
/-- Another phase for a call that has not returned leaves the pending entries in order. -/
theorem OwnsPending.update (h : s.OwnsPending key) {other : κ} {fingerprint : φ}
    {before phase : Phase ρ ε} (hcall : s.calls id = some ⟨other,fingerprint,before⟩)
    (hopen : before.isOpen) {store : IdempotencyStore κ φ ρ}
    (hstore : store.pendingResponses = s.store.pendingResponses) :
    OwnsPending key (⟨store,Function.update s.calls id (some ⟨other,fingerprint,phase⟩),s.next⟩ :
      KeyedCalls κ φ ρ ε) := by
  intro id' fingerprint' phase' hcall' hopen'
  rw [hstore]
  rcases update_eq_some.mp hcall' with ⟨rfl,hnew⟩ | ⟨-,hold⟩
  · obtain ⟨rfl,rfl,rfl⟩ := Call.mk.inj (Option.some.inj hnew)
    exact h _ _ _ hcall hopen
  · exact h _ _ _ hold hopen'

theorem OwnsPending.execute (h : s.OwnsPending key) {now : ℕ} {other : κ} {fingerprint : φ} :
    (serve ttlMs (.execute now other fingerprint) s).OwnsPending key := by
  -- a call that finds an entry is not open
  have hanswered : ∀ {answer : Answer ρ} {store : IdempotencyStore κ φ ρ}, answer ≠ .started →
      store.pendingResponses = s.store.pendingResponses →
      OwnsPending key (⟨store,Function.update s.calls s.next
        (some ⟨other,fingerprint,.answered answer⟩),s.next+1⟩ : KeyedCalls κ φ ρ ε) := by
    intro answer store hne hstore id fingerprint' phase hcall hopen
    rw [hstore]
    rcases update_eq_some.mp hcall with ⟨-,hnew⟩ | ⟨-,hold⟩
    · obtain ⟨-,-,rfl⟩ := Call.mk.inj (Option.some.inj hnew)
      cases answer <;> first | exact hopen.elim | exact absurd rfl hne
    · exact h id fingerprint' phase hold hopen
  rcases execute_cases ttlMs now other fingerprint s.next s.store with
    ⟨_,-,⟨-,hex⟩ | ⟨-,hex⟩⟩ | ⟨-,⟨_,-,⟨-,hex⟩ | ⟨-,hex⟩⟩ | ⟨hnone,hex⟩⟩
  all_goals rw [serve_execute hex]
  · exact hanswered nofun rfl
  · exact hanswered nofun rfl
  · exact hanswered nofun rfl
  · exact hanswered nofun rfl
  · intro id fingerprint' phase hcall hopen
    rcases update_eq_some.mp hcall with ⟨rfl,hnew⟩ | ⟨-,hold⟩
    · obtain ⟨rfl,rfl,-⟩ := Call.mk.inj (Option.some.inj hnew)
      exact ⟨_,Function.update_self _ _ _⟩
    · obtain ⟨fingerprint'',hown⟩ := h id fingerprint' phase hold hopen
      have hkey : key ≠ other := by
        rintro rfl
        exact absurd (hnone.symm.trans hown) (by simp)
      exact ⟨fingerprint'',(Function.update_of_ne hkey _ _).trans hown⟩

theorem OwnsPending.release (h : s.OwnsPending key) :
    (serve ttlMs (.release id) s).OwnsPending key := by
  rcases release_cases id s with ⟨other,fingerprint,outcome,hcall,hs⟩ | ⟨-,hs⟩
  · rw [serve,hs]
    intro id' fingerprint' phase hcall' hopen
    rcases update_eq_some.mp hcall' with ⟨rfl,hnew⟩ | ⟨hid,hold⟩
    · obtain ⟨-,-,rfl⟩ := Call.mk.inj (Option.some.inj hnew)
      exact hopen.elim
    · obtain ⟨fingerprint'',hown⟩ := h id' fingerprint' phase hold hopen
      have hkey : key ≠ other := by
        rintro rfl
        obtain ⟨_,hmine⟩ := h id fingerprint _ hcall trivial
        exact hid (congrArg PendingOperation.promise (Option.some.inj (hown.symm.trans hmine)))
      exact ⟨fingerprint'',(Function.update_of_ne hkey _ _).trans hown⟩
  · rw [serve,hs]
    exact h

theorem OwnsPending.serve (h : s.OwnsPending key) (hdelete : ¬ Deletes key event) :
    (serve ttlMs event s).OwnsPending key := by
  cases event with
  | execute now other fingerprint => exact h.execute
  | fulfil now id result =>
    rcases fulfil_cases ttlMs now id result s with ⟨_,_,hcall,hs⟩ | hs
    · rw [KeyedCalls.serve,hs]
      exact h.update hcall trivial rfl
    · rw [KeyedCalls.serve,hs]
      exact h
  | reject id error =>
    rcases reject_cases id error s with ⟨_,_,hcall,hs⟩ | hs
    · rw [KeyedCalls.serve,hs]
      exact h.update hcall trivial rfl
    · rw [KeyedCalls.serve,hs]
      exact h
  | release id => exact h.release
  | deleteKey other =>
    have hkey : key ≠ other := fun heq => hdelete heq.symm
    intro id fingerprint phase hcall hopen
    obtain ⟨fingerprint',hown⟩ := h id fingerprint phase hcall hopen
    exact ⟨fingerprint',(Function.update_of_ne hkey _ _).trans hown⟩
  | clear => exact absurd trivial hdelete

end Own

/-- What a step leaves in flight was in flight, or has just been started where no response
is stored. -/
theorem inFlight_of_serve {id : ℕ} (h : InFlight (serve ttlMs event s) id key) :
    InFlight s id key ∨ ∃ now fingerprint, event = .execute now key fingerprint ∧
      s.store.getCompleted now key = none ∧
      (serve ttlMs event s).store.completedResponses = s.store.completedResponses := by
  obtain ⟨fingerprint,hcall⟩ := h
  cases event with
  | execute now other fingerprint' =>
    rcases execute_cases ttlMs now other fingerprint' s.next s.store with
      ⟨_,-,⟨-,hex⟩ | ⟨-,hex⟩⟩ | ⟨hget,⟨_,-,⟨-,hex⟩ | ⟨-,hex⟩⟩ | ⟨-,hex⟩⟩
    all_goals
      rw [serve_execute hex] at hcall ⊢
      rcases update_eq_some.mp hcall with ⟨-,hnew⟩ | ⟨-,hold⟩
    · cases hnew
    · exact Or.inl ⟨fingerprint,hold⟩
    · cases hnew
    · exact Or.inl ⟨fingerprint,hold⟩
    · cases hnew
    · exact Or.inl ⟨fingerprint,hold⟩
    · cases hnew
    · exact Or.inl ⟨fingerprint,hold⟩
    · obtain ⟨rfl,-,-⟩ := Call.mk.inj (Option.some.inj hnew)
      exact Or.inr ⟨now,fingerprint',rfl,hget,rfl⟩
    · exact Or.inl ⟨fingerprint,hold⟩
  | fulfil now other result =>
    rcases fulfil_cases ttlMs now other result s with ⟨_,_,-,hs⟩ | hs
    · rw [serve,hs] at hcall
      rcases update_eq_some.mp hcall with ⟨-,⟨⟩⟩ | ⟨-,hold⟩
      exact Or.inl ⟨fingerprint,hold⟩
    · rw [serve,hs] at hcall
      exact Or.inl ⟨fingerprint,hcall⟩
  | reject other error =>
    rcases reject_cases other error s with ⟨_,_,-,hs⟩ | hs
    · rw [serve,hs] at hcall
      rcases update_eq_some.mp hcall with ⟨-,⟨⟩⟩ | ⟨-,hold⟩
      exact Or.inl ⟨fingerprint,hold⟩
    · rw [serve,hs] at hcall
      exact Or.inl ⟨fingerprint,hcall⟩
  | release other =>
    rcases release_cases other s with ⟨_,_,_,-,hs⟩ | ⟨-,hs⟩
    · rw [serve,hs] at hcall
      rcases update_eq_some.mp hcall with ⟨-,⟨⟩⟩ | ⟨-,hold⟩
      exact Or.inl ⟨fingerprint,hold⟩
    · rw [serve,hs] at hcall
      exact Or.inl ⟨fingerprint,hcall⟩
  | deleteKey other => exact Or.inl ⟨fingerprint,hcall⟩
  | clear => exact Or.inl ⟨fingerprint,hcall⟩

/-- Who writes the stored response of a key: a replay, which keeps it, a completing
operation of the key, and a deletion. -/
theorem completed_serve (ttlMs : ℕ) (key : κ) (event : StoreEvent κ φ ρ ε)
    (s : KeyedCalls κ φ ρ ε) :
    (serve ttlMs event s).store.completedResponses key = s.store.completedResponses key ∨
      (∃ now fingerprint entry, event = .execute now key fingerprint ∧
        s.store.completedResponses key = some entry ∧
        (serve ttlMs event s).store.completedResponses key =
          some ⟨entry.value,now+IdempotencyStore.standardTtl ttlMs⟩) ∨
      (∃ now id fingerprint result, event = .fulfil now id result ∧
        s.calls id = some ⟨key,fingerprint,.running⟩ ∧
        (serve ttlMs event s).store.completedResponses key =
          some ⟨⟨fingerprint,result⟩,if ttlMs = 0 then 0 else now+ttlMs⟩) ∨
      Deletes key event := by
  cases event with
  | execute now other fingerprint =>
    rcases execute_cases ttlMs now other fingerprint s.next s.store with
      ⟨stored,hget,⟨-,hex⟩ | ⟨-,hex⟩⟩ | ⟨-,⟨_,-,⟨-,hex⟩ | ⟨-,hex⟩⟩ | ⟨-,hex⟩⟩
    · rw [serve_execute hex]
      by_cases hkey : key = other
      · subst hkey
        obtain ⟨entry,hentry,rfl,-⟩ := getCompleted_eq_some hget
        exact Or.inr (Or.inl ⟨now,fingerprint,entry,rfl,hentry,Function.update_self _ _ _⟩)
      · exact Or.inl (Function.update_of_ne hkey _ _)
    all_goals
      rw [serve_execute hex]
      exact Or.inl rfl
  | fulfil now id result =>
    rcases fulfil_cases ttlMs now id result s with ⟨other,fingerprint,hcall,hs⟩ | hs
    · rw [serve,hs]
      by_cases hkey : key = other
      · subst hkey
        exact Or.inr (Or.inr (Or.inl ⟨now,id,fingerprint,result,rfl,hcall,
          Function.update_self _ _ _⟩))
      · exact Or.inl (Function.update_of_ne hkey _ _)
    · exact Or.inl (by rw [serve,hs])
  | reject id error =>
    rcases reject_cases id error s with ⟨_,_,-,hs⟩ | hs <;> exact Or.inl (by rw [serve,hs])
  | release id =>
    rcases release_cases id s with ⟨_,_,_,-,hs⟩ | ⟨-,hs⟩ <;>
    · rw [serve,hs]
      exact Or.inl rfl
  | deleteKey other =>
    by_cases hkey : other = key
    · exact Or.inr (Or.inr (Or.inr hkey))
    · exact Or.inl (Function.update_of_ne (Ne.symm hkey) _ _)
  | clear => exact Or.inr (Or.inr (Or.inr trivial))

theorem serve_fulfil {now id : ℕ} {fingerprint : φ} {result : ρ}
    (hcall : s.calls id = some ⟨key,fingerprint,.running⟩) :
    serve ttlMs (.fulfil now id result) s =
      ⟨s.store.complete ttlMs now key ⟨fingerprint,result⟩,
        Function.update s.calls id (some ⟨key,fingerprint,.settled (.ok result)⟩),s.next⟩ := by
  simp only [serve,KeyedCalls.fulfil,hcall]

theorem not_inFlight_fulfil {now id : ℕ} {fingerprint : φ} {result : ρ}
    (hcall : s.calls id = some ⟨key,fingerprint,.running⟩) :
    ¬ InFlight (serve ttlMs (.fulfil now id result) s) id key := by
  rw [serve_fulfil hcall]
  rintro ⟨fingerprint',hcall'⟩
  rcases update_eq_some.mp hcall' with ⟨-,⟨⟩⟩ | ⟨hne,-⟩
  exact hne rfl

theorem Sole.serve (h : Sole ttlMs since key s) (hdelete : ¬ Deletes key event)
    (hwithin : event.Within since (since+ttlMs)) : Sole ttlMs since key (serve ttlMs event s) := by
  refine ⟨h.own.serve hdelete,fun entry hentry => ?_,fun hne id hflight => ?_⟩
  · rcases completed_serve ttlMs key event s with
      hsame | ⟨now,_,old,rfl,hold,hnew⟩ | ⟨now,_,_,result,rfl,-,hnew⟩ | hdeleted
    · exact h.alive entry (hsame ▸ hentry)
    · obtain rfl := Option.some.inj (hnew.symm.trans hentry)
      have httl := IdempotencyStore.le_standardTtl ttlMs
      have hsince : since ≤ now := hwithin.1
      exact Or.inr (by dsimp only; omega)
    · obtain rfl := Option.some.inj (hnew.symm.trans hentry)
      have hsince : since ≤ now := hwithin.1
      dsimp only
      split_ifs with hzero
      · exact Or.inl rfl
      · exact Or.inr (by omega)
    · exact absurd hdeleted hdelete
  · rcases inFlight_of_serve hflight with hold | ⟨now,_,rfl,hget,hcompleted⟩
    · rcases completed_serve ttlMs key event s with
        hsame | ⟨_,_,_,-,hstored,-⟩ | ⟨now,other,_,result,rfl,hrunning,-⟩ | hdeleted
      · exact h.exclusive (hsame ▸ hne) id hold
      · exact h.exclusive (by simp [hstored]) id hold
      · obtain rfl := h.own.unique hold ⟨_,hrunning⟩
        exact not_inFlight_fulfil hrunning hflight
      · exact absurd hdeleted hdelete
    · obtain ⟨entry,hentry⟩ := Option.ne_none_iff_exists'.mp (hcompleted ▸ hne)
      exact absurd ((h.getCompleted hwithin.2 hentry).symm.trans hget) (by simp)

def Stores (s : KeyedCalls κ φ ρ ε) (key : κ) (stored : StoredResponse φ ρ) : Prop :=
  ∃ entry, s.store.completedResponses key = some entry ∧ entry.value = stored

theorem stores_fulfil {now id : ℕ} {fingerprint : φ} {result : ρ}
    (hcall : s.calls id = some ⟨key,fingerprint,.running⟩) :
    (serve ttlMs (.fulfil now id result) s).Stores key ⟨fingerprint,result⟩ := by
  rw [serve_fulfil hcall]
  exact ⟨_,Function.update_self _ _ _,rfl⟩

/-- From then on it lives, and no operation of the key is in flight. -/
theorem OwnsPending.sole_fulfil (h : s.OwnsPending key) {now id : ℕ} {fingerprint : φ}
    {result : ρ} (hcall : s.calls id = some ⟨key,fingerprint,.running⟩) :
    Sole ttlMs now key (KeyedCalls.serve ttlMs (.fulfil now id result) s) := by
  have hdelete : ¬ Deletes key (.fulfil now id result : StoreEvent κ φ ρ ε) := fun hd => hd
  refine ⟨h.serve hdelete,fun entry hentry => ?_,fun _ other hflight => ?_⟩
  · rw [serve_fulfil hcall] at hentry
    rcases IdempotencyStore.setCompleted_eq_some.mp hentry with ⟨-,⟨⟩⟩ | ⟨hne,-⟩
    · dsimp only
      split_ifs with hzero
      · exact Or.inl rfl
      · exact Or.inr le_rfl
    · exact absurd rfl hne
  · rcases inFlight_of_serve hflight with hold | ⟨_,_,⟨⟩,-⟩
    obtain rfl := h.unique hold ⟨_,hcall⟩
    exact not_inFlight_fulfil hcall hflight

theorem Stores.serve {stored : StoredResponse φ ρ} (hstored : s.Stores key stored)
    (h : Sole ttlMs since key s) (hdelete : ¬ Deletes key event) :
    (serve ttlMs event s).Stores key stored := by
  obtain ⟨entry,hentry,rfl⟩ := hstored
  rcases completed_serve ttlMs key event s with
    hsame | ⟨now,_,old,-,hold,hnew⟩ | ⟨_,id,_,_,-,hrunning,-⟩ | hdeleted
  · exact ⟨entry,hsame.trans hentry,rfl⟩
  · obtain rfl := Option.some.inj (hold.symm.trans hentry)
    exact ⟨_,hnew,rfl⟩
  · exact absurd ⟨_,hrunning⟩ (h.exclusive (by simp [hentry]) id)
  · exact absurd hdeleted hdelete

end KeyedCalls

end YieldVault.Backend
