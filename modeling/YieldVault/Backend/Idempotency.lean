import YieldVault.Runs

/-! The store of idempotency keys. An operation runs once for a key: its result is kept
for later calls with the key, and calls made meanwhile wait for it. The code between two
awaits is one step, and the steps of all calls interleave. -/
namespace YieldVault.Backend

theorem update_eq_some {α β : Type} [DecidableEq α] {f : α → Option β} {a b : α} {x : Option β}
    {y : β} : Function.update f a x b = some y ↔ b = a ∧ x = some y ∨ b ≠ a ∧ f b = some y := by
  by_cases h : b = a
  · subst h
    simp
  · simp [h]

/-- A value in the cache and the time it lives until; 0 stands for no limit. -/
structure Cached (α : Type) where
  value : α
  livetime : ℕ

def Cached.alive {α : Type} (now : ℕ) (entry : Cached α) : Bool :=
  decide (entry.livetime = 0 ∨ now ≤ entry.livetime)

structure StoredResponse (φ ρ : Type) where
  fingerprint : φ
  result : ρ

structure PendingOperation (φ : Type) where
  fingerprint : φ
  promise : ℕ

/-- What `execute` finds; the number is the call whose operation is awaited. -/
inductive Answer (ρ : Type)
  | replayed (result : ρ)
  | conflict
  | waiting (promise : ℕ)
  | started

inductive Phase (ρ ε : Type)
  | answered (answer : Answer ρ)
  | settled (outcome : Except ε ρ)
  | returned (outcome : Except ε ρ)

@[match_pattern] abbrev Phase.running {ρ ε : Type} : Phase ρ ε := .answered .started

def Phase.isOwn {ρ ε : Type} : Phase ρ ε → Prop
  | .running | .settled _ | .returned _ => True
  | _ => False

structure IdempotencyStore (κ φ ρ : Type) where
  completedResponses : κ → Option (Cached (StoredResponse φ ρ)) := fun _ => none
  pendingResponses : κ → Option (PendingOperation φ) := fun _ => none

namespace IdempotencyStore

variable {κ φ ρ : Type} [DecidableEq κ]

def getCompleted (now : ℕ) (key : κ) (store : IdempotencyStore κ φ ρ) :
    Option (StoredResponse φ ρ) :=
  match store.completedResponses key with
  | some entry => if entry.alive now then some entry.value else none
  | none => none

def setCompleted (key : κ) (entry : Cached (StoredResponse φ ρ))
    (store : IdempotencyStore κ φ ρ) : IdempotencyStore κ φ ρ :=
  { store with completedResponses := Function.update store.completedResponses key (some entry) }

def setPending (key : κ) (entry : Option (PendingOperation φ)) (store : IdempotencyStore κ φ ρ) :
    IdempotencyStore κ φ ρ :=
  { store with pendingResponses := Function.update store.pendingResponses key entry }

theorem setCompleted_eq_some {key other : κ} {entry e : Cached (StoredResponse φ ρ)}
    {store : IdempotencyStore κ φ ρ} :
    (store.setCompleted other entry).completedResponses key = some e ↔
      key = other ∧ some entry = some e ∨ key ≠ other ∧ store.completedResponses key = some e :=
  update_eq_some

theorem setPending_eq_some {key other : κ} {entry : Option (PendingOperation φ)}
    {e : PendingOperation φ} {store : IdempotencyStore κ φ ρ} :
    (store.setPending other entry).pendingResponses key = some e ↔
      key = other ∧ entry = some e ∨ key ≠ other ∧ store.pendingResponses key = some e :=
  update_eq_some

/-- The cache's own time to live, in whole seconds, given in milliseconds. -/
def standardTtl (ttlMs : ℕ) : ℕ := max 1 ((ttlMs+999)/1000)*1000

/-- `set(key, stored, ttlMs / 1000)`, where a time to live of 0 means no limit. -/
def complete (ttlMs now : ℕ) (key : κ) (stored : StoredResponse φ ρ)
    (store : IdempotencyStore κ φ ρ) : IdempotencyStore κ φ ρ :=
  store.setCompleted key ⟨stored,if ttlMs = 0 then 0 else now+ttlMs⟩

/-- `execute` up to its first await, for the call of the given number. -/
def execute [DecidableEq φ] (ttlMs now : ℕ) (key : κ) (fingerprint : φ) (call : ℕ)
    (store : IdempotencyStore κ φ ρ) : Answer ρ × IdempotencyStore κ φ ρ :=
  match store.getCompleted now key with
  | some completed =>
    if completed.fingerprint = fingerprint then
      -- the entry is set again, with the cache's own time to live
      (.replayed completed.result,store.setCompleted key ⟨completed,now+standardTtl ttlMs⟩)
    else (.conflict,store)
  | none =>
    match store.pendingResponses key with
    | some pending =>
      if pending.fingerprint = fingerprint then (.waiting pending.promise,store)
      else (.conflict,store)
    | none => (.started,store.setPending key (some ⟨fingerprint,call⟩))

/-- The `finally` of `execute`: the pending entry is removed by its key. -/
def release (key : κ) (store : IdempotencyStore κ φ ρ) : IdempotencyStore κ φ ρ :=
  store.setPending key none

/-- Whether there was such a key, and the store without it. -/
def deleteKey (key : κ) (store : IdempotencyStore κ φ ρ) : Bool × IdempotencyStore κ φ ρ :=
  ((store.completedResponses key).isSome || (store.pendingResponses key).isSome,
    ⟨Function.update store.completedResponses key none,
      Function.update store.pendingResponses key none⟩)

def clear (_ : IdempotencyStore κ φ ρ) : IdempotencyStore κ φ ρ := {}

end IdempotencyStore

structure Call (κ φ ρ ε : Type) where
  key : κ
  fingerprint : φ
  phase : Phase ρ ε

structure KeyedCalls (κ φ ρ ε : Type) where
  store : IdempotencyStore κ φ ρ := {}
  calls : ℕ → Option (Call κ φ ρ ε) := fun _ => none
  next : ℕ := 0

inductive StoreEvent (κ φ ρ ε : Type)
  | execute (now : ℕ) (key : κ) (fingerprint : φ)
  | fulfil (now call : ℕ) (result : ρ)
  | reject (call : ℕ) (error : ε)
  | release (call : ℕ)
  | deleteKey (key : κ)
  | clear

/-- What the operation of a call has come to. -/
def Phase.outcome {ρ ε : Type} : Phase ρ ε → Option (Except ε ρ)
  | .settled outcome | .returned outcome => some outcome
  | .answered _ => none

namespace KeyedCalls

variable {κ φ ρ ε : Type} [DecidableEq κ] [DecidableEq φ]

/-- A call of `execute` gets the next number. -/
def execute (ttlMs now : ℕ) (key : κ) (fingerprint : φ) (s : KeyedCalls κ φ ρ ε) :
    KeyedCalls κ φ ρ ε :=
  let (answer,store) := s.store.execute ttlMs now key fingerprint s.next
  ⟨store,Function.update s.calls s.next (some ⟨key,fingerprint,.answered answer⟩),s.next+1⟩

/-- The operation of a call completes and its result is stored. -/
def fulfil (ttlMs now id : ℕ) (result : ρ) (s : KeyedCalls κ φ ρ ε) : KeyedCalls κ φ ρ ε :=
  match s.calls id with
  | some ⟨key,fingerprint,.running⟩ =>
    ⟨s.store.complete ttlMs now key ⟨fingerprint,result⟩,
      Function.update s.calls id (some ⟨key,fingerprint,.settled (.ok result)⟩),s.next⟩
  | _ => s

def reject (id : ℕ) (error : ε) (s : KeyedCalls κ φ ρ ε) : KeyedCalls κ φ ρ ε :=
  match s.calls id with
  | some ⟨key,fingerprint,.running⟩ =>
    ⟨s.store,Function.update s.calls id (some ⟨key,fingerprint,.settled (.error error)⟩),s.next⟩
  | _ => s

def release (id : ℕ) (s : KeyedCalls κ φ ρ ε) : KeyedCalls κ φ ρ ε :=
  match s.calls id with
  | some ⟨key,fingerprint,.settled outcome⟩ =>
    ⟨s.store.release key,
      Function.update s.calls id (some ⟨key,fingerprint,.returned outcome⟩),s.next⟩
  | _ => s

/-- One step; an event that does not fit the state changes nothing. -/
def serve (ttlMs : ℕ) : StoreEvent κ φ ρ ε → KeyedCalls κ φ ρ ε → KeyedCalls κ φ ρ ε
  | .execute now key fingerprint, s => s.execute ttlMs now key fingerprint
  | .fulfil now id result, s => s.fulfil ttlMs now id result
  | .reject id error, s => s.reject id error
  | .release id, s => s.release id
  | .deleteKey key, s => { s with store := (s.store.deleteKey key).2 }
  | .clear, s => { s with store := s.store.clear }

def outcome (s : KeyedCalls κ φ ρ ε) (id : ℕ) : Option (Except ε ρ) :=
  (s.calls id).bind fun call => call.phase.outcome

def response (s : KeyedCalls κ φ ρ ε) (id : ℕ) : Option (Except ε ρ) :=
  match s.calls id with
  | some ⟨_,_,.answered (.replayed result)⟩ => some (.ok result)
  | some ⟨_,_,.answered (.waiting promise)⟩ => s.outcome promise
  | some ⟨_,_,.returned outcome⟩ => some outcome
  | _ => none

section Steps

variable {ttlMs id now : ℕ} {key : κ} {fingerprint : φ} {event : StoreEvent κ φ ρ ε}
  {s : KeyedCalls κ φ ρ ε}

omit [DecidableEq φ] in
theorem fulfil_cases (ttlMs now id : ℕ) (result : ρ) (s : KeyedCalls κ φ ρ ε) :
    (∃ key fingerprint, s.calls id = some ⟨key,fingerprint,.running⟩ ∧
      s.fulfil ttlMs now id result =
        ⟨s.store.complete ttlMs now key ⟨fingerprint,result⟩,
          Function.update s.calls id (some ⟨key,fingerprint,.settled (.ok result)⟩),s.next⟩) ∨
    s.fulfil ttlMs now id result = s := by
  unfold fulfil
  split
  · exact Or.inl ⟨_,_,‹_›,rfl⟩
  · exact Or.inr rfl

omit [DecidableEq κ] [DecidableEq φ] in
theorem reject_cases (id : ℕ) (error : ε) (s : KeyedCalls κ φ ρ ε) :
    (∃ key fingerprint, s.calls id = some ⟨key,fingerprint,.running⟩ ∧
      s.reject id error =
        ⟨s.store,Function.update s.calls id (some ⟨key,fingerprint,.settled (.error error)⟩),
          s.next⟩) ∨
    s.reject id error = s := by
  unfold reject
  split
  · exact Or.inl ⟨_,_,‹_›,rfl⟩
  · exact Or.inr rfl

omit [DecidableEq φ] in
theorem release_cases (id : ℕ) (s : KeyedCalls κ φ ρ ε) :
    (∃ key fingerprint outcome, s.calls id = some ⟨key,fingerprint,.settled outcome⟩ ∧
      s.release id =
        ⟨s.store.release key,
          Function.update s.calls id (some ⟨key,fingerprint,.returned outcome⟩),s.next⟩) ∨
    (∀ key fingerprint outcome, s.calls id ≠ some ⟨key,fingerprint,.settled outcome⟩) ∧
      s.release id = s := by
  unfold release
  split
  · exact Or.inl ⟨_,_,_,‹_›,rfl⟩
  · exact Or.inr ⟨‹_›,rfl⟩

theorem serve_execute {ttlMs now : ℕ} {key : κ} {fingerprint : φ} {s : KeyedCalls κ φ ρ ε}
    {answer : Answer ρ} {store : IdempotencyStore κ φ ρ}
    (h : s.store.execute ttlMs now key fingerprint s.next = (answer,store)) :
    serve ttlMs (.execute now key fingerprint) s =
      ⟨store,Function.update s.calls s.next (some ⟨key,fingerprint,.answered answer⟩),
        s.next+1⟩ := by
  simp [serve,execute,h]

theorem execute_cases (ttlMs now : ℕ) (key : κ) (fingerprint : φ) (call : ℕ)
    (store : IdempotencyStore κ φ ρ) :
    (∃ stored, store.getCompleted now key = some stored ∧
      (stored.fingerprint = fingerprint ∧
          store.execute ttlMs now key fingerprint call = (.replayed stored.result,
            store.setCompleted key ⟨stored,now+IdempotencyStore.standardTtl ttlMs⟩) ∨
        stored.fingerprint ≠ fingerprint ∧
          store.execute ttlMs now key fingerprint call = (.conflict,store))) ∨
    store.getCompleted now key = none ∧
      ((∃ pending, store.pendingResponses key = some pending ∧
        (pending.fingerprint = fingerprint ∧
            store.execute ttlMs now key fingerprint call =
              (.waiting pending.promise,store) ∨
          pending.fingerprint ≠ fingerprint ∧
            store.execute ttlMs now key fingerprint call = (.conflict,store))) ∨
      store.pendingResponses key = none ∧
        store.execute ttlMs now key fingerprint call =
          (.started,store.setPending key (some ⟨fingerprint,call⟩))) := by
  unfold IdempotencyStore.execute
  cases hc : store.getCompleted now key with
  | some stored => by_cases hf : stored.fingerprint = fingerprint <;> simp [hf]
  | none =>
    cases hp : store.pendingResponses key with
    | some pending => by_cases hf : pending.fingerprint = fingerprint <;> simp [hf]
    | none => simp

/-- The operation that the call has started has neither completed nor failed. -/
def InFlight (s : KeyedCalls κ φ ρ ε) (id : ℕ) (key : κ) : Prop :=
  ∃ fingerprint, s.calls id = some ⟨key,fingerprint,.running⟩

def Starts (ttlMs : ℕ) (key : κ) (id : ℕ) (s : KeyedCalls κ φ ρ ε)
    (event : StoreEvent κ φ ρ ε) : Prop :=
  ∃ now fingerprint, event = .execute now key fingerprint ∧ id = s.next ∧
    InFlight (serve ttlMs event s) id key

def Deletes (key : κ) : StoreEvent κ φ ρ ε → Prop
  | .deleteKey other => other = key
  | .clear => True
  | _ => False

/-- A finishing operation finds its own pending entry under its key, or none. -/
def ReleasesOwn (s : KeyedCalls κ φ ρ ε) : StoreEvent κ φ ρ ε → Prop
  | .release id => ∀ key fingerprint outcome,
      s.calls id = some ⟨key,fingerprint,.settled outcome⟩ →
      ∀ pending, s.store.pendingResponses key = some pending → pending.promise = id
  | _ => True

/-- As long as the call's operation is in flight, its entry is the pending one. -/
def Holds (s : KeyedCalls κ φ ρ ε) (id : ℕ) (key : κ) : Prop :=
  InFlight s id key → ∃ fingerprint, s.store.pendingResponses key = some ⟨fingerprint,id⟩

/-- Calls get new numbers, and a call that has been made changes only as its operation
settles and returns. -/
theorem serve_calls (ttlMs : ℕ) (event : StoreEvent κ φ ρ ε) (hid : id < s.next) :
    (serve ttlMs event s).calls id = s.calls id ∨
      ∃ key fingerprint outcome,
        s.calls id = some ⟨key,fingerprint,.running⟩ ∧
          (serve ttlMs event s).calls id = some ⟨key,fingerprint,.settled outcome⟩ ∨
        s.calls id = some ⟨key,fingerprint,.settled outcome⟩ ∧ event = .release id ∧
          (serve ttlMs event s).calls id = some ⟨key,fingerprint,.returned outcome⟩ := by
  cases event with
  | execute now key fingerprint => exact Or.inl (Function.update_of_ne hid.ne _ _)
  | fulfil now other result =>
    rcases fulfil_cases ttlMs now other result s with ⟨key,fingerprint,hcall,hs⟩ | hs
    · rw [serve,hs]
      by_cases h : id = other
      · subst h
        exact Or.inr ⟨key,fingerprint,_,Or.inl ⟨hcall,Function.update_self _ _ _⟩⟩
      · exact Or.inl (Function.update_of_ne h _ _)
    · exact Or.inl (by rw [serve,hs])
  | reject other error =>
    rcases reject_cases other error s with ⟨key,fingerprint,hcall,hs⟩ | hs
    · rw [serve,hs]
      by_cases h : id = other
      · subst h
        exact Or.inr ⟨key,fingerprint,_,Or.inl ⟨hcall,Function.update_self _ _ _⟩⟩
      · exact Or.inl (Function.update_of_ne h _ _)
    · exact Or.inl (by rw [serve,hs])
  | release other =>
    rcases release_cases other s with ⟨key,fingerprint,outcome,hcall,hs⟩ | ⟨-,hs⟩
    · rw [serve,hs]
      by_cases h : id = other
      · subst h
        exact Or.inr ⟨key,fingerprint,outcome,Or.inr ⟨hcall,rfl,Function.update_self _ _ _⟩⟩
      · exact Or.inl (Function.update_of_ne h _ _)
    · exact Or.inl (by rw [serve,hs])
  | deleteKey key => exact Or.inl rfl
  | clear => exact Or.inl rfl

/-- An operation settles when its own event comes, with what that event carries. -/
theorem settled_of_serve {fingerprint' : φ} {outcome : Except ε ρ} (hid : id < s.next)
    (hrunning : s.calls id = some ⟨key,fingerprint,.running⟩)
    (h : (serve ttlMs event s).calls id = some ⟨key,fingerprint',.settled outcome⟩) :
    (∃ now result, event = .fulfil now id result ∧ outcome = .ok result) ∨
      ∃ error, event = .reject id error ∧ outcome = .error error := by
  have hsame : (serve ttlMs event s).calls id ≠ s.calls id := by
    rw [h,hrunning]
    simp
  cases event with
  | execute now other fingerprint => exact absurd (Function.update_of_ne hid.ne _ _) hsame
  | fulfil now other result =>
    rcases fulfil_cases ttlMs now other result s with ⟨_,_,hcall,hs⟩ | hs
    · rw [serve,hs] at h hsame
      by_cases hother : id = other
      · subst hother
        simp only [Function.update_self,Option.some.injEq,Call.mk.injEq,Phase.settled.injEq] at h
        exact Or.inl ⟨now,result,rfl,h.2.2.symm⟩
      · exact absurd (Function.update_of_ne hother _ _) hsame
    · exact absurd (by rw [serve,hs]) hsame
  | reject other error =>
    rcases reject_cases other error s with ⟨_,_,hcall,hs⟩ | hs
    · rw [serve,hs] at h hsame
      by_cases hother : id = other
      · subst hother
        simp only [Function.update_self,Option.some.injEq,Call.mk.injEq,Phase.settled.injEq] at h
        exact Or.inr ⟨error,rfl,h.2.2.symm⟩
      · exact absurd (Function.update_of_ne hother _ _) hsame
    · exact absurd (by rw [serve,hs]) hsame
  | release other =>
    rcases release_cases other s with ⟨_,_,_,hcall,hs⟩ | ⟨-,hs⟩
    · rw [serve,hs] at hsame
      refine absurd (Function.update_of_ne ?_ _ _) hsame
      rintro rfl
      exact absurd (hrunning.symm.trans hcall) (by simp)
    · exact absurd (by rw [serve,hs]) hsame
  | deleteKey other => exact absurd rfl hsame
  | clear => exact absurd rfl hsame

theorem next_serve (ttlMs : ℕ) (s : KeyedCalls κ φ ρ ε)
    (h : ∀ now key fingerprint, event ≠ .execute now key fingerprint) :
    (serve ttlMs event s).next = s.next := by
  cases event with
  | execute now key fingerprint => exact absurd rfl (h now key fingerprint)
  | fulfil now id result =>
    rcases fulfil_cases ttlMs now id result s with ⟨_,_,-,hs⟩ | hs <;> rw [serve,hs]
  | reject id error => rcases reject_cases id error s with ⟨_,_,-,hs⟩ | hs <;> rw [serve,hs]
  | release id => rcases release_cases id s with ⟨_,_,_,-,hs⟩ | ⟨-,hs⟩ <;> rw [serve,hs]
  | deleteKey key => rfl
  | clear => rfl

theorem next_le_serve : s.next ≤ (serve ttlMs event s).next := by
  cases event with
  | execute now key fingerprint => exact Nat.le_succ _
  | fulfil now id result => exact ge_of_eq (next_serve ttlMs s nofun)
  | reject id error => exact ge_of_eq (next_serve ttlMs s nofun)
  | release id => exact ge_of_eq (next_serve ttlMs s nofun)
  | deleteKey key => exact le_rfl
  | clear => exact le_rfl

theorem not_inFlight_serve (hid : id < s.next) (h : ¬ InFlight s id key) :
    ¬ InFlight (serve ttlMs event s) id key := by
  rintro ⟨fingerprint,hcall⟩
  rcases serve_calls ttlMs event hid with
    hsame | ⟨_,_,_,⟨-,hsettled⟩ | ⟨-,-,hreturned⟩⟩
  · exact h ⟨fingerprint,hsame.symm.trans hcall⟩
  · simp [hsettled] at hcall
  · simp [hreturned] at hcall

theorem Starts.pending (h : Starts ttlMs key id s event) :
    s.store.pendingResponses key = none ∧ id < (serve ttlMs event s).next ∧
      ∃ fingerprint,
        (serve ttlMs event s).store.pendingResponses key = some ⟨fingerprint,id⟩ := by
  obtain ⟨now,fingerprint,rfl,rfl,fingerprint',hrunning⟩ := h
  have hphase : (s.store.execute ttlMs now key fingerprint s.next).1 = .started := by
    simpa [serve,execute] using congrArg (Option.map Call.phase) hrunning
  rcases execute_cases ttlMs now key fingerprint s.next s.store with
    ⟨_,-,⟨-,hex⟩ | ⟨-,hex⟩⟩ | ⟨-,⟨_,-,⟨-,hex⟩ | ⟨-,hex⟩⟩ | ⟨hnone,hex⟩⟩
  · simp [hex] at hphase
  · simp [hex] at hphase
  · simp [hex] at hphase
  · simp [hex] at hphase
  · refine ⟨hnone,Nat.lt_succ_self _,fingerprint,?_⟩
    simp [serve,execute,hex,IdempotencyStore.setPending]

def Owns (s : KeyedCalls κ φ ρ ε) (id : ℕ) : Prop :=
  ∃ call, s.calls id = some call ∧ call.phase.isOwn

theorem owns_serve (ttlMs : ℕ) (event : StoreEvent κ φ ρ ε) (hid : id < s.next) :
    (serve ttlMs event s).Owns id ↔ s.Owns id := by
  rcases serve_calls ttlMs event hid with
    hsame | ⟨key,fingerprint,outcome,⟨hrunning,hsettled⟩ | ⟨hsettled,-,hreturned⟩⟩
  · rw [Owns,Owns,hsame]
  · exact ⟨fun _ => ⟨_,hrunning,trivial⟩,fun _ => ⟨_,hsettled,trivial⟩⟩
  · exact ⟨fun _ => ⟨_,hsettled,trivial⟩,fun _ => ⟨_,hreturned,trivial⟩⟩

theorem answered_serve (ttlMs : ℕ) (event : StoreEvent κ φ ρ ε) (hid : id < s.next)
    {answer : Answer ρ} (hne : answer ≠ .started) :
    (serve ttlMs event s).calls id = some ⟨key,fingerprint,.answered answer⟩ ↔
      s.calls id = some ⟨key,fingerprint,.answered answer⟩ := by
  rcases serve_calls ttlMs event hid with
    hsame | ⟨_,_,_,⟨hrunning,hsettled⟩ | ⟨hsettled,-,hreturned⟩⟩
  · rw [hsame]
  · rw [hrunning,hsettled]
    simp [Ne.symm hne]
  · rw [hsettled,hreturned]
    simp

theorem inFlight_serve (ttlMs : ℕ) (event : StoreEvent κ φ ρ ε) (hid : id < s.next)
    (h : InFlight s id key) :
    InFlight (serve ttlMs event s) id key ∨ (∃ now result, event = .fulfil now id result) ∨
      ∃ error, event = .reject id error := by
  obtain ⟨fingerprint,hcall⟩ := h
  rcases serve_calls ttlMs event hid with
    hsame | ⟨_,_,_,⟨hrunning,hsettled⟩ | ⟨hsettled,-,-⟩⟩
  · exact Or.inl ⟨fingerprint,hsame.trans hcall⟩
  · rcases settled_of_serve hid hrunning hsettled with ⟨now,result,hevent,-⟩ | ⟨error,hevent,-⟩
    · exact Or.inr (Or.inl ⟨now,result,hevent⟩)
    · exact Or.inr (Or.inr ⟨error,hevent⟩)
  · exact absurd (hcall.symm.trans hsettled) (by simp)

/-- Who writes the pending entry of a key: a deletion, the finishing operation of the key,
and a call that finds no entry. -/
theorem serve_pending (ttlMs : ℕ) (key : κ) (event : StoreEvent κ φ ρ ε) (s : KeyedCalls κ φ ρ ε) :
    (serve ttlMs event s).store.pendingResponses key = s.store.pendingResponses key ∨
      Deletes key event ∨
      (∃ id fingerprint outcome, event = .release id ∧
        s.calls id = some ⟨key,fingerprint,.settled outcome⟩) ∨
      s.store.pendingResponses key = none := by
  cases event with
  | execute now other fingerprint =>
    rcases execute_cases ttlMs now other fingerprint s.next s.store with
      ⟨_,-,⟨-,hex⟩ | ⟨-,hex⟩⟩ | ⟨-,⟨_,-,⟨-,hex⟩ | ⟨-,hex⟩⟩ | ⟨hnone,hex⟩⟩
    all_goals rw [serve_execute hex]
    · exact Or.inl rfl
    · exact Or.inl rfl
    · exact Or.inl rfl
    · exact Or.inl rfl
    · by_cases hkey : key = other
      · subst hkey
        exact Or.inr (Or.inr (Or.inr hnone))
      · exact Or.inl (Function.update_of_ne hkey _ _)
  | fulfil now id result =>
    rcases fulfil_cases ttlMs now id result s with ⟨_,_,-,hs⟩ | hs
    · exact Or.inl (by rw [serve,hs]; rfl)
    · exact Or.inl (by rw [serve,hs])
  | reject id error =>
    rcases reject_cases id error s with ⟨_,_,-,hs⟩ | hs <;> exact Or.inl (by rw [serve,hs])
  | release id =>
    rcases release_cases id s with ⟨other,fingerprint,outcome,hcall,hs⟩ | ⟨-,hs⟩
    · by_cases hkey : key = other
      · subst hkey
        exact Or.inr (Or.inr (Or.inl ⟨id,fingerprint,outcome,rfl,hcall⟩))
      · rw [serve,hs]
        exact Or.inl (Function.update_of_ne hkey _ _)
    · exact Or.inl (by rw [serve,hs])
  | deleteKey other =>
    by_cases hkey : other = key
    · exact Or.inr (Or.inl hkey)
    · exact Or.inl (Function.update_of_ne (Ne.symm hkey) _ _)
  | clear => exact Or.inr (Or.inl trivial)

theorem holds_serve (hid : id < s.next) (hdelete : ¬ Deletes key event) (hown : ReleasesOwn s event)
    (h : Holds s id key) : Holds (serve ttlMs event s) id key := by
  intro hafter
  have hbefore : InFlight s id key := by
    by_contra hno
    exact not_inFlight_serve hid hno hafter
  obtain ⟨fingerprint,hpending⟩ := h hbefore
  rcases serve_pending ttlMs key event s with hsame | hdeleted | ⟨other,_,_,rfl,hcall⟩ | hnone
  · exact ⟨fingerprint,hsame.trans hpending⟩
  · exact absurd hdeleted hdelete
  · obtain rfl : id = other := hown key _ _ hcall _ hpending
    obtain ⟨_,hrunning⟩ := hbefore
    exact absurd (hrunning.symm.trans hcall) (by simp)
  · exact absurd (hnone.symm.trans hpending) (by simp)

end Steps

section Sound

variable {ttlMs : ℕ} {event : StoreEvent κ φ ρ ε} {s : KeyedCalls κ φ ρ ε}

/-- Every entry belongs to a call of its key and fingerprint: a stored response to one that
produced it, a pending operation to one that has not returned. -/
structure Sound (s : KeyedCalls κ φ ρ ε) : Prop where
  fresh : ∀ id, s.next ≤ id → s.calls id = none
  completed : ∀ key entry, s.store.completedResponses key = some entry → ∃ id phase,
    s.calls id = some ⟨key,entry.value.fingerprint,phase⟩ ∧
      phase.outcome = some (.ok entry.value.result)
  pending : ∀ key entry, s.store.pendingResponses key = some entry → ∃ phase,
    s.calls entry.promise = some ⟨key,entry.fingerprint,phase⟩ ∧
      (phase = .running ∨ ∃ outcome, phase = .settled outcome)

omit [DecidableEq κ] [DecidableEq φ] in
theorem Sound.lt (h : Sound s) {id : ℕ} {call : Call κ φ ρ ε} (hcall : s.calls id = some call) :
    id < s.next := by
  by_contra hno
  rw [h.fresh id (not_lt.mp hno)] at hcall
  cases hcall

omit [DecidableEq κ] [DecidableEq φ] in
theorem getCompleted_eq_some {store : IdempotencyStore κ φ ρ} {now : ℕ} {key : κ}
    {stored : StoredResponse φ ρ} (h : store.getCompleted now key = some stored) :
    ∃ entry, store.completedResponses key = some entry ∧ entry.value = stored ∧
      entry.alive now = true := by
  unfold IdempotencyStore.getCompleted at h
  split at h
  · split_ifs at h with halive
    exact ⟨_,‹_›,Option.some.inj h,halive⟩
  · cases h

theorem completed_of_serve {key : κ} {entry : Cached (StoredResponse φ ρ)}
    (h : (serve ttlMs event s).store.completedResponses key = some entry) :
    (∃ old, s.store.completedResponses key = some old ∧ old.value = entry.value) ∨
      ∃ now id, event = .fulfil now id entry.value.result ∧
        s.calls id = some ⟨key,entry.value.fingerprint,.running⟩ ∧
        (serve ttlMs event s).calls id =
          some ⟨key,entry.value.fingerprint,.settled (.ok entry.value.result)⟩ := by
  cases event with
  | execute now other fingerprint =>
    rcases execute_cases ttlMs now other fingerprint s.next s.store with
      ⟨stored,hget,⟨-,hex⟩ | ⟨-,hex⟩⟩ | ⟨-,⟨_,-,⟨-,hex⟩ | ⟨-,hex⟩⟩ | ⟨-,hex⟩⟩
    · rw [serve_execute hex] at h
      rcases IdempotencyStore.setCompleted_eq_some.mp h with ⟨rfl,⟨⟩⟩ | ⟨-,hold⟩
      · obtain ⟨old,hold,hvalue,-⟩ := getCompleted_eq_some hget
        exact Or.inl ⟨old,hold,hvalue⟩
      · exact Or.inl ⟨entry,hold,rfl⟩
    all_goals
      rw [serve_execute hex] at h
      exact Or.inl ⟨entry,h,rfl⟩
  | fulfil now id result =>
    rcases fulfil_cases ttlMs now id result s with ⟨other,fingerprint,hcall,hs⟩ | hs
    · rw [serve,hs] at h ⊢
      rcases IdempotencyStore.setCompleted_eq_some.mp h with ⟨rfl,⟨⟩⟩ | ⟨-,hold⟩
      · exact Or.inr ⟨now,id,rfl,hcall,Function.update_self _ _ _⟩
      · exact Or.inl ⟨entry,hold,rfl⟩
    · rw [serve,hs] at h
      exact Or.inl ⟨entry,h,rfl⟩
  | reject id error =>
    rcases reject_cases id error s with ⟨_,_,-,hs⟩ | hs <;>
    · rw [serve,hs] at h
      exact Or.inl ⟨entry,h,rfl⟩
  | release id =>
    rcases release_cases id s with ⟨_,_,_,-,hs⟩ | ⟨-,hs⟩ <;>
    · rw [serve,hs] at h
      exact Or.inl ⟨entry,h,rfl⟩
  | deleteKey other =>
    by_cases hkey : key = other
    · subst hkey
      simp [serve,IdempotencyStore.deleteKey] at h
    · exact Or.inl ⟨entry,(Function.update_of_ne hkey _ _).symm.trans h,rfl⟩
  | clear => cases h

/-- A pending entry was pending before and is not being removed, or its operation has
just been started. -/
theorem pending_of_serve {key : κ} {entry : PendingOperation φ}
    (h : (serve ttlMs event s).store.pendingResponses key = some entry) :
    (s.store.pendingResponses key = some entry ∧ ∀ id fingerprint outcome,
        event = .release id → s.calls id ≠ some ⟨key,fingerprint,.settled outcome⟩) ∨
      (serve ttlMs event s).calls entry.promise = some ⟨key,entry.fingerprint,.running⟩ := by
  cases event with
  | execute now other fingerprint =>
    rcases execute_cases ttlMs now other fingerprint s.next s.store with
      ⟨_,-,⟨-,hex⟩ | ⟨-,hex⟩⟩ | ⟨-,⟨_,-,⟨-,hex⟩ | ⟨-,hex⟩⟩ | ⟨-,hex⟩⟩
    all_goals rw [serve_execute hex] at h ⊢
    · exact Or.inl ⟨h,nofun⟩
    · exact Or.inl ⟨h,nofun⟩
    · exact Or.inl ⟨h,nofun⟩
    · exact Or.inl ⟨h,nofun⟩
    · rcases IdempotencyStore.setPending_eq_some.mp h with ⟨rfl,hnew⟩ | ⟨-,hold⟩
      · obtain rfl := Option.some.inj hnew
        exact Or.inr (Function.update_self _ _ _)
      · exact Or.inl ⟨hold,nofun⟩
  | fulfil now id result =>
    rcases fulfil_cases ttlMs now id result s with ⟨_,_,-,hs⟩ | hs <;>
    · rw [serve,hs] at h
      exact Or.inl ⟨h,nofun⟩
  | reject id error =>
    rcases reject_cases id error s with ⟨_,_,-,hs⟩ | hs <;>
    · rw [serve,hs] at h
      exact Or.inl ⟨h,nofun⟩
  | release id =>
    rcases release_cases id s with ⟨other,fingerprint,outcome,hcall,hs⟩ | ⟨hno,hs⟩
    · rw [serve,hs] at h
      rcases IdempotencyStore.setPending_eq_some.mp h with ⟨-,hnone⟩ | ⟨hkey,hold⟩
      · cases hnone
      · refine Or.inl ⟨hold,?_⟩
        rintro id' fingerprint' outcome' ⟨⟩ hcall'
        exact hkey (congrArg Call.key (Option.some.inj (hcall'.symm.trans hcall)))
    · rw [serve,hs] at h
      refine Or.inl ⟨h,?_⟩
      rintro id' fingerprint' outcome' ⟨⟩
      exact hno key fingerprint' outcome'
  | deleteKey other =>
    by_cases hkey : key = other
    · subst hkey
      simp [serve,IdempotencyStore.deleteKey] at h
    · exact Or.inl ⟨(Function.update_of_ne hkey _ _).symm.trans h,nofun⟩
  | clear => cases h

theorem fresh_serve (h : Sound s) {id : ℕ} (hid : (serve ttlMs event s).next ≤ id) :
    (serve ttlMs event s).calls id = none := by
  have hold : s.calls id = none := h.fresh id (next_le_serve.trans hid)
  have hne : ∀ {other : ℕ} {call : Call κ φ ρ ε}, s.calls other = some call → id ≠ other := by
    rintro other call hcall rfl
    exact absurd (hold.symm.trans hcall) (by simp)
  cases event with
  | execute now key fingerprint =>
    have hlt : s.next < id := hid
    exact (Function.update_of_ne hlt.ne' _ _).trans hold
  | fulfil now other result =>
    rcases fulfil_cases ttlMs now other result s with ⟨_,_,hcall,hs⟩ | hs <;> rw [serve,hs]
    · exact (Function.update_of_ne (hne hcall) _ _).trans hold
    · exact hold
  | reject other error =>
    rcases reject_cases other error s with ⟨_,_,hcall,hs⟩ | hs <;> rw [serve,hs]
    · exact (Function.update_of_ne (hne hcall) _ _).trans hold
    · exact hold
  | release other =>
    rcases release_cases other s with ⟨_,_,_,hcall,hs⟩ | ⟨-,hs⟩ <;> rw [serve,hs]
    · exact (Function.update_of_ne (hne hcall) _ _).trans hold
    · exact hold
  | deleteKey key => exact hold
  | clear => exact hold

theorem sound_serve (ttlMs : ℕ) (event : StoreEvent κ φ ρ ε) (h : Sound s) :
    Sound (serve ttlMs event s) := by
  refine ⟨fun id hid => fresh_serve h hid,fun key entry hentry => ?_,fun key entry hentry => ?_⟩
  · rcases completed_of_serve hentry with ⟨old,hold,hvalue⟩ | ⟨_,id,-,-,hsettled⟩
    · obtain ⟨id,phase,hcall,houtcome⟩ := h.completed key old hold
      rw [hvalue] at hcall houtcome
      rcases serve_calls ttlMs event (h.lt hcall) with
        hsame | ⟨_,_,_,⟨hrunning,-⟩ | ⟨hsettled,-,hreturned⟩⟩
      · exact ⟨id,phase,hsame.trans hcall,houtcome⟩
      · obtain ⟨-,-,rfl⟩ := Call.mk.inj (Option.some.inj (hcall.symm.trans hrunning))
        cases houtcome
      · obtain ⟨rfl,rfl,rfl⟩ := Call.mk.inj (Option.some.inj (hcall.symm.trans hsettled))
        exact ⟨id,_,hreturned,houtcome⟩
    · exact ⟨id,_,hsettled,rfl⟩
  · rcases pending_of_serve hentry with ⟨hold,hkept⟩ | hstarted
    · obtain ⟨phase,hcall,hphase⟩ := h.pending key entry hold
      rcases serve_calls ttlMs event (h.lt hcall) with
        hsame | ⟨_,_,_,⟨hrunning,hsettled⟩ | ⟨hsettled,hrelease,-⟩⟩
      · exact ⟨phase,hsame.trans hcall,hphase⟩
      · obtain ⟨rfl,rfl,-⟩ := Call.mk.inj (Option.some.inj (hcall.symm.trans hrunning))
        exact ⟨_,hsettled,Or.inr ⟨_,rfl⟩⟩
      · obtain ⟨rfl,rfl,-⟩ := Call.mk.inj (Option.some.inj (hcall.symm.trans hsettled))
        exact absurd hsettled (hkept _ _ _ hrelease)
    · exact ⟨_,hstarted,Or.inl rfl⟩

theorem Sound.outcome_serve (h : Sound s) (ttlMs : ℕ) (event : StoreEvent κ φ ρ ε) {id : ℕ}
    {outcome : Except ε ρ} (ho : s.outcome id = some outcome) : (serve ttlMs event s).outcome id = some outcome := by
  unfold KeyedCalls.outcome at ho ⊢
  cases hcall : s.calls id with
  | none => simp [hcall] at ho
  | some call =>
    rcases serve_calls ttlMs event (h.lt hcall) with
      hsame | ⟨_,_,_,⟨hrunning,-⟩ | ⟨hsettled,-,hreturned⟩⟩
    · rw [hsame,ho]
    · simp [hrunning,Phase.outcome] at ho
    · rw [hsettled] at ho
      rw [hreturned]
      exact ho

end Sound

section Runs

variable {ttlMs : ℕ} {key : κ} {i j : ℕ} {before mid after : List (StoreEvent κ φ ρ ε)}
  {a b : StoreEvent κ φ ρ ε}

def runFrom (ttlMs : ℕ) (events : List (StoreEvent κ φ ρ ε)) : KeyedCalls κ φ ρ ε :=
  Runs.run (serve ttlMs) events {}

/-- Two operations of a key in flight together: the key was deleted in between. -/
theorem deleted_between
    (hown : Runs.Along (serve ttlMs) ReleasesOwn {} (before ++ a :: mid ++ b :: after))
    (ha : Starts ttlMs key i (runFrom ttlMs before) a)
    (hb : Starts ttlMs key j (runFrom ttlMs (before ++ a :: mid)) b)
    (hi : InFlight (runFrom ttlMs (before ++ a :: mid ++ b :: after)) i key) :
    ∃ event ∈ mid, Deletes key event := by
  by_contra hno
  simp only [not_exists,not_and] at hno
  have hmid := (Runs.along_append.mp (Runs.along_append.mp hown).1).2.2
  have hkept : Runs.Along (serve ttlMs) (fun s event => ¬ Deletes key event ∧ ReleasesOwn s event)
      (serve ttlMs a (runFrom ttlMs before)) mid :=
    (Runs.along_of_forall_mem (fun event he _ => hno event he) _).and hmid
  obtain ⟨-,hlt,fingerprint,hpending⟩ := ha.pending
  have hstep : ∀ (s : KeyedCalls κ φ ρ ε) event, i < s.next ∧ Holds s i key →
      ¬ Deletes key event ∧ ReleasesOwn s event →
      i < (serve ttlMs event s).next ∧ Holds (serve ttlMs event s) i key :=
    fun s event hs hg => ⟨hs.1.trans_le next_le_serve,holds_serve hs.1 hg.1 hg.2 hs.2⟩
  have hheld := hkept.invariant hstep ⟨hlt,fun _ => ⟨fingerprint,hpending⟩⟩
  rw [← Runs.run_cons,runFrom,← Runs.run_append] at hheld
  -- where the other operation starts no entry is pending
  have hidle : ¬ InFlight (runFrom ttlMs (before ++ a :: mid)) i key := by
    intro hflight
    obtain ⟨_,hp⟩ := hheld.2 hflight
    exact absurd (hb.pending.1.symm.trans hp) (by simp)
  have hstay : ∀ (s : KeyedCalls κ φ ρ ε) event, i < s.next ∧ ¬ InFlight s i key →
      i < (serve ttlMs event s).next ∧ ¬ InFlight (serve ttlMs event s) i key :=
    fun s event hs => ⟨hs.1.trans_le next_le_serve,not_inFlight_serve hs.1 hs.2⟩
  have hrun : runFrom ttlMs (before ++ a :: mid ++ b :: after) =
      Runs.run (serve ttlMs) (b :: after) (runFrom ttlMs (before ++ a :: mid)) :=
    Runs.run_append _ _ _ _
  rw [hrun] at hi
  exact (Runs.invariant hstay (b :: after) ⟨hheld.1,hidle⟩).2 hi

theorem run_sound (ttlMs : ℕ) (events : List (StoreEvent κ φ ρ ε)) :
    Sound (runFrom ttlMs events : KeyedCalls κ φ ρ ε) := by
  have h0 : Sound ({} : KeyedCalls κ φ ρ ε) := ⟨fun _ _ => rfl,nofun,nofun⟩
  exact Runs.invariant (fun _ event h => sound_serve ttlMs event h) events h0

theorem answer_kept {s : KeyedCalls κ φ ρ ε} {id : ℕ} {fingerprint : φ} {answer : Answer ρ}
    (hne : answer ≠ .started) (hid : id < s.next)
    (h : s.calls id = some ⟨key,fingerprint,.answered answer⟩) (events : List (StoreEvent κ φ ρ ε)) :
    (Runs.run (serve ttlMs) events s).calls id = some ⟨key,fingerprint,.answered answer⟩ := by
  have hstep : ∀ (s : KeyedCalls κ φ ρ ε) event,
      id < s.next ∧ s.calls id = some ⟨key,fingerprint,.answered answer⟩ →
      id < (serve ttlMs event s).next ∧
        (serve ttlMs event s).calls id = some ⟨key,fingerprint,.answered answer⟩ :=
    fun s event hs => ⟨hs.1.trans_le next_le_serve,(answered_serve ttlMs event hs.1 hne).mpr hs.2⟩
  exact (Runs.invariant hstep events ⟨hid,h⟩).2

/-- The fingerprint of the entry that a call with the key finds. -/
def entryFingerprint (now : ℕ) (key : κ) (store : IdempotencyStore κ φ ρ) : Option φ :=
  match store.getCompleted now key with
  | some stored => some stored.fingerprint
  | none => (store.pendingResponses key).map PendingOperation.fingerprint

/-- A call gets the result of the entry with its fingerprint, and is refused by another;
where there is an entry, no operation is started. -/
structure AnsweredByEntry (ttlMs now : ℕ) (key : κ) (fingerprint : φ) (s : KeyedCalls κ φ ρ ε) :
    Prop where
  produced : ∀ stored, s.store.getCompleted now key = some stored → ∃ id phase,
    s.calls id = some ⟨key,stored.fingerprint,phase⟩ ∧ phase.outcome = some (.ok stored.result)
  awaited : ∀ entry, s.store.pendingResponses key = some entry → ∃ phase,
    s.calls entry.promise = some ⟨key,entry.fingerprint,phase⟩ ∧
      (phase = .running ∨ ∃ outcome, phase = .settled outcome)
  stored : ∀ stored, s.store.getCompleted now key = some stored →
    stored.fingerprint = fingerprint → ∀ events,
    (Runs.run (serve ttlMs) (.execute now key fingerprint :: events) s).response s.next =
      some (.ok stored.result)
  pending : ∀ entry, s.store.getCompleted now key = none →
    s.store.pendingResponses key = some entry → entry.fingerprint = fingerprint → ∀ events,
    (Runs.run (serve ttlMs) (.execute now key fingerprint :: events) s).response s.next =
      (Runs.run (serve ttlMs) (.execute now key fingerprint :: events) s).outcome entry.promise
  conflict : ∀ other, entryFingerprint now key s.store = some other → other ≠ fingerprint →
    (serve ttlMs (.execute now key fingerprint) s).calls s.next =
        some ⟨key,fingerprint,.answered .conflict⟩ ∧
      (serve ttlMs (.execute now key fingerprint) s).store = s.store
  idle : entryFingerprint now key s.store ≠ none → ∀ id other,
    InFlight (serve ttlMs (.execute now key fingerprint) s) id other → InFlight s id other

theorem answeredByEntry (ttlMs now : ℕ) (key : κ) (fingerprint : φ) {s : KeyedCalls κ φ ρ ε}
    (h : Sound s) : AnsweredByEntry ttlMs now key fingerprint s := by
  have hkeep : ∀ answer store,
      s.store.execute ttlMs now key fingerprint s.next = (answer,store) → answer ≠ .started →
      ∀ events,
      (Runs.run (serve ttlMs) (.execute now key fingerprint :: events) s).calls s.next =
        some ⟨key,fingerprint,.answered answer⟩ := by
    intro answer store hex hne events
    rw [Runs.run_cons,serve_execute hex]
    exact answer_kept hne (Nat.lt_succ_self _) (Function.update_self _ _ _) events
  refine ⟨fun stored hget => ?_,h.pending key,fun stored hget hf events => ?_,
    fun entry hget hp hf events => ?_,fun other hentry hne => ?_,
    fun hentry id other hflight => ?_⟩
  · obtain ⟨entry,hentry,rfl,-⟩ := getCompleted_eq_some hget
    exact h.completed key entry hentry
  · have hex : s.store.execute ttlMs now key fingerprint s.next = (.replayed stored.result,
        s.store.setCompleted key ⟨stored,now+IdempotencyStore.standardTtl ttlMs⟩) := by
      simp [IdempotencyStore.execute,hget,hf]
    rw [response,hkeep _ _ hex nofun events]
  · have hex : s.store.execute ttlMs now key fingerprint s.next =
        (.waiting entry.promise,s.store) := by
      simp [IdempotencyStore.execute,hget,hp,hf]
    rw [response,hkeep _ _ hex nofun events]
  · have hex : s.store.execute ttlMs now key fingerprint s.next = (.conflict,s.store) := by
      unfold entryFingerprint at hentry
      cases hget : s.store.getCompleted now key with
      | some stored =>
        simp only [hget,Option.some.injEq] at hentry
        simp [IdempotencyStore.execute,hget,hentry,hne]
      | none =>
        simp only [hget,Option.map_eq_some_iff] at hentry
        obtain ⟨entry,hp,rfl⟩ := hentry
        simp [IdempotencyStore.execute,hget,hp,hne]
    exact ⟨hkeep _ _ hex nofun [],by rw [serve_execute hex]⟩
  · have hstarted : (s.store.execute ttlMs now key fingerprint s.next).1 ≠ .started := by
      intro hstarted
      rcases execute_cases ttlMs now key fingerprint s.next s.store with
        ⟨_,-,⟨-,hex⟩ | ⟨-,hex⟩⟩ | ⟨hget,⟨_,-,⟨-,hex⟩ | ⟨-,hex⟩⟩ | ⟨hp,hex⟩⟩
      · simp [hex] at hstarted
      · simp [hex] at hstarted
      · simp [hex] at hstarted
      · simp [hex] at hstarted
      · exact hentry (by simp [entryFingerprint,hget,hp])
    obtain ⟨other',hcall⟩ := hflight
    by_cases hid : id = s.next
    · subst hid
      have hcall' := hcall
      rw [serve_execute (Prod.mk.eta).symm] at hcall'
      simp only [Function.update_self,Option.some.injEq,Call.mk.injEq,Phase.answered.injEq] at hcall'
      exact absurd hcall'.2.2 hstarted
    · exact ⟨other',(Function.update_of_ne hid _ _).symm.trans hcall⟩

/-- Two operations of one key are in flight together only if the key was deleted after the
first of them started and before the second did, in every run where a finishing operation
finds its own pending entry or none. In every run a call with the fingerprint of the entry
gets the entry's result, and any other call with the key is refused. -/
theorem one_operation_per_key (ttlMs : ℕ) (events : List (StoreEvent κ φ ρ ε)) :
    (Runs.Along (serve ttlMs) ReleasesOwn {} events →
      ∀ key i j before a mid b after, events = before ++ a :: mid ++ b :: after →
      Starts ttlMs key i (runFrom ttlMs before) a →
      Starts ttlMs key j (runFrom ttlMs (before ++ a :: mid)) b →
      InFlight (runFrom ttlMs events) i key → InFlight (runFrom ttlMs events) j key →
      ∃ event ∈ mid, Deletes key event) ∧
    ∀ now key fingerprint, AnsweredByEntry ttlMs now key fingerprint
      (runFrom ttlMs events : KeyedCalls κ φ ρ ε) := by
  refine ⟨?_,fun now key fingerprint => answeredByEntry ttlMs now key fingerprint
    (run_sound ttlMs events)⟩
  rintro hown key i j before a mid b after rfl ha hb hi -
  exact deleted_between hown ha hb hi

abbrev DemoEvent := StoreEvent String String ℕ String

def firstCall : DemoEvent := .execute 0 "key" "body"

def secondCall : DemoEvent := .execute 1 "key" "body"

def thirdCall : DemoEvent := .execute 2 "key" "body"

/-- A key that is deleted and used again while its first operation runs. -/
theorem secondCall_after_deletion : ∃ event ∈ [(.deleteKey "key" : DemoEvent)], Deletes "key" event :=
  (one_operation_per_key 1000 [firstCall,.deleteKey "key",secondCall]).1
    ⟨trivial,trivial,trivial,trivial⟩ "key" 0 1 [] firstCall [.deleteKey "key"] secondCall [] rfl
    ⟨0,"body",rfl,rfl,"body",rfl⟩ ⟨1,"body",rfl,rfl,"body",rfl⟩ ⟨"body",rfl⟩ ⟨"body",rfl⟩

/-- The first operation fails after its key was deleted, and takes away the entry of the
second, so that a third one starts beside it. -/
theorem thirdCall_beside_second : ¬ ∀ (events : List DemoEvent) (key : String) (i j : ℕ)
    (before : List DemoEvent) (a : DemoEvent) (mid : List DemoEvent) (b : DemoEvent) (after : List DemoEvent),
    events = before ++ a :: mid ++ b :: after → Starts 1000 key i (runFrom 1000 before) a →
    Starts 1000 key j (runFrom 1000 (before ++ a :: mid)) b →
    InFlight (runFrom 1000 events) i key → InFlight (runFrom 1000 events) j key →
    ∃ event ∈ mid, Deletes key event := by
  intro h
  have hdeleted := h _ "key" 1 2 [firstCall,.deleteKey "key"] secondCall
    [.reject 0 "failed",.release 0] thirdCall [] rfl ⟨1,"body",rfl,rfl,"body",rfl⟩
    ⟨2,"body",rfl,rfl,"body",rfl⟩ ⟨"body",rfl⟩ ⟨"body",rfl⟩
  simp [Deletes] at hdeleted

end Runs

end KeyedCalls

end YieldVault.Backend
