import YieldVault.Runs

/-! The circuit breaker of the Soroban calls. Its state is read when a call starts and
written when a call ends, so that calls admitted in one state end in another. -/
namespace YieldVault.Backend

inductive CircuitState
  | closed | opened | halfOpen
  deriving DecidableEq

structure CircuitBreakerOptions where
  failureThreshold : ℕ := 5
  windowMs : ℕ := 30000
  cooldownMs : ℕ := 30000

structure CircuitBreaker where
  state : CircuitState := .closed
  failures : ℕ := 0
  windowStart : ℕ
  openedAt : Option ℕ := none

/-- An admitted call is a probe if the circuit is half open at its start. -/
inductive CircuitCall
  | refused (retryAfterMs : ℕ)
  | inFlight (probe : Bool)
  | completed (success : Bool)
  deriving DecidableEq

/-- The breaker with its calls, the time, and when the circuit was last opened. -/
structure BreakerRun where
  breaker : CircuitBreaker
  calls : ℕ → Option CircuitCall := fun _ => none
  next : ℕ := 0
  clock : ℕ
  opened : Option ℕ := none

/-- Each event comes some time after the one before. -/
inductive BreakerEvent
  | execute (after : ℕ)
  | complete (after call : ℕ) (success : Bool)
  | toHealthSnapshot (after : ℕ)

def BreakerEvent.after : BreakerEvent → ℕ
  | .execute after | .complete after _ _ | .toHealthSnapshot after => after

namespace CircuitBreaker

variable (opts : CircuitBreakerOptions)

def onSuccess (now : ℕ) (_ : CircuitBreaker) : CircuitBreaker := { windowStart := now }

/-- The window of the failures, begun again if it has expired. -/
def resetWindow (now : ℕ) (b : CircuitBreaker) : CircuitBreaker :=
  if b.windowStart+opts.windowMs < now then { b with failures := 0, windowStart := now } else b

def onFailure (now : ℕ) (b : CircuitBreaker) : CircuitBreaker :=
  let b := b.resetWindow opts now
  let b := { b with failures := b.failures+1 }
  if opts.failureThreshold ≤ b.failures then { b with state := .opened, openedAt := some now }
  else b

def cooldownElapsed (now : ℕ) (b : CircuitBreaker) : Bool :=
  b.openedAt.any fun openedAt => decide (openedAt+opts.cooldownMs ≤ now)

def maybeTransitionToHalfOpen (now : ℕ) (b : CircuitBreaker) : CircuitBreaker :=
  if b.state = .opened ∧ b.cooldownElapsed opts now then { b with state := .halfOpen } else b

def retryAfterMs (now : ℕ) (b : CircuitBreaker) : ℕ :=
  match b.state, b.openedAt with
  | .opened, some openedAt => openedAt+opts.cooldownMs-now
  | _, _ => 0

def execute (now : ℕ) (b : CircuitBreaker) : CircuitCall × CircuitBreaker :=
  let b := b.maybeTransitionToHalfOpen opts now
  (if b.state = .opened then .refused (b.retryAfterMs opts now)
    else .inFlight (b.state = .halfOpen),b)

@[simp] theorem resetWindow_state (now : ℕ) (b : CircuitBreaker) :
    (b.resetWindow opts now).state = b.state := by
  unfold resetWindow
  split <;> rfl

@[simp] theorem resetWindow_openedAt (now : ℕ) (b : CircuitBreaker) :
    (b.resetWindow opts now).openedAt = b.openedAt := by
  unfold resetWindow
  split <;> rfl

theorem onFailure_cases (now : ℕ) (b : CircuitBreaker) :
    opts.failureThreshold ≤ (b.resetWindow opts now).failures+1 ∧
        (b.onFailure opts now).state = .opened ∧ (b.onFailure opts now).openedAt = some now ∨
      (b.resetWindow opts now).failures+1 < opts.failureThreshold ∧
        (b.onFailure opts now).state = b.state ∧
        (b.onFailure opts now).openedAt = b.openedAt := by
  by_cases h : opts.failureThreshold ≤ (b.resetWindow opts now).failures+1
  · exact Or.inl ⟨h,by simp [onFailure,h]⟩
  · exact Or.inr ⟨by omega,by simp [onFailure,h]⟩

@[simp] theorem onFailure_failures (now : ℕ) (b : CircuitBreaker) :
    (b.onFailure opts now).failures = (b.resetWindow opts now).failures+1 := by
  simp only [onFailure]
  split <;> rfl

@[simp] theorem onFailure_windowStart (now : ℕ) (b : CircuitBreaker) :
    (b.onFailure opts now).windowStart = (b.resetWindow opts now).windowStart := by
  simp only [onFailure]
  split <;> rfl

@[simp] theorem maybeTransitionToHalfOpen_openedAt (now : ℕ) (b : CircuitBreaker) :
    (b.maybeTransitionToHalfOpen opts now).openedAt = b.openedAt := by
  unfold maybeTransitionToHalfOpen
  split <;> rfl

/-- The circuit is half open only after the cooldown. -/
theorem maybeTransitionToHalfOpen_cases (now : ℕ) (b : CircuitBreaker) :
    b.maybeTransitionToHalfOpen opts now = b ∨
      b.state = .opened ∧ b.cooldownElapsed opts now ∧
        b.maybeTransitionToHalfOpen opts now = { b with state := .halfOpen } := by
  unfold maybeTransitionToHalfOpen
  split
  · next h => exact Or.inr ⟨h.1,h.2,rfl⟩
  · exact Or.inl rfl

theorem cooldownElapsed_iff {now openedAt : ℕ} {b : CircuitBreaker}
    (h : b.openedAt = some openedAt) :
    b.cooldownElapsed opts now = true ↔ openedAt+opts.cooldownMs ≤ now := by
  simp [cooldownElapsed,h]

theorem execute_refused (now : ℕ) (b : CircuitBreaker) :
    (∃ retryAfterMs, (b.execute opts now).1 = .refused retryAfterMs) ↔
      b.state = .opened ∧ b.cooldownElapsed opts now = false := by
  rcases b.maybeTransitionToHalfOpen_cases opts now with h | ⟨hopened,helapsed,h⟩
  · have hstay : b.state = .opened → b.cooldownElapsed opts now = false := by
      intro hopened
      by_contra helapsed
      have hhalf : (b.maybeTransitionToHalfOpen opts now).state = .halfOpen := by
        simp [maybeTransitionToHalfOpen,hopened,eq_true_of_ne_false helapsed]
      rw [h,hopened] at hhalf
      cases hhalf
    simp only [execute,h]
    by_cases hopened : b.state = .opened
    · simp [hopened,hstay hopened]
    · simp [hopened]
  · simp [execute,h,helapsed]

theorem execute_probe (now : ℕ) (b : CircuitBreaker) :
    (b.execute opts now).1 = .inFlight true ↔
      (b.maybeTransitionToHalfOpen opts now).state = .halfOpen := by
  unfold execute
  dsimp only
  split
  · next hopened => simp [hopened]
  · simp

end CircuitBreaker

namespace BreakerRun

def start (now : ℕ) : BreakerRun := { breaker := { windowStart := now }, clock := now }

def become (now : ℕ) (b : CircuitBreaker) (s : BreakerRun) : BreakerRun :=
  { s with breaker := b, clock := now, opened := b.openedAt <|> s.opened }

def step (opts : CircuitBreakerOptions) (event : BreakerEvent) (s : BreakerRun) : BreakerRun :=
  let now := s.clock+event.after
  match event with
  | .execute _ =>
    let (call,b) := s.breaker.execute opts now
    { s.become now b with calls := Function.update s.calls s.next (some call), next := s.next+1 }
  | .complete _ call success =>
    match s.calls call with
    | some (.inFlight _) =>
      let b := if success then s.breaker.onSuccess now else s.breaker.onFailure opts now
      { s.become now b with calls := Function.update s.calls call (some (.completed success)) }
    | _ => s.become now s.breaker
  | .toHealthSnapshot _ => s.become now (s.breaker.maybeTransitionToHalfOpen opts now)

variable (opts : CircuitBreakerOptions)

def Probe (s : BreakerRun) (call : ℕ) : Prop := s.calls call = some (.inFlight true)

/-- No call is admitted until the cooldown since the circuit was opened has elapsed. -/
def Shut (s : BreakerRun) : Prop :=
  ∀ opened ∈ s.opened, ∀ now, s.clock ≤ now → now < opened+opts.cooldownMs →
    ∃ retryAfterMs, (s.breaker.execute opts now).1 = .refused retryAfterMs

def OneProbe (s : BreakerRun) : Prop :=
  s.breaker.state = .halfOpen → ∀ call call', s.Probe call → s.Probe call' → call = call'

/-- A probe that fails opens the circuit for a whole cooldown, one that succeeds closes it. -/
def ProbeDecides (s : BreakerRun) (event : BreakerEvent) : Prop :=
  ∀ after call success, event = .complete after call success → s.Probe call →
    let b := (step opts event s).breaker
    if success then b.state = .closed
    else b.state = .opened ∧ b.openedAt = some (s.clock+after)

structure Lawful (s : BreakerRun) (event : BreakerEvent) : Prop where
  shut : Shut opts (step opts event s)
  oneProbe : OneProbe (step opts event s)
  probeDecides : ProbeDecides opts s event

/-- A call that starts while the circuit is half open finds no probe in flight; a call that
succeeds while it is open does so after the cooldown; and a probe that fails finds the
failures of the window at one below the threshold or more. -/
def Orderly (s : BreakerRun) : BreakerEvent → Prop
  | .execute after =>
    (s.breaker.maybeTransitionToHalfOpen opts (s.clock+after)).state = .halfOpen →
      ∀ call, ¬ s.Probe call
  | .complete after call true =>
    (∃ probe, s.calls call = some (.inFlight probe)) → s.breaker.state = .opened →
      s.breaker.cooldownElapsed opts (s.clock+after) = true
  | .complete after call false =>
    s.Probe call →
      opts.failureThreshold ≤ (s.breaker.resetWindow opts (s.clock+after)).failures+1
  | .toHealthSnapshot _ => True

@[simp] theorem become_breaker (now : ℕ) (b : CircuitBreaker) (s : BreakerRun) :
    (s.become now b).breaker = b := rfl

@[simp] theorem become_clock (now : ℕ) (b : CircuitBreaker) (s : BreakerRun) :
    (s.become now b).clock = now := rfl

@[simp] theorem become_opened (now : ℕ) (b : CircuitBreaker) (s : BreakerRun) :
    (s.become now b).opened = (b.openedAt <|> s.opened) := rfl

/-- What the time of the opening is in every reachable state. A circuit that is open since
this very moment has its failures in a window that has not expired. -/
structure Dated (s : BreakerRun) : Prop where
  opened : s.breaker.state = .opened → ∃ openedAt, s.breaker.openedAt = some openedAt
  latest : ∀ openedAt, s.breaker.openedAt = some openedAt → s.opened = some openedAt
  recent : s.breaker.state = .opened → ∀ openedAt, s.breaker.openedAt = some openedAt →
    openedAt < s.clock ∨ opts.failureThreshold ≤ s.breaker.failures ∧
      openedAt ≤ s.breaker.windowStart+opts.windowMs

section Dated

variable {opts} {s : BreakerRun}

theorem Dated.wait (h : Dated opts s) (after : ℕ) :
    Dated opts (s.become (s.clock+after) s.breaker) := by
  refine ⟨h.opened,?_,?_⟩
  · intro openedAt hat
    simp [show s.breaker.openedAt = some openedAt from hat]
  · intro hopened openedAt hat
    rcases h.recent hopened openedAt hat with hlt | hwindow
    · exact Or.inl (Nat.lt_add_right after hlt)
    · exact Or.inr hwindow

theorem Dated.maybeTransition (h : Dated opts s) (after : ℕ) :
    Dated opts (s.become (s.clock+after)
      (s.breaker.maybeTransitionToHalfOpen opts (s.clock+after))) := by
  rcases s.breaker.maybeTransitionToHalfOpen_cases opts (s.clock+after) with hstay | ⟨-,-,hhalf⟩
  · rw [hstay]
    exact h.wait after
  · rw [hhalf]
    refine ⟨nofun,?_,nofun⟩
    intro openedAt hat
    simp [show s.breaker.openedAt = some openedAt from hat]

theorem Dated.onSuccess (now : ℕ) : Dated opts (s.become now (s.breaker.onSuccess now)) :=
  ⟨nofun,nofun,nofun⟩

/-- A failure that opens the circuit dates it; one that is only counted comes after the
opening, for the window of the opening has expired or held fewer failures. -/
theorem Dated.onFailure (h : Dated opts s) (after : ℕ) :
    Dated opts (s.become (s.clock+after) (s.breaker.onFailure opts (s.clock+after))) := by
  have hcases := s.breaker.onFailure_cases opts (s.clock+after)
  rcases hcases with ⟨hmany,hstate,hat⟩ | ⟨hfew,hstate,hat⟩
  · refine ⟨fun _ => ⟨_,hat⟩,?_,?_⟩
    · intro openedAt hopened
      simp [show (s.breaker.onFailure opts (s.clock+after)).openedAt = some openedAt from hopened]
    · intro _ openedAt hopened
      have hnow : openedAt = s.clock+after := Option.some.inj (hopened.symm.trans hat)
      refine Or.inr ⟨?_,?_⟩
      · simpa using hmany
      · rw [hnow,become_breaker,CircuitBreaker.onFailure_windowStart]
        unfold CircuitBreaker.resetWindow
        split
        · exact Nat.le_add_right _ _
        · next hwindow => exact Nat.le_of_not_lt hwindow
  · refine ⟨?_,?_,?_⟩
    · intro hopened
      obtain ⟨openedAt,h'⟩ := h.opened (hstate ▸ hopened)
      exact ⟨openedAt,hat.trans h'⟩
    · intro openedAt hopened
      simp [show (s.breaker.onFailure opts (s.clock+after)).openedAt = some openedAt from hopened]
    · intro hopened openedAt hsome
      rcases h.recent (hstate ▸ hopened) openedAt (hat ▸ hsome) with hlt | ⟨hmany,hwindow⟩
      · exact Or.inl (Nat.lt_add_right after hlt)
      · left
        show openedAt < s.clock+after
        unfold CircuitBreaker.resetWindow at hfew
        split at hfew
        · next hexpired => exact hwindow.trans_lt hexpired
        · omega

end Dated

structure Tracked (s : BreakerRun) : Prop extends Dated opts s where
  fresh : ∀ call, s.next ≤ call → s.calls call = none

theorem tracked_start (now : ℕ) : Tracked opts (start now) :=
  { opened := nofun, latest := nofun, recent := nofun, fresh := fun _ _ => rfl }

variable {opts} {s : BreakerRun} {call : ℕ}

theorem step_complete (h : ∃ probe, s.calls call = some (.inFlight probe)) (after : ℕ)
    (success : Bool) :
    step opts (.complete after call success) s =
      { s.become (s.clock+after) (if success then s.breaker.onSuccess (s.clock+after)
          else s.breaker.onFailure opts (s.clock+after)) with
        calls := Function.update s.calls call (some (.completed success)) } := by
  obtain ⟨probe,h⟩ := h
  simp [step,BreakerEvent.after,h]

theorem step_stray (h : ¬ ∃ probe, s.calls call = some (.inFlight probe)) (after : ℕ)
    (success : Bool) :
    step opts (.complete after call success) s = s.become (s.clock+after) s.breaker := by
  simp only [step,BreakerEvent.after]
  split
  · next probe hprobe => exact absurd ⟨probe,hprobe⟩ h
  · rfl

theorem dated_step (h : Dated opts s) (event : BreakerEvent) : Dated opts (step opts event s) := by
  cases event with
  | execute after =>
    have hnext := h.maybeTransition after
    exact ⟨hnext.opened,hnext.latest,hnext.recent⟩
  | complete after call success =>
    by_cases hcall : ∃ probe, s.calls call = some (.inFlight probe)
    · rw [step_complete hcall]
      cases success with
      | true =>
        have hnext : Dated opts (s.become (s.clock+after) (s.breaker.onSuccess (s.clock+after))) :=
          Dated.onSuccess _
        exact ⟨hnext.opened,hnext.latest,hnext.recent⟩
      | false =>
        have hnext := h.onFailure after
        exact ⟨hnext.opened,hnext.latest,hnext.recent⟩
    · rw [step_stray hcall]
      exact h.wait after
  | toHealthSnapshot after => exact h.maybeTransition after

theorem fresh_step (h : ∀ call, s.next ≤ call → s.calls call = none) (event : BreakerEvent)
    (call : ℕ) (hcall : (step opts event s).next ≤ call) :
    (step opts event s).calls call = none := by
  cases event with
  | execute after =>
    have hlt : s.next+1 ≤ call := hcall
    exact (Function.update_of_ne (by omega) _ _).trans (h call (by omega))
  | complete after call' success =>
    by_cases hflight : ∃ probe, s.calls call' = some (.inFlight probe)
    · rw [step_complete hflight] at hcall ⊢
      have hnone : s.calls call = none := h call hcall
      have hne : call ≠ call' := by
        rintro rfl
        obtain ⟨probe,hprobe⟩ := hflight
        rw [hnone] at hprobe
        cases hprobe
      exact (Function.update_of_ne hne _ _).trans hnone
    · rw [step_stray hflight] at hcall ⊢
      exact h call hcall
  | toHealthSnapshot after => exact h call hcall

theorem tracked_step (event : BreakerEvent) (h : Tracked opts s) :
    Tracked opts (step opts event s) :=
  { dated_step h.toDated event with fresh := fresh_step h.fresh event }

theorem shut_iff (h : Dated opts s) :
    Shut opts s ↔ (s.breaker.state ≠ .opened →
      ∀ opened ∈ s.opened, opened+opts.cooldownMs ≤ s.clock) := by
  constructor
  · intro hshut hstate opened hopened
    by_contra hlt
    have hrefused := hshut opened hopened s.clock le_rfl (by omega)
    exact hstate ((s.breaker.execute_refused opts s.clock).mp hrefused).1
  · intro hcooled opened hopened now hnow hlt
    apply (s.breaker.execute_refused opts now).mpr
    by_cases hstate : s.breaker.state = .opened
    · obtain ⟨openedAt,hat⟩ := h.opened hstate
      have hsame : openedAt = opened := Option.some.inj ((h.latest _ hat).symm.trans hopened)
      have helapsed : s.breaker.cooldownElapsed opts now ≠ true := by
        rw [ne_eq,CircuitBreaker.cooldownElapsed_iff opts hat]
        omega
      exact ⟨hstate,eq_false_of_ne_true helapsed⟩
    · have hle := hcooled hstate opened hopened
      omega

theorem Dated.opened_become (h : Dated opts s) {b : CircuitBreaker}
    (hb : b.openedAt = s.breaker.openedAt) (now : ℕ) : (s.become now b).opened = s.opened := by
  rw [become_opened,hb]
  cases hat : s.breaker.openedAt with
  | none => rfl
  | some openedAt => exact (h.latest openedAt hat).symm

structure Kept (opts : CircuitBreakerOptions) (s : BreakerRun) : Prop extends Tracked opts s where
  shut : Shut opts s
  single : ∀ call call', s.Probe call → s.Probe call' → call = call'

theorem kept_start (now : ℕ) : Kept opts (start now) :=
  { tracked_start opts now with
    shut := nofun
    single := nofun }

theorem Kept.cooled (h : Kept opts s) (hstate : s.breaker.state ≠ .opened) {opened : ℕ}
    (hopened : s.opened = some opened) (after : ℕ) : opened+opts.cooldownMs ≤ s.clock+after :=
  Nat.le_add_right_of_le ((shut_iff h.toDated).mp h.shut hstate opened hopened)

theorem Kept.shut_become (h : Kept opts s) (after : ℕ) {b : CircuitBreaker}
    (hdated : Dated opts (s.become (s.clock+after) b)) (hstate : b.state = s.breaker.state)
    (hat : b.openedAt = s.breaker.openedAt) : Shut opts (s.become (s.clock+after) b) := by
  refine (shut_iff hdated).mpr fun hne opened hopened => ?_
  rw [h.opened_become hat] at hopened
  exact h.cooled (hstate ▸ hne) hopened after

theorem Kept.shut_transition (h : Kept opts s) (after : ℕ) :
    Shut opts (s.become (s.clock+after)
      (s.breaker.maybeTransitionToHalfOpen opts (s.clock+after))) := by
  have hdated := h.maybeTransition after
  rcases s.breaker.maybeTransitionToHalfOpen_cases opts (s.clock+after) with
    hstay | ⟨hstate,helapsed,hhalf⟩
  · rw [hstay] at hdated ⊢
    exact h.shut_become after hdated rfl rfl
  · refine (shut_iff hdated).mpr fun _ opened hopened => ?_
    rw [h.opened_become (s.breaker.maybeTransitionToHalfOpen_openedAt opts _)] at hopened
    obtain ⟨openedAt,hat⟩ := h.opened hstate
    obtain rfl : openedAt = opened := Option.some.inj ((h.latest openedAt hat).symm.trans hopened)
    exact (CircuitBreaker.cooldownElapsed_iff opts hat).mp helapsed

theorem probe_next (opts : CircuitBreakerOptions) (s : BreakerRun) (after : ℕ) :
    (step opts (.execute after) s).Probe s.next ↔
      (s.breaker.maybeTransitionToHalfOpen opts (s.clock+after)).state = .halfOpen := by
  have hnext : (step opts (.execute after) s).calls s.next =
      some (s.breaker.execute opts (s.clock+after)).1 := Function.update_self _ _ _
  rw [Probe,hnext,Option.some_inj]
  exact s.breaker.execute_probe opts (s.clock+after)

theorem probe_of_ne {after : ℕ} (hne : call ≠ s.next) :
    (step opts (.execute after) s).Probe call ↔ s.Probe call := by
  have hold : (step opts (.execute after) s).calls call = s.calls call :=
    Function.update_of_ne hne _ _
  rw [Probe,hold,Probe]

/-- A call starts lawfully just if it is no second probe. -/
theorem Kept.execute (h : Kept opts s) (after : ℕ) :
    Lawful opts s (.execute after) ↔ Orderly opts s (.execute after) := by
  constructor
  · intro hlawful hhalf call hprobe
    have hne : call ≠ s.next := by
      rintro rfl
      cases (h.fresh s.next le_rfl).symm.trans hprobe
    exact hne (hlawful.oneProbe hhalf call s.next ((probe_of_ne hne).mpr hprobe)
      ((probe_next opts s after).mpr hhalf))
  · intro horderly
    refine ⟨h.shut_transition after,fun hhalf call call' hcall hcall' => ?_,nofun⟩
    have hnew : ∀ {call}, (step opts (.execute after) s).Probe call → call = s.next := by
      intro call hprobe
      by_contra hne
      exact horderly hhalf call ((probe_of_ne hne).mp hprobe)
    rw [hnew hcall,hnew hcall']

theorem probe_of_complete {after : ℕ} {success : Bool} {other : ℕ}
    (hprobe : (step opts (.complete after call success) s).Probe other) : s.Probe other := by
  by_cases hcall : ∃ probe, s.calls call = some (.inFlight probe)
  · rw [step_complete hcall] at hprobe
    have hne : other ≠ call := by
      rintro rfl
      cases (Function.update_self _ _ _).symm.trans hprobe
    exact (Function.update_of_ne hne _ _).symm.trans hprobe
  · rw [step_stray hcall] at hprobe
    exact hprobe

theorem Kept.single_complete (h : Kept opts s) (after : ℕ) (success : Bool) (other other' : ℕ)
    (hprobe : (step opts (.complete after call success) s).Probe other)
    (hprobe' : (step opts (.complete after call success) s).Probe other') : other = other' :=
  h.single other other' (probe_of_complete hprobe) (probe_of_complete hprobe')

theorem Kept.succeed (h : Kept opts s) (hcall : ∃ probe, s.calls call = some (.inFlight probe))
    (after : ℕ) :
    Lawful opts s (.complete after call true) ↔ Orderly opts s (.complete after call true) := by
  have hdated : Dated opts (s.become (s.clock+after) (s.breaker.onSuccess (s.clock+after))) :=
    Dated.onSuccess _
  have hshut : Shut opts (step opts (.complete after call true) s) ↔
      Shut opts (s.become (s.clock+after) (s.breaker.onSuccess (s.clock+after))) := by
    rw [step_complete hcall]
    exact Iff.rfl
  constructor
  · intro hlawful _ hstate
    obtain ⟨openedAt,hat⟩ := h.opened hstate
    refine (CircuitBreaker.cooldownElapsed_iff opts hat).mpr ?_
    exact (shut_iff hdated).mp (hshut.mp hlawful.shut) (by rintro ⟨⟩) openedAt (h.latest _ hat)
  · intro horderly
    refine ⟨hshut.mpr ((shut_iff hdated).mpr fun _ opened hopened => ?_),?_,?_⟩
    · have hopened : s.opened = some opened := hopened
      by_cases hstate : s.breaker.state = .opened
      · obtain ⟨openedAt,hat⟩ := h.opened hstate
        obtain rfl : openedAt = opened :=
          Option.some.inj ((h.latest openedAt hat).symm.trans hopened)
        exact (CircuitBreaker.cooldownElapsed_iff opts hat).mp (horderly hcall hstate)
      · exact h.cooled hstate hopened after
    · exact fun _ => h.single_complete after true
    · rintro _ _ _ ⟨⟩ -
      rw [step_complete hcall]
      rfl

theorem Kept.fail (h : Kept opts s) (hcall : ∃ probe, s.calls call = some (.inFlight probe))
    (after : ℕ) :
    Lawful opts s (.complete after call false) ↔ Orderly opts s (.complete after call false) := by
  have hdated := h.onFailure after
  have hbreaker : (step opts (.complete after call false) s).breaker =
      s.breaker.onFailure opts (s.clock+after) := by
    rw [step_complete hcall]
    rfl
  have hone : OneProbe (step opts (.complete after call false) s) :=
    fun _ => h.single_complete after false
  have hshut : Shut opts (step opts (.complete after call false) s) := by
    rw [step_complete hcall]
    change Shut opts (s.become (s.clock+after) (s.breaker.onFailure opts (s.clock+after)))
    rcases s.breaker.onFailure_cases opts (s.clock+after) with ⟨-,hopened,-⟩ | ⟨-,hstate,hat⟩
    · exact (shut_iff hdated).mpr fun hne => absurd hopened hne
    · exact h.shut_become after hdated hstate hat
  rcases s.breaker.onFailure_cases opts (s.clock+after) with ⟨hmany,hopened,hnow⟩ | ⟨hfew,hstate,hat⟩
  · refine ⟨fun _ _ => hmany,fun _ => ⟨hshut,hone,?_⟩⟩
    rintro _ _ _ ⟨⟩ -
    rw [hbreaker]
    exact ⟨hopened,hnow⟩
  · refine ⟨fun hlawful hprobe => ?_,fun horderly => ⟨hshut,hone,?_⟩⟩
    · have hdecided := hlawful.probeDecides after call false rfl hprobe
      rw [hbreaker] at hdecided
      obtain ⟨hopened,hnow⟩ := hdecided
      -- the circuit was opened at this moment before, so its window has not expired
      rcases h.recent (hstate ▸ hopened) _ (hat ▸ hnow) with hlt | ⟨hmany,hwindow⟩
      · exact absurd hlt (Nat.not_lt.mpr (Nat.le_add_right _ _))
      · unfold CircuitBreaker.resetWindow at hfew ⊢
        rw [if_neg (Nat.not_lt.mpr hwindow)] at hfew ⊢
        omega
    · rintro _ _ _ ⟨⟩ hprobe
      exact absurd (horderly hprobe) (Nat.not_le.mpr hfew)

theorem Kept.stray (h : Kept opts s) (hcall : ¬ ∃ probe, s.calls call = some (.inFlight probe))
    (after : ℕ) (success : Bool) :
    Lawful opts s (.complete after call success) ∧ Orderly opts s (.complete after call success) := by
  refine ⟨⟨?_,?_,?_⟩,?_⟩
  · rw [step_stray hcall]
    exact h.shut_become after (h.wait after) rfl rfl
  · exact fun _ => h.single_complete after success
  · rintro _ _ _ ⟨⟩ hprobe
    exact absurd ⟨true,hprobe⟩ hcall
  · cases success with
    | true => exact fun hflight => absurd hflight hcall
    | false => exact fun hprobe => absurd ⟨true,hprobe⟩ hcall

theorem Kept.lawful_iff (h : Kept opts s) (event : BreakerEvent) :
    Lawful opts s event ↔ Orderly opts s event := by
  cases event with
  | execute after => exact h.execute after
  | complete after call success =>
    by_cases hcall : ∃ probe, s.calls call = some (.inFlight probe)
    · cases success with
      | true => exact h.succeed hcall after
      | false => exact h.fail hcall after
    · obtain ⟨hlawful,horderly⟩ := h.stray hcall after success
      exact iff_of_true hlawful horderly
  | toHealthSnapshot after =>
    refine iff_of_true ⟨h.shut_transition after,?_,nofun⟩ trivial
    exact fun _ => h.single

theorem Kept.step (h : Kept opts s) {event : BreakerEvent} (horderly : Orderly opts s event) :
    Kept opts (BreakerRun.step opts event s) := by
  have hlawful := (h.lawful_iff event).mpr horderly
  refine { tracked_step event h.toTracked with
    shut := hlawful.shut
    single := ?_ }
  cases event with
  | execute after =>
    by_cases hhalf :
        (s.breaker.maybeTransitionToHalfOpen opts (s.clock+after)).state = .halfOpen
    · exact hlawful.oneProbe hhalf
    · have hold : ∀ {call}, (BreakerRun.step opts (.execute after) s).Probe call →
          s.Probe call := by
        intro call hprobe
        by_cases hne : call = s.next
        · exact absurd ((probe_next opts s after).mp (hne ▸ hprobe)) hhalf
        · exact (probe_of_ne hne).mp hprobe
      exact fun call call' hcall hcall' => h.single call call' (hold hcall) (hold hcall')
  | complete after call success => exact h.single_complete after success
  | toHealthSnapshot after => exact h.single

/-- The law holds along a run exactly if the calls come and go in order. -/
theorem lawful_iff_orderly (opts : CircuitBreakerOptions) (now : ℕ) (events : List BreakerEvent) :
    Runs.Along (step opts) (Lawful opts) (start now) events ↔
      Runs.Along (step opts) (Orderly opts) (start now) events := by
  have hstart : Kept opts (start now) := kept_start now
  constructor
  · intro hlawful
    exact hlawful.of_invariant (fun s event h hguard => h.step ((h.lawful_iff event).mp hguard))
      (fun s event h hguard => (h.lawful_iff event).mp hguard) hstart
  · intro horderly
    exact horderly.of_invariant (fun s event h hguard => h.step hguard)
      (fun s event h hguard => (h.lawful_iff event).mpr hguard) hstart

def outage : List BreakerEvent :=
  List.replicate 5 (.execute 0) ++ (List.range 5).map fun call => .complete 0 call false

/-- The probe admitted after the cooldown fails in a new window, where it is the first
failure: the circuit stays half open. -/
theorem slowProbe_not_lawful :
    ¬ ∀ opts now events, Runs.Along (step opts) (Lawful opts) (start now) events := by
  intro h
  have hrun := (Runs.along_append.mp
    (h {} 0 (outage ++ [.execute 30000,.complete 1 5 false]))).2
  have hopened : CircuitState.halfOpen = .opened :=
    (hrun.2.1.probeDecides 1 5 false rfl rfl).1
  cases hopened

end BreakerRun

end YieldVault.Backend
