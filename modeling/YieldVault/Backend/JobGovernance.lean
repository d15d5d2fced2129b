import YieldVault.Attempts
import YieldVault.Runs

/-! The scheduled jobs of the backend: each is tried a number of times with growing
pauses, and a store counts the runs, keeps the dead letters and tells whether a job
fails again and again. Any number of runs overlap; a run touches the store when it
starts and when it ends. -/
namespace YieldVault.Backend

open Attempts

inductive JobName
  | priceRefresh | positionReconciliation | reportGeneration | databaseBackup
  deriving DecidableEq

def JobName.all : List JobName :=
  [.priceRefresh,.positionReconciliation,.reportGeneration,.databaseBackup]

theorem JobName.mem_all (jobName : JobName) : jobName ∈ JobName.all := by
  cases jobName <;> decide

structure JobPolicy where
  maxAttempts : ℕ
  baseDelayMs : ℕ
  backoffMultiplier : ℕ
  deadLetterThreshold : ℕ

def JOB_POLICIES : JobName → JobPolicy
  | .priceRefresh => ⟨3,1000,2,3⟩
  | .positionReconciliation => ⟨4,2000,2,2⟩
  | .reportGeneration => ⟨5,5000,2,2⟩
  | .databaseBackup => ⟨3,10000,2,2⟩

/-- What a task can throw. -/
inductive TaskError
  | error (message : String)
  | text (value : String)
  | other
  deriving DecidableEq

def normalizeError : TaskError → String
  | .error message => message
  | .text value => value
  | .other => "Unknown job failure"

structure DeadLetterRecord (P : Type) where
  jobName : JobName
  attempts : ℕ
  error : String
  payload : Option P
  failedAt : ℤ

structure JobRuntimeMetric where
  totalRuns : ℕ := 0
  successfulRuns : ℕ := 0
  failedRuns : ℕ := 0
  inFlight : ℕ := 0
  lastRunAt : Option ℤ := none
  lastSuccessAt : Option ℤ := none
  lastFailureAt : Option ℤ := none
  lastDurationMs : Option ℤ := none
  averageDurationMs : ℤ := 0

structure JobGovernanceStore (P : Type) where
  deadLetters : List (DeadLetterRecord P) := []
  failureCounts : JobName → Option ℕ := fun _ => none
  runtime : JobName → Option JobRuntimeMetric := fun _ => none

/-- `Math.round(n / d)` for a positive `d`: halves are rounded up. -/
def roundDiv (n d : ℤ) : ℤ := (2*n+d)/(2*d)

def JobRuntimeMetric.started (now : ℤ) (m : JobRuntimeMetric) : JobRuntimeMetric :=
  { m with totalRuns := m.totalRuns+1, inFlight := m.inFlight+1, lastRunAt := some now }

/-- The durations so far, and the new one, in one average. -/
def JobRuntimeMetric.average (m : JobRuntimeMetric) (durationMs : ℤ) : ℤ :=
  let completedRuns : ℕ := m.successfulRuns+m.failedRuns
  if completedRuns = 0 then durationMs
  else roundDiv (m.averageDurationMs*completedRuns+durationMs) (completedRuns+1)

def JobRuntimeMetric.completed (now durationMs : ℤ) (success : Bool) (m : JobRuntimeMetric) :
    JobRuntimeMetric :=
  let m := { m with
    inFlight := m.inFlight-1
    lastDurationMs := some durationMs
    averageDurationMs := m.average durationMs }
  if success then { m with successfulRuns := m.successfulRuns+1, lastSuccessAt := some now }
  else { m with failedRuns := m.failedRuns+1, lastFailureAt := some now }

namespace JobGovernanceStore

variable {P : Type}

def ensureRuntimeMetric (s : JobGovernanceStore P) (jobName : JobName) : JobRuntimeMetric :=
  (s.runtime jobName).getD {}

def setMetric (jobName : JobName) (m : JobRuntimeMetric) (s : JobGovernanceStore P) :
    JobGovernanceStore P :=
  { s with runtime := Function.update s.runtime jobName (some m) }

def markStarted (now : ℤ) (jobName : JobName) (s : JobGovernanceStore P) : JobGovernanceStore P :=
  s.setMetric jobName ((s.ensureRuntimeMetric jobName).started now)

def markCompleted (now : ℤ) (jobName : JobName) (durationMs : ℤ) (success : Bool)
    (s : JobGovernanceStore P) : JobGovernanceStore P :=
  s.setMetric jobName ((s.ensureRuntimeMetric jobName).completed now durationMs success)

def recordDeadLetter (letter : DeadLetterRecord P) (s : JobGovernanceStore P) :
    JobGovernanceStore P :=
  { s with
    deadLetters := letter :: s.deadLetters
    failureCounts := Function.update s.failureCounts letter.jobName
      (some ((s.failureCounts letter.jobName).getD 0+1)) }

def recurringFailures (s : JobGovernanceStore P) (jobName : JobName) : Option ℕ :=
  (s.failureCounts jobName).filter fun failures =>
    decide ((JOB_POLICIES jobName).deadLetterThreshold ≤ failures)

def hasRecurringFailures (s : JobGovernanceStore P) : Bool :=
  JobName.all.any fun jobName => (s.recurringFailures jobName).isSome

end JobGovernanceStore

inductive JobHealth
  | up | degraded
  deriving DecidableEq

def getJobHealthStatus {P : Type} (s : JobGovernanceStore P) : JobHealth :=
  if s.hasRecurringFailures then .degraded else .up

/-- `Math.round` of a whole number is that number. -/
def calculateBackoffDelay (policy : JobPolicy) (attempt : ℕ) : ℕ :=
  policy.baseDelayMs*policy.backoffMultiplier^(attempt-1)

/-- The condition under which the loop of `runJobWithRetry` sleeps and goes on. -/
def JobPolicy.again (policy : JobPolicy) (attempt : ℕ) (_ : TaskError) : Bool :=
  decide (attempt < policy.maxAttempts)

/-- One call of `runJobWithRetry`: what its task has answered so far, the pauses it has
asked for, and how long it took once it has ended. -/
structure JobRun (P A : Type) where
  jobName : JobName
  payload : Option P
  startedAt : ℤ
  outs : List (Except TaskError A) := []
  delays : List ℕ := []
  phase : Attempts.Phase TaskError A := .trying 1
  durationMs : Option ℤ := none

structure JobServer (P A : Type) where
  store : JobGovernanceStore P := {}
  runs : List (JobRun P A) := []

inductive JobEvent (P A : Type)
  | start (jobName : JobName) (payload : Option P) (now : ℤ)
  | answer (run : ℕ) (result : Except TaskError A) (now : ℤ)
  | wake (run : ℕ)

namespace JobServer

variable {P A : Type}

def start (jobName : JobName) (payload : Option P) (now : ℤ) (s : JobServer P A) : JobServer P A :=
  { store := s.store.markStarted now jobName
    runs := s.runs ++ [{ jobName := jobName, payload := payload, startedAt := now }] }

/-- What a run leaves in the store when its loop has ended. -/
def close (now : ℤ) (run : JobRun P A) : Except TaskError A → JobGovernanceStore P →
    JobGovernanceStore P
  | .ok _, store => store.markCompleted now run.jobName (now-run.startedAt) true
  | .error e, store =>
    (store.recordDeadLetter
      ⟨run.jobName,(JOB_POLICIES run.jobName).maxAttempts,normalizeError e,run.payload,now⟩).markCompleted
        now run.jobName (now-run.startedAt) false

def answer (i : ℕ) (run : JobRun P A) (k : ℕ) (result : Except TaskError A) (now : ℤ)
    (s : JobServer P A) : JobServer P A :=
  let run := { run with outs := run.outs ++ [result] }
  match Attempts.settle (JOB_POLICIES run.jobName).again k result with
  | .ended r =>
    { store := close now run r s.store
      runs := s.runs.set i { run with phase := .ended r, durationMs := some (now-run.startedAt) } }
  | phase =>
    { s with runs := s.runs.set i { run with
      phase := phase
      delays := run.delays ++ [calculateBackoffDelay (JOB_POLICIES run.jobName) k] } }

def step : JobEvent P A → JobServer P A → JobServer P A
  | .start jobName payload now, s => s.start jobName payload now
  | .answer i result now, s => match s.runs[i]? with
    | some run => match run.phase with
      | .trying k => s.answer i run k result now
      | _ => s
    | none => s
  | .wake i, s => match s.runs[i]? with
    | some run => match run.phase with
      | .waiting k => { s with runs := s.runs.set i { run with phase := .trying (k+1) } }
      | _ => s
    | none => s

def run (events : List (JobEvent P A)) : JobServer P A := Runs.run step events {}

end JobServer

section Counting

/-! One element of a list is replaced by another. -/

variable {α β : Type*} {l : List α} {i : ℕ} {a b : α}

theorem countP_set_add {p : α → Bool} (h : l[i]? = some a) :
    (l.set i b).countP p+(if p a then 1 else 0) = l.countP p+(if p b then 1 else 0) := by
  induction l generalizing i with
  | nil => simp at h
  | cons c l ih =>
    cases i with
    | zero =>
      obtain rfl : c = a := by simpa using h
      simp only [List.set_cons_zero,List.countP_cons]
      omega
    | succ i =>
      have hi := ih (i := i) (by simpa using h)
      simp only [List.set_cons_succ,List.countP_cons]
      omega

theorem countP_set_same {p : α → Bool} (h : l[i]? = some a) (hp : p b = p a) :
    (l.set i b).countP p = l.countP p := by
  have hc := countP_set_add (b := b) (p := p) h
  rw [hp] at hc
  omega

theorem mem_set_or_eq {c : α} (h : l[i]? = some a) (hc : c ∈ l) : c ∈ l.set i b ∨ c = a := by
  obtain ⟨j,hj⟩ := List.mem_iff_getElem?.mp hc
  by_cases hij : i = j
  · subst hij
    exact Or.inr (Option.some.inj (hj.symm.trans h))
  · refine Or.inl (List.mem_iff_getElem?.mpr ⟨j,?_⟩)
    rw [List.getElem?_set_ne hij]
    exact hj

theorem mem_set_self (h : l[i]? = some a) : b ∈ l.set i b := by
  obtain ⟨hi,-⟩ := List.getElem?_eq_some_iff.mp h
  exact List.mem_iff_getElem?.mpr ⟨i,List.getElem?_set_self hi⟩

theorem filterMap_set_same {f : α → Option β} (h : l[i]? = some a) (hf : f b = f a) :
    (l.set i b).filterMap f = l.filterMap f := by
  induction l generalizing i with
  | nil => rfl
  | cons c l ih =>
    cases i with
    | zero =>
      obtain rfl : c = a := by simpa using h
      simp [List.filterMap_cons,hf]
    | succ i => simp [List.filterMap_cons,ih (i := i) (by simpa using h)]

theorem filterMap_set_perm {f : α → Option β} {x : β} (h : l[i]? = some a) (ha : f a = none)
    (hb : f b = some x) : ((l.set i b).filterMap f).Perm (x :: l.filterMap f) := by
  induction l generalizing i with
  | nil => simp at h
  | cons c l ih =>
    cases i with
    | zero =>
      obtain rfl : c = a := by simpa using h
      simp [ha,hb]
    | succ i =>
      have hi := ih (i := i) (by simpa using h)
      cases hc : f c with
      | none => simpa [List.filterMap_cons,hc] using hi
      | some y =>
        simp only [List.set_cons_succ,List.filterMap_cons,hc]
        exact (hi.cons y).trans (List.Perm.swap x y _)

end Counting

namespace JobRun

variable {P A : Type}

def succeeded : JobRun P A → Bool := fun r => match r.phase with
  | .ended (.ok _) => true
  | _ => false

def failed : JobRun P A → Bool := fun r => match r.phase with
  | .ended (.error _) => true
  | _ => false

def isOf (jobName : JobName) (r : JobRun P A) : Bool := decide (r.jobName = jobName)

/-- What a failed run has to say: how often it has really been tried, and its last error. -/
def letter? (r : JobRun P A) : Option (DeadLetterRecord P) :=
  match r.phase, r.durationMs with
  | .ended (.error e), some durationMs =>
    some ⟨r.jobName,r.outs.length,normalizeError e,r.payload,r.startedAt+durationMs⟩
  | _, _ => none

/-- The loop of a run as its policy has it, and the pauses it has asked for. -/
structure Lawful (r : JobRun P A) : Prop where
  trail : Trail (JOB_POLICIES r.jobName).again r.outs r.phase
  delays : r.delays = (List.range (r.outs.length-if r.phase.isEnded then 1 else 0)).map
    fun i => calculateBackoffDelay (JOB_POLICIES r.jobName) (i+1)
  ended : r.durationMs.isSome = r.phase.isEnded

end JobRun

namespace JobServer

variable {P A : Type}

/-- The answer to an attempt ends the run, or the run goes on and the store is as it was. -/
theorem answer_cases (i : ℕ) (r : JobRun P A) (k : ℕ) (result : Except TaskError A) (now : ℤ)
    (s : JobServer P A) :
    (Attempts.settle (JOB_POLICIES r.jobName).again k result = .ended result ∧
      s.answer i r k result now = ⟨close now r result s.store,s.runs.set i { r with
        outs := r.outs ++ [result], phase := .ended result
        durationMs := some (now-r.startedAt) }⟩) ∨
    (Attempts.settle (JOB_POLICIES r.jobName).again k result = .waiting k ∧
      s.answer i r k result now = ⟨s.store,s.runs.set i { r with
        outs := r.outs ++ [result], phase := .waiting k
        delays := r.delays ++ [calculateBackoffDelay (JOB_POLICIES r.jobName) k] }⟩) := by
  rcases Attempts.settle_cases (JOB_POLICIES r.jobName).again k result with h | ⟨h,-⟩
  · refine Or.inl ⟨h,?_⟩
    simp only [answer,h]
    cases result <;> rfl
  · refine Or.inr ⟨h,?_⟩
    simp only [answer,h]

theorem step_cases (ev : JobEvent P A) (s : JobServer P A) :
    (∃ jobName payload now, step ev s = s.start jobName payload now) ∨
    (∃ i r k result now, s.runs[i]? = some r ∧ r.phase = .trying k ∧
      step ev s = s.answer i r k result now) ∨
    (∃ i r k, s.runs[i]? = some r ∧ r.phase = .waiting k ∧
      step ev s = { s with runs := s.runs.set i { r with phase := .trying (k+1) } }) ∨
    step ev s = s := by
  cases ev with
  | start jobName payload now => exact Or.inl ⟨jobName,payload,now,rfl⟩
  | answer i result now =>
    cases hrun : s.runs[i]? with
    | none => exact Or.inr (Or.inr (Or.inr (by simp [step,hrun])))
    | some r =>
      cases hphase : r.phase with
      | trying k => exact Or.inr (Or.inl ⟨i,r,k,result,now,hrun,hphase,by simp [step,hrun,hphase]⟩)
      | waiting k => exact Or.inr (Or.inr (Or.inr (by simp [step,hrun,hphase])))
      | ended r => exact Or.inr (Or.inr (Or.inr (by simp [step,hrun,hphase])))
  | wake i =>
    cases hrun : s.runs[i]? with
    | none => exact Or.inr (Or.inr (Or.inr (by simp [step,hrun])))
    | some r =>
      cases hphase : r.phase with
      | waiting k => exact Or.inr (Or.inr (Or.inl ⟨i,r,k,hrun,hphase,by simp [step,hrun,hphase]⟩))
      | trying k => exact Or.inr (Or.inr (Or.inr (by simp [step,hrun,hphase])))
      | ended r => exact Or.inr (Or.inr (Or.inr (by simp [step,hrun,hphase])))

section Loops

theorem lawful_start (jobName : JobName) (payload : Option P) (now : ℤ) :
    JobRun.Lawful (A := A) { jobName := jobName, payload := payload, startedAt := now } :=
  ⟨Trail.start,rfl,rfl⟩

theorem lawful_wake {r : JobRun P A} (h : r.Lawful) {k : ℕ} (hk : r.phase = .waiting k) :
    JobRun.Lawful { r with phase := .trying (k+1) } := by
  refine ⟨?_,?_,?_⟩
  · exact Trail.woken (hk ▸ h.trail)
  · simpa [hk,Attempts.Phase.isEnded] using h.delays
  · simpa [hk,Attempts.Phase.isEnded] using h.ended

theorem lawful_waiting {r : JobRun P A} (h : r.Lawful) {k : ℕ} (hk : r.phase = .trying k)
    {result : Except TaskError A}
    (hs : Attempts.settle (JOB_POLICIES r.jobName).again k result = .waiting k) :
    JobRun.Lawful { r with
      outs := r.outs ++ [result], phase := .waiting k
      delays := r.delays ++ [calculateBackoffDelay (JOB_POLICIES r.jobName) k] } := by
  have htrail : Trail (JOB_POLICIES r.jobName).again r.outs (.trying k) := hk ▸ h.trail
  obtain ⟨es,houts,hlen,-⟩ := htrail.stands
  refine ⟨?_,?_,?_⟩
  · exact hs ▸ htrail.settled result
  · have hd := h.delays
    simp [hk,Attempts.Phase.isEnded] at hd
    simp [hd,Attempts.Phase.isEnded,List.range_succ,houts,hlen]
  · simpa [hk,Attempts.Phase.isEnded] using h.ended

theorem lawful_ended {r : JobRun P A} (h : r.Lawful) {k : ℕ} (hk : r.phase = .trying k)
    {result : Except TaskError A}
    (hs : Attempts.settle (JOB_POLICIES r.jobName).again k result = .ended result) (now : ℤ) :
    JobRun.Lawful { r with
      outs := r.outs ++ [result], phase := .ended result
      durationMs := some (now-r.startedAt) } := by
  refine ⟨?_,?_,rfl⟩
  · exact hs ▸ (hk ▸ h.trail : Trail _ r.outs (.trying k)).settled result
  · have hd := h.delays
    simp [hk,Attempts.Phase.isEnded] at hd
    simp [hd,Attempts.Phase.isEnded]

theorem step_lawful {s : JobServer P A} (h : ∀ r ∈ s.runs, r.Lawful) (ev : JobEvent P A) :
    ∀ r ∈ (step ev s).runs, r.Lawful := by
  intro r hr
  rcases step_cases ev s with ⟨jobName,payload,now,hs⟩ | ⟨i,q,k,result,now,hi,hk,hs⟩ |
    ⟨i,q,k,hi,hk,hs⟩ | hs
  · rw [hs,start] at hr
    rcases List.mem_append.mp hr with hr | hr
    · exact h r hr
    · obtain rfl := List.mem_singleton.mp hr
      apply lawful_start
  · have hq := h q (List.mem_of_getElem? hi)
    rw [hs] at hr
    rcases answer_cases i q k result now s with ⟨hend,ha⟩ | ⟨hwait,ha⟩
    · rw [ha] at hr
      rcases List.mem_or_eq_of_mem_set hr with hr | rfl
      · exact h r hr
      · exact lawful_ended hq hk hend now
    · rw [ha] at hr
      rcases List.mem_or_eq_of_mem_set hr with hr | rfl
      · exact h r hr
      · exact lawful_waiting hq hk hwait
  · rw [hs] at hr
    rcases List.mem_or_eq_of_mem_set hr with hr | rfl
    · exact h r hr
    · exact lawful_wake (h q (List.mem_of_getElem? hi)) hk
  · rw [hs] at hr
    exact h r hr

theorem run_lawful (events : List (JobEvent P A)) : ∀ r ∈ (run events).runs, r.Lawful := by
  have hstep : ∀ (s : JobServer P A) ev, (∀ r ∈ s.runs, r.Lawful) →
      ∀ r ∈ (step ev s).runs, r.Lawful := fun _ ev h => step_lawful h ev
  apply Runs.invariant hstep events
  intro r hr
  simp at hr

end Loops

section Accounts

/-- The counters of a job are the numbers of its runs, whatever else is going on. -/
structure Accounted (jobName : JobName) (s : JobServer P A) : Prop where
  total : (s.store.ensureRuntimeMetric jobName).totalRuns = s.runs.countP (·.isOf jobName)
  successes : (s.store.ensureRuntimeMetric jobName).successfulRuns =
    s.runs.countP fun r => r.isOf jobName && r.succeeded
  failures : (s.store.ensureRuntimeMetric jobName).failedRuns =
    s.runs.countP fun r => r.isOf jobName && r.failed
  inFlight : (s.store.ensureRuntimeMetric jobName).inFlight =
    s.runs.countP fun r => r.isOf jobName && !r.phase.isEnded
  failureCounts : (s.store.failureCounts jobName).getD 0 =
    s.runs.countP fun r => r.isOf jobName && r.failed

/-- The average of a job lies between its fastest and its slowest run so far. -/
def Averaged (jobName : JobName) (s : JobServer P A) : Prop :=
  ∀ lo hi : ℤ, (∀ r ∈ s.runs, r.jobName = jobName → ∀ d, r.durationMs = some d → lo ≤ d ∧ d ≤ hi) →
    (∃ r ∈ s.runs, r.jobName = jobName ∧ r.phase.isEnded = true) →
    lo ≤ (s.store.ensureRuntimeMetric jobName).averageDurationMs ∧
      (s.store.ensureRuntimeMetric jobName).averageDurationMs ≤ hi

variable {jobName : JobName} {s : JobServer P A}

@[simp] theorem ensureRuntimeMetric_setMetric (s : JobGovernanceStore P) (n n' : JobName)
    (m : JobRuntimeMetric) :
    (s.setMetric n m).ensureRuntimeMetric n' = if n' = n then m else s.ensureRuntimeMetric n' := by
  unfold JobGovernanceStore.ensureRuntimeMetric JobGovernanceStore.setMetric
  by_cases h : n' = n
  · simp [h]
  · simp [h]

@[simp] theorem ensureRuntimeMetric_recordDeadLetter (s : JobGovernanceStore P)
    (letter : DeadLetterRecord P) (n : JobName) :
    (s.recordDeadLetter letter).ensureRuntimeMetric n = s.ensureRuntimeMetric n := rfl

theorem ensureRuntimeMetric_close (now : ℤ) (r : JobRun P A) (result : Except TaskError A)
    (s : JobGovernanceStore P) (n : JobName) :
    (close now r result s).ensureRuntimeMetric n = if n = r.jobName then
      (s.ensureRuntimeMetric n).completed now (now-r.startedAt) result.isOk
      else s.ensureRuntimeMetric n := by
  cases result with
  | ok a =>
    simp only [close,JobGovernanceStore.markCompleted,ensureRuntimeMetric_setMetric]
    split_ifs with h
    · rw [h]; rfl
    · rfl
  | error e =>
    simp only [close,JobGovernanceStore.markCompleted,ensureRuntimeMetric_setMetric,
      ensureRuntimeMetric_recordDeadLetter]
    split_ifs with h
    · rw [h]; rfl
    · rfl

theorem failureCounts_close (now : ℤ) (r : JobRun P A) (result : Except TaskError A)
    (s : JobGovernanceStore P) (n : JobName) :
    ((close now r result s).failureCounts n).getD 0 =
      (s.failureCounts n).getD 0+if n = r.jobName ∧ result.isOk = false then 1 else 0 := by
  cases result with
  | ok a => simp [close,JobGovernanceStore.markCompleted,JobGovernanceStore.setMetric,Except.isOk,Except.toBool]
  | error e =>
    by_cases h : n = r.jobName
    · simp [close,JobGovernanceStore.markCompleted,JobGovernanceStore.setMetric,
        JobGovernanceStore.recordDeadLetter,Except.isOk,Except.toBool,h]
    · simp [close,JobGovernanceStore.markCompleted,JobGovernanceStore.setMetric,
        JobGovernanceStore.recordDeadLetter,h]

theorem accounted_start (h : Accounted jobName s) (n : JobName) (payload : Option P) (now : ℤ) :
    Accounted jobName (s.start n payload now) := by
  by_cases hn : jobName = n
  · subst hn
    constructor
    · simp [start,JobGovernanceStore.markStarted,JobRuntimeMetric.started,JobRun.isOf,h.total]
    · simp [start,JobGovernanceStore.markStarted,JobRuntimeMetric.started,JobRun.isOf,
        JobRun.succeeded,h.successes]
    · simp [start,JobGovernanceStore.markStarted,JobRuntimeMetric.started,JobRun.isOf,
        JobRun.failed,h.failures]
    · simp [start,JobGovernanceStore.markStarted,JobRuntimeMetric.started,JobRun.isOf,
        Attempts.Phase.isEnded,h.inFlight]
    · simpa [start,JobGovernanceStore.markStarted,JobGovernanceStore.setMetric,JobRun.isOf,
        JobRun.failed] using h.failureCounts
  · have hn' : ¬ n = jobName := fun he => hn he.symm
    constructor
    · simpa [start,JobGovernanceStore.markStarted,JobRun.isOf,hn,hn'] using h.total
    · simpa [start,JobGovernanceStore.markStarted,JobRun.isOf,hn,hn'] using h.successes
    · simpa [start,JobGovernanceStore.markStarted,JobRun.isOf,hn,hn'] using h.failures
    · simpa [start,JobGovernanceStore.markStarted,JobRun.isOf,hn,hn'] using h.inFlight
    · simpa [start,JobGovernanceStore.markStarted,JobGovernanceStore.setMetric,JobRun.isOf,
        hn'] using h.failureCounts

theorem accounted_goesOn (h : Accounted jobName s) {i : ℕ} {r q : JobRun P A}
    (hi : s.runs[i]? = some r) (hname : q.jobName = r.jobName) (hr : r.phase.isEnded = false)
    (hq : q.phase.isEnded = false) :
    Accounted jobName ⟨s.store,s.runs.set i q⟩ := by
  have hopen : ∀ p : JobRun P A, p.phase.isEnded = false →
      p.succeeded = false ∧ p.failed = false := by
    intro p hp
    unfold JobRun.succeeded JobRun.failed
    cases hphase : p.phase <;> simp_all [Attempts.Phase.isEnded]
  constructor
  · rw [countP_set_same hi (by simp [JobRun.isOf,hname])]
    exact h.total
  · rw [countP_set_same hi (by simp [(hopen _ hr).1,(hopen _ hq).1])]
    exact h.successes
  · rw [countP_set_same hi (by simp [(hopen _ hr).2,(hopen _ hq).2])]
    exact h.failures
  · rw [countP_set_same hi (by simp [JobRun.isOf,hname,hr,hq])]
    exact h.inFlight
  · rw [countP_set_same hi (by simp [(hopen _ hr).2,(hopen _ hq).2])]
    exact h.failureCounts

/-- A run that ends moves from those in flight to the successes or the failures. -/
theorem accounted_ends (h : Accounted jobName s) {i : ℕ} {r q : JobRun P A}
    (hi : s.runs[i]? = some r) {now : ℤ} {result : Except TaskError A}
    (hname : q.jobName = r.jobName) (hr : r.phase.isEnded = false)
    (hq : q.phase = .ended result) :
    Accounted jobName ⟨close now r result s.store,s.runs.set i q⟩ := by
  have hr0 : r.succeeded = false ∧ r.failed = false := by
    unfold JobRun.succeeded JobRun.failed
    cases hphase : r.phase <;> simp_all [Attempts.Phase.isEnded]
  have hq1 : q.succeeded = result.isOk ∧ q.failed = !result.isOk := by
    unfold JobRun.succeeded JobRun.failed
    rw [hq]
    cases result <;> exact ⟨rfl,rfl⟩
  have htotal := countP_set_same (b := q) (p := (·.isOf jobName)) hi (by simp [JobRun.isOf,hname])
  have hsucc := countP_set_add (b := q) (p := fun p => p.isOf jobName && p.succeeded) hi
  have hfail := countP_set_add (b := q) (p := fun p => p.isOf jobName && p.failed) hi
  have hopen := countP_set_add (b := q) (p := fun p => p.isOf jobName && !p.phase.isEnded) hi
  have hqe : q.phase.isEnded = true := by rw [hq]; rfl
  have hm := ensureRuntimeMetric_close now r result s.store jobName
  have hf := failureCounts_close now r result s.store jobName
  by_cases hn : jobName = r.jobName
  · have hof : r.isOf jobName = true ∧ q.isOf jobName = true := by simp [JobRun.isOf,hname,hn]
    rw [if_pos hn] at hm
    cases hok : result.isOk with
    | true =>
      simp [hof,hr0,hq1,hqe,hr,hok] at hsucc hfail hopen
      simp [hok] at hf
      constructor
      · simp [hm,htotal,JobRuntimeMetric.completed,hok,h.total]
      · simp [hm,JobRuntimeMetric.completed,hok,h.successes,hsucc]
      · simp [hm,JobRuntimeMetric.completed,hok,h.failures,hfail]
      · simp [hm,JobRuntimeMetric.completed,hok,h.inFlight]
        omega
      · simp [hf,h.failureCounts,hfail]
    | false =>
      simp [hof,hr0,hq1,hqe,hr,hok] at hsucc hfail hopen
      simp [hok,hn] at hf
      constructor
      · simp [hm,htotal,JobRuntimeMetric.completed,hok,h.total]
      · simp [hm,JobRuntimeMetric.completed,hok,h.successes,hsucc]
      · simp [hm,JobRuntimeMetric.completed,hok,h.failures,hfail]
      · simp [hm,JobRuntimeMetric.completed,hok,h.inFlight]
        omega
      · have hc := h.failureCounts
        simp only [hn] at hc hfail ⊢
        omega
  · have hof : r.isOf jobName = false ∧ q.isOf jobName = false := by
      have hn' : ¬ r.jobName = jobName := fun he => hn he.symm
      simp [JobRun.isOf,hname,hn']
    rw [if_neg hn] at hm
    simp [hof] at hsucc hfail hopen
    simp [hn] at hf
    constructor
    · simp [hm,htotal,h.total]
    · simp [hm,h.successes,hsucc]
    · simp [hm,h.failures,hfail]
    · simp [hm,h.inFlight,hopen]
    · simp [hf,h.failureCounts,hfail]

theorem roundDiv_between {n k lo hi : ℤ} (hk : 0 < k) (hlo : lo*k ≤ n) (hhi : n ≤ hi*k) :
    lo ≤ roundDiv n k ∧ roundDiv n k ≤ hi := by
  unfold roundDiv
  constructor
  · rw [Int.le_ediv_iff_mul_le (by omega)]
    nlinarith
  · have hlt : (2*n+k)/(2*k) < hi+1 := by
      rw [Int.ediv_lt_iff_lt_mul (by omega)]
      nlinarith
    omega

theorem average_between {m : JobRuntimeMetric} {d lo hi : ℤ} (hd : lo ≤ d ∧ d ≤ hi)
    (hm : m.successfulRuns+m.failedRuns ≠ 0 →
      lo ≤ m.averageDurationMs ∧ m.averageDurationMs ≤ hi) :
    lo ≤ m.average d ∧ m.average d ≤ hi := by
  simp only [JobRuntimeMetric.average]
  split_ifs with h0
  · exact hd
  · obtain ⟨h1,h2⟩ := hm h0
    have hc : (0 : ℤ) ≤ ((m.successfulRuns+m.failedRuns : ℕ) : ℤ) := by positivity
    apply roundDiv_between (by omega)
    · nlinarith
    · nlinarith

theorem averaged_start (h : Averaged jobName s) (n : JobName) (payload : Option P) (now : ℤ) :
    Averaged jobName (s.start n payload now) := by
  intro lo hi hb hex
  have havg : ((s.start n payload now).store.ensureRuntimeMetric jobName).averageDurationMs =
      (s.store.ensureRuntimeMetric jobName).averageDurationMs := by
    simp only [start,JobGovernanceStore.markStarted,ensureRuntimeMetric_setMetric]
    split_ifs with hn
    · rw [hn]; rfl
    · rfl
  rw [havg]
  apply h lo hi
  · exact fun r hr => hb r (List.mem_append_left _ hr)
  · obtain ⟨r,hr,hname,hend⟩ := hex
    rcases List.mem_append.mp hr with hr | hr
    · exact ⟨r,hr,hname,hend⟩
    · obtain rfl := List.mem_singleton.mp hr
      simp [Attempts.Phase.isEnded] at hend

theorem averaged_goesOn (h : Averaged jobName s) {i : ℕ} {r q : JobRun P A}
    (hi : s.runs[i]? = some r) (hr : r.durationMs = none) (hq : q.phase.isEnded = false) :
    Averaged jobName ⟨s.store,s.runs.set i q⟩ := by
  intro lo hi' hb hex
  apply h lo hi'
  · intro p hp hname d hd
    rcases mem_set_or_eq (b := q) hi hp with hp | rfl
    · exact hb p hp hname d hd
    · simp [hr] at hd
  · obtain ⟨p,hp,hname,hend⟩ := hex
    rcases List.mem_or_eq_of_mem_set hp with hp | rfl
    · exact ⟨p,hp,hname,hend⟩
    · simp [hq] at hend

theorem averaged_ends (h : Averaged jobName s) (hacc : Accounted jobName s) {i : ℕ}
    {r q : JobRun P A} (hi : s.runs[i]? = some r) {now : ℤ} {result : Except TaskError A}
    (hr : r.durationMs = none) (hname : q.jobName = r.jobName)
    (hq : q.durationMs = some (now-r.startedAt)) (hqe : q.phase.isEnded = true) :
    Averaged jobName ⟨close now r result s.store,s.runs.set i q⟩ := by
  intro lo hi' hb hex
  -- the durations of the runs that had ended before are among those that are bounded
  have hold : ∀ p ∈ s.runs, p.jobName = jobName → ∀ d, p.durationMs = some d →
      lo ≤ d ∧ d ≤ hi' := by
    intro p hp hpn d hd
    rcases mem_set_or_eq (b := q) hi hp with hp | rfl
    · exact hb p hp hpn d hd
    · simp [hr] at hd
  rw [ensureRuntimeMetric_close]
  split_ifs with hn
  · have hd := hb q (mem_set_self hi) (hname.trans hn.symm) _ hq
    have hm : (s.store.ensureRuntimeMetric jobName).successfulRuns+
        (s.store.ensureRuntimeMetric jobName).failedRuns ≠ 0 →
        lo ≤ (s.store.ensureRuntimeMetric jobName).averageDurationMs ∧
          (s.store.ensureRuntimeMetric jobName).averageDurationMs ≤ hi' := by
      intro hne
      apply h lo hi' hold
      rw [hacc.successes,hacc.failures] at hne
      have hpos : 0 < s.runs.countP (fun r => r.isOf jobName && r.succeeded) ∨
          0 < s.runs.countP (fun r => r.isOf jobName && r.failed) := by omega
      rcases hpos with hpos | hpos
      · obtain ⟨p,hp,hcond⟩ := List.countP_pos_iff.mp hpos
        simp only [Bool.and_eq_true,JobRun.isOf,decide_eq_true_eq] at hcond
        refine ⟨p,hp,hcond.1,?_⟩
        have hs := hcond.2
        unfold JobRun.succeeded at hs
        cases hphase : p.phase <;> simp_all [Attempts.Phase.isEnded]
      · obtain ⟨p,hp,hcond⟩ := List.countP_pos_iff.mp hpos
        simp only [Bool.and_eq_true,JobRun.isOf,decide_eq_true_eq] at hcond
        refine ⟨p,hp,hcond.1,?_⟩
        have hs := hcond.2
        unfold JobRun.failed at hs
        cases hphase : p.phase <;> simp_all [Attempts.Phase.isEnded]
    have havg := average_between hd hm
    cases result with
    | ok a => exact havg
    | error e => exact havg
  · apply h lo hi' hold
    obtain ⟨p,hp,hpn,hend⟩ := hex
    rcases List.mem_or_eq_of_mem_set hp with hp | rfl
    · exact ⟨p,hp,hpn,hend⟩
    · exact absurd (hpn.symm.trans hname) hn

theorem letters_close (now : ℤ) (r : JobRun P A) (result : Except TaskError A)
    (s : JobGovernanceStore P) :
    (close now r result s).deadLetters = match result with
      | .ok _ => s.deadLetters
      | .error e => ⟨r.jobName,(JOB_POLICIES r.jobName).maxAttempts,normalizeError e,r.payload,now⟩ ::
          s.deadLetters := by
  cases result <;> rfl

end Accounts

section Invariant

theorem maxAttempts_pos (jobName : JobName) : 1 ≤ (JOB_POLICIES jobName).maxAttempts := by
  cases jobName <;> decide

theorem deadLetterThreshold_pos (jobName : JobName) :
    0 < (JOB_POLICIES jobName).deadLetterThreshold := by
  cases jobName <;> decide

/-- What the store and the runs have to do with each other at any time. -/
structure Sound (s : JobServer P A) : Prop where
  lawful : ∀ r ∈ s.runs, r.Lawful
  accounted : ∀ jobName, Accounted jobName s
  averaged : ∀ jobName, Averaged jobName s
  letters : s.store.deadLetters.Perm (s.runs.filterMap JobRun.letter?)

theorem sound_initial : Sound ({} : JobServer P A) := by
  refine ⟨?_,fun n => ⟨rfl,rfl,rfl,rfl,rfl⟩,?_,List.Perm.refl _⟩
  · intro r hr
    simp at hr
  · intro n lo hi _ hex
    obtain ⟨r,hr,-⟩ := hex
    simp at hr

theorem letter?_of_open {r : JobRun P A} (h : r.phase.isEnded = false) : r.letter? = none := by
  unfold JobRun.letter?
  cases hphase : r.phase <;> simp_all [Attempts.Phase.isEnded]

theorem sound_answer {s : JobServer P A} (h : Sound s) {i : ℕ} {r : JobRun P A} {k : ℕ}
    {result : Except TaskError A} {now : ℤ} (hi : s.runs[i]? = some r) (hk : r.phase = .trying k)
    (hlawful : ∀ p ∈ (s.answer i r k result now).runs, p.Lawful) :
    Sound (s.answer i r k result now) := by
  have hopen : r.phase.isEnded = false := by rw [hk]; rfl
  have hr := h.lawful r (List.mem_of_getElem? hi)
  have hnone : r.durationMs = none := by
    have hend := hr.ended
    rw [hopen] at hend
    simpa using hend
  rcases answer_cases i r k result now s with ⟨hend,ha⟩ | ⟨hwait,ha⟩
  · rw [ha] at hlawful ⊢
    refine ⟨hlawful,fun n => ?_,fun n => ?_,?_⟩
    · exact accounted_ends (h.accounted n) hi rfl hopen rfl
    · exact averaged_ends (h.averaged n) (h.accounted n) hi hnone rfl rfl rfl
    · change (close now r result s.store).deadLetters.Perm _
      rw [letters_close]
      cases result with
      | ok a =>
        rw [filterMap_set_same hi (by rw [letter?_of_open hopen]; rfl)]
        exact h.letters
      | error e =>
        -- the number of attempts that the letter tells is the number of answers of the run
        have htrail : Trail (JOB_POLICIES r.jobName).again (r.outs ++ [.error e])
            (.ended (.error e)) := hend ▸ (hk ▸ hr.trail : Trail _ r.outs (.trying k)).settled _
        have hlen := ((htrail.exhausted (fun j f => by simp [JobPolicy.again])
          (maxAttempts_pos r.jobName)).mp rfl).1
        refine ((h.letters.cons _).trans (filterMap_set_perm hi (letter?_of_open hopen) ?_).symm)
        simp only [JobRun.letter?,hlen]
        congr 2
        omega
  · rw [ha] at hlawful ⊢
    refine ⟨hlawful,fun n => ?_,fun n => ?_,?_⟩
    · exact accounted_goesOn (h.accounted n) hi rfl hopen rfl
    · exact averaged_goesOn (h.averaged n) hi hnone rfl
    · change s.store.deadLetters.Perm _
      rw [filterMap_set_same hi (by rw [letter?_of_open hopen]; rfl)]
      exact h.letters

theorem step_sound {s : JobServer P A} (h : Sound s) (ev : JobEvent P A) : Sound (step ev s) := by
  have hlawful := step_lawful h.lawful ev
  rcases step_cases ev s with ⟨jobName,payload,now,hs⟩ | ⟨i,r,k,result,now,hi,hk,hs⟩ |
    ⟨i,r,k,hi,hk,hs⟩ | hs
  · rw [hs] at hlawful ⊢
    refine ⟨hlawful,fun n => accounted_start (h.accounted n) _ _ _,
      fun n => averaged_start (h.averaged n) _ _ _,?_⟩
    change s.store.deadLetters.Perm ((s.runs ++ [_]).filterMap JobRun.letter?)
    rw [List.filterMap_append,List.filterMap_cons_none (letter?_of_open rfl),List.filterMap_nil,
      List.append_nil]
    exact h.letters
  · rw [hs] at hlawful ⊢
    exact sound_answer h hi hk hlawful
  · rw [hs] at hlawful ⊢
    have hopen : r.phase.isEnded = false := by rw [hk]; rfl
    have hend := (h.lawful r (List.mem_of_getElem? hi)).ended
    rw [hopen] at hend
    refine ⟨hlawful,fun n => accounted_goesOn (h.accounted n) hi rfl hopen rfl,
      fun n => averaged_goesOn (h.averaged n) hi (by simpa using hend) rfl,?_⟩
    rw [filterMap_set_same hi (by rw [letter?_of_open hopen]; rfl)]
    exact h.letters
  · rw [hs]
    exact h

theorem run_sound (events : List (JobEvent P A)) : Sound (run events) := by
  have hstep : ∀ (s : JobServer P A) ev, Sound s → Sound (step ev s) := fun _ ev h => step_sound h ev
  apply Runs.invariant hstep events
  apply sound_initial

/-- The health turns on the number of failed runs of each job. -/
theorem getJobHealthStatus_degraded {s : JobServer P A} (h : Sound s) :
    getJobHealthStatus s.store = .degraded ↔ ∃ jobName,
      (JOB_POLICIES jobName).deadLetterThreshold ≤
        s.runs.countP fun r => r.isOf jobName && r.failed := by
  have hiff : ∀ n, (s.store.recurringFailures n).isSome = true ↔
      (JOB_POLICIES n).deadLetterThreshold ≤
        s.runs.countP fun r => r.isOf n && r.failed := by
    intro n
    rw [← (h.accounted n).failureCounts]
    have hpos := deadLetterThreshold_pos n
    unfold JobGovernanceStore.recurringFailures
    cases hc : s.store.failureCounts n with
    | none =>
      have hne : ¬ (JOB_POLICIES n).deadLetterThreshold ≤ 0 := by omega
      simpa using hne
    | some c => simp [Option.filter]
  unfold getJobHealthStatus JobGovernanceStore.hasRecurringFailures
  constructor
  · intro hs
    split_ifs at hs with hany
    obtain ⟨n,-,hn⟩ := List.any_eq_true.mp hany
    exact ⟨n,(hiff n).mp hn⟩
  · rintro ⟨n,hn⟩
    rw [if_pos (List.any_eq_true.mpr ⟨n,n.mem_all,(hiff n).mpr hn⟩)]

end Invariant

/-- Whatever the order in which runs start, are answered and wake up: the counters of each
job are the numbers of its runs, its average lies between its fastest and its slowest run,
the dead letters are the failed runs with the number of attempts really made, and the
health is degraded when a job has failed as often as its policy says. -/
theorem books_match_runs (events : List (JobEvent P A)) :
    (∀ jobName, Accounted jobName (run events) ∧ Averaged jobName (run events)) ∧
      (run events).store.deadLetters.Perm ((run events).runs.filterMap JobRun.letter?) ∧
      (getJobHealthStatus (run events).store = .degraded ↔ ∃ jobName,
        (JOB_POLICIES jobName).deadLetterThreshold ≤
          (run events).runs.countP fun r => r.isOf jobName && r.failed) := by
  have h := run_sound events
  exact ⟨fun n => ⟨h.accounted n,h.averaged n⟩,h.letters,getJobHealthStatus_degraded h⟩

end JobServer

namespace JobRun

variable {P A : Type} {r : JobRun P A}

/-- A run stands where its outcomes put it: it goes on while there are only failures, fewer
than the attempts of its policy; it returns the first success and throws the last failure; and
before each further attempt it sleeps the base delay times a power of the multiplier. -/
structure Retried (r : JobRun P A) : Prop where
  bounded : r.outs.length ≤ (JOB_POLICIES r.jobName).maxAttempts
  open_iff : r.phase.isEnded = false ↔ ∃ es : List TaskError,
    r.outs = es.map .error ∧ es.length < (JOB_POLICIES r.jobName).maxAttempts
  returned_iff : ∀ a, r.phase = .ended (.ok a) ↔
    ∃ es : List TaskError, r.outs = es.map .error ++ [.ok a]
  thrown_iff : ∀ e, r.phase = .ended (.error e) ↔
    r.outs.length = (JOB_POLICIES r.jobName).maxAttempts ∧
      ∃ es : List TaskError, r.outs = es.map .error ∧ es.getLast? = some e
  slept : r.delays = (List.range (r.outs.length-if r.phase.isEnded then 1 else 0)).map fun i =>
    (JOB_POLICIES r.jobName).baseDelayMs*(JOB_POLICIES r.jobName).backoffMultiplier^i

theorem again_iff {jobName : JobName} {k : ℕ} {e : TaskError} :
    (JOB_POLICIES jobName).again k e = true ↔ k < (JOB_POLICIES jobName).maxAttempts := by
  simp [JobPolicy.again]

theorem Lawful.open_iff (h : r.Lawful) : r.phase.isEnded = false ↔ ∃ es : List TaskError,
    r.outs = es.map .error ∧ es.length < (JOB_POLICIES r.jobName).maxAttempts := by
  rw [h.trail.open_iff]
  exact exists_congr fun es => and_congr_right fun _ =>
    passed_iff (fun _ _ => again_iff) (JobServer.maxAttempts_pos _)

theorem Lawful.retried (h : r.Lawful) : r.Retried where
  bounded := h.trail.length_le (fun _ _ => again_iff.mp) (JobServer.maxAttempts_pos _)
  open_iff := h.open_iff
  returned_iff _ := h.trail.returned_iff
  thrown_iff _ := h.trail.exhausted (fun _ _ => again_iff) (JobServer.maxAttempts_pos _)
  slept := by
    rw [h.delays]
    rfl

end JobRun

namespace JobServer

section Retries

variable {P A : Type} {s : JobServer P A} {i k : ℕ} {r : JobRun P A}

/-- The answer that a run waits for ends it or puts it to sleep. -/
theorem step_answer (hi : s.runs[i]? = some r) (hk : r.phase = .trying k)
    (result : Except TaskError A) (now : ℤ) :
    ∃ r', (step (.answer i result now) s).runs[i]? = some r' ∧ r'.jobName = r.jobName ∧
      r'.outs = r.outs ++ [result] ∧ (r'.phase = .ended result ∨ r'.phase = .waiting k) := by
  obtain ⟨hlt,-⟩ := List.getElem?_eq_some_iff.mp hi
  have hstep : step (.answer i result now) s = s.answer i r k result now := by
    simp only [step,hi,hk]
  rw [hstep]
  rcases answer_cases i r k result now s with ⟨-,ha⟩ | ⟨-,ha⟩
  · rw [ha]
    exact ⟨_,List.getElem?_set_self hlt,rfl,rfl,Or.inl rfl⟩
  · rw [ha]
    exact ⟨_,List.getElem?_set_self hlt,rfl,rfl,Or.inr rfl⟩

theorem step_wake (hi : s.runs[i]? = some r) (hk : r.phase = .waiting k) :
    (step (.wake i) s).runs[i]? = some { r with phase := .trying (k+1) } := by
  obtain ⟨hlt,-⟩ := List.getElem?_eq_some_iff.mp hi
  simp only [step,hi,hk]
  exact List.getElem?_set_self hlt

theorem step_ended (hi : s.runs[i]? = some r) (hend : r.phase.isEnded = true)
    (ev : JobEvent P A) : (step ev s).runs[i]? = some r := by
  have hne : ∀ {j : ℕ} {q : JobRun P A}, s.runs[j]? = some q → q.phase.isEnded = false → j ≠ i := by
    rintro j q hq hopen rfl
    rw [Option.some.inj (hi.symm.trans hq),hopen] at hend
    cases hend
  rcases step_cases ev s with ⟨jobName,payload,now,hs⟩ | ⟨j,q,k,result,now,hq,hk,hs⟩ |
    ⟨j,q,k,hq,hk,hs⟩ | hs
  · rw [hs]
    exact (List.getElem?_append_left (List.getElem?_eq_some_iff.mp hi).1).trans hi
  · have hji := hne hq (by rw [hk]; rfl)
    rw [hs]
    rcases answer_cases j q k result now s with ⟨-,ha⟩ | ⟨-,ha⟩
    · rw [ha]
      exact (List.getElem?_set_ne hji).trans hi
    · rw [ha]
      exact (List.getElem?_set_ne hji).trans hi
  · rw [hs]
    exact (List.getElem?_set_ne (hne hq (by rw [hk]; rfl))).trans hi
  · rw [hs]
    exact hi

/-- A run is answered and woken up in turn. -/
def feed (i : ℕ) (now : ℤ) : List (Except TaskError A) → List (JobEvent P A)
  | [] => []
  | result :: tape => .answer i result now :: .wake i :: feed i now tape

/-- Answers for all its attempts bring a run to its end. -/
theorem feed_ends (now : ℤ) (tape : List (Except TaskError A)) (h : ∀ q ∈ s.runs, q.Lawful)
    (hi : s.runs[i]? = some r) (hk : r.phase = .trying k)
    (hlen : (JOB_POLICIES r.jobName).maxAttempts ≤ r.outs.length+tape.length) :
    ∃ r', (Runs.run step (feed i now tape) s).runs[i]? = some r' ∧ r'.phase.isEnded = true := by
  induction tape generalizing s r k with
  | nil =>
    obtain ⟨es,houts,hlt⟩ := (h r (List.mem_of_getElem? hi)).open_iff.mp (by rw [hk]; rfl)
    rw [houts,List.length_map,List.length_nil] at hlen
    exact absurd hlt (not_lt.mpr hlen)
  | cons result tape ih =>
    obtain ⟨q,hq,hname,houts,hphase⟩ := step_answer hi hk result now
    have hlawful := step_lawful (step_lawful h (.answer i result now)) (.wake i)
    simp only [feed,Runs.run_cons]
    rcases hphase with hended | hwaits
    · have hend : q.phase.isEnded = true := by rw [hended]; rfl
      have hstays : ∀ (t : JobServer P A) ev, t.runs[i]? = some q →
          (step ev t).runs[i]? = some q := fun _ ev ht => step_ended ht hend ev
      exact ⟨q,Runs.invariant hstays _ (step_ended hq hend (.wake i)),hend⟩
    · refine ih hlawful (step_wake hq hwaits) rfl ?_
      change (JOB_POLICIES q.jobName).maxAttempts ≤ q.outs.length+tape.length
      rw [hname,houts,List.length_append]
      simp only [List.length_cons,List.length_nil] at hlen ⊢
      omega

end Retries

/-- In every interleaving a run stands where the answers to its attempts put it; the answer to
an attempt is taken, a run that has slept makes its next attempt, and one whose attempts are all
answered ends. -/
theorem run_retries {P A : Type} (events : List (JobEvent P A)) {i : ℕ} {r : JobRun P A}
    (hi : (run events).runs[i]? = some r) :
    r.Retried ∧
      (∀ k, r.phase = .trying k → ∀ result now, ∃ r',
        (step (.answer i result now) (run events)).runs[i]? = some r' ∧
          r'.jobName = r.jobName ∧ r'.outs = r.outs ++ [result]) ∧
      (∀ k, r.phase = .waiting k →
        (step (.wake i) (run events)).runs[i]? = some { r with phase := .trying (k+1) }) ∧
      ∀ k tape now, r.phase = .trying k →
        (JOB_POLICIES r.jobName).maxAttempts ≤ r.outs.length+tape.length →
        ∃ r', (Runs.run step (feed i now tape) (run events)).runs[i]? = some r' ∧
          r'.phase.isEnded = true := by
  have hlawful := run_lawful events
  refine ⟨(hlawful r (List.mem_of_getElem? hi)).retried,fun k hk result now => ?_,
    fun k hk => step_wake hi hk,fun k tape now hk hlen => feed_ends now tape hlawful hi hk hlen⟩
  obtain ⟨q,hq,hname,houts,-⟩ := step_answer hi hk result now
  exact ⟨q,hq,hname,houts⟩

def refreshEvents : List (JobEvent Unit ℕ) :=
  [.start .priceRefresh none 0,.start .databaseBackup none 5,.answer 0 (.error .other) 10,
    .answer 1 (.error .other) 20,.wake 0]

def refreshRun : JobRun Unit ℕ :=
  ⟨.priceRefresh,none,0,[.error .other],[1000],.trying 2,none⟩

theorem run_retries_refresh : refreshRun.Retried ∧
    ∃ r', (Runs.run step (feed 0 30 [.error .other,.ok 5]) (run refreshEvents)).runs[0]? = some r' ∧
      r'.phase.isEnded = true := by
  have h := run_retries refreshEvents (r := refreshRun) (i := 0) rfl
  exact ⟨h.1,h.2.2.2 2 _ 30 rfl (by decide)⟩

end JobServer

end YieldVault.Backend
