import YieldVault.Runs

/-! The server on its way down. A signal runs all cleanup tasks at once, and only when they
have settled does the server stop to accept connections and wait for the open ones. -/
namespace YieldVault.Backend

/-- The place of a cleanup task that was begun, and the requests handled at that moment. -/
structure CleanupStart where
  task : ℕ
  inFlight : List ℕ
  deriving DecidableEq

/-- The server once it listens and its handler is registered. For each call of `shutdown` the
cleanup tasks that have not settled; and of what was done, the tasks begun and the requests
accepted after the first of them. -/
structure ShutdownServer (Task : Type) where
  cleanupTasks : List Task := []
  listening : Bool := true
  activeConnections : List ℕ := []
  inFlight : List ℕ := []
  calls : List (List ℕ) := []
  exit : Option ℕ := none
  started : List CleanupStart := []
  late : List ℕ := []

/-- A request is handled to its end whether or not its connection is still open. -/
inductive ShutdownEvent (Task : Type)
  | onShutdown (task : Task)
  | connection (socket : ℕ)
  | closed (socket : ℕ)
  | request (socket request : ℕ)
  | handled (request : ℕ)
  | signal
  | settled (call task : ℕ)
  | cleaned (call : ℕ)
  | drained
  | drainTimeout (call : ℕ)

namespace ShutdownServer

variable {Task : Type}

/-- All tasks are begun before any of them is waited for. -/
def shutdown (s : ShutdownServer Task) : ShutdownServer Task :=
  let tasks := List.range s.cleanupTasks.length
  { s with
    calls := s.calls ++ [tasks]
    started := s.started ++ tasks.map fun task => ⟨task,s.inFlight⟩ }

def accept (request : ℕ) (s : ShutdownServer Task) : ShutdownServer Task :=
  { s with
    inFlight := request::s.inFlight
    late := if s.started = [] then s.late else request::s.late }

def serve (e : ShutdownEvent Task) (s : ShutdownServer Task) : ShutdownServer Task :=
  match e with
  | .onShutdown task => { s with cleanupTasks := s.cleanupTasks ++ [task] }
  | .connection socket =>
    if s.listening then { s with activeConnections := socket::s.activeConnections } else s
  | .closed socket => { s with activeConnections := s.activeConnections.erase socket }
  | .request socket request => if socket ∈ s.activeConnections then s.accept request else s
  | .handled request => { s with inFlight := s.inFlight.erase request }
  | .signal => s.shutdown
  | .settled call task => { s with calls := s.calls.modify call fun pending => pending.erase task }
  | .cleaned call => if s.calls[call]? = some [] then { s with listening := false } else s
  | .drained =>
    if s.listening = false ∧ s.activeConnections = [] then { s with exit := some 0 } else s
  | .drainTimeout call =>
    if call < s.calls.length then { s with activeConnections := [],exit := some 1 } else s

def step (e : ShutdownEvent Task) (s : ShutdownServer Task) : ShutdownServer Task :=
  if s.exit = none then s.serve e else s

/-- No task was begun under a request, no request accepted after a task was begun, and no task
begun twice. -/
structure Graceful (s : ShutdownServer Task) : Prop where
  idle : ∀ c ∈ s.started, c.inFlight = []
  refused : s.late = []
  once : (s.started.map (·.task)).Nodup

/-- A signal finds no request and is the first to find a task; no request comes after it. -/
def Orderly (s : ShutdownServer Task) (e : ShutdownEvent Task) : Prop :=
  s.exit = none → match e with
    | .signal => s.cleanupTasks = [] ∨ s.inFlight = [] ∧ s.started = []
    | .request socket _ => socket ∈ s.activeConnections → s.started = []
    | _ => True

def Registered (s : ShutdownServer Task) : Prop :=
  ∀ c ∈ s.started, c.task < s.cleanupTasks.length

variable {s : ShutdownServer Task} {e : ShutdownEvent Task}

theorem step_running (h : s.exit = none) : s.step e = s.serve e := if_pos h

theorem step_exited (h : s.exit ≠ none) : s.step e = s := if_neg h

theorem graceful_congr {t : ShutdownServer Task} (hstarted : t.started = s.started)
    (hlate : t.late = s.late) : t.Graceful ↔ s.Graceful := by
  constructor
  · rintro ⟨h1,h2,h3⟩
    exact ⟨hstarted ▸ h1,hlate ▸ h2,hstarted ▸ h3⟩
  · rintro ⟨h1,h2,h3⟩
    exact ⟨hstarted ▸ h1,hlate ▸ h2,hstarted ▸ h3⟩

theorem serve_kept (hsignal : e ≠ .signal) (hrequest : ∀ socket r, e ≠ .request socket r) :
    (s.serve e).started = s.started ∧ (s.serve e).late = s.late := by
  cases e with
  | signal => exact absurd rfl hsignal
  | request socket r => exact absurd rfl (hrequest socket r)
  | connection _ | cleaned _ | drained | drainTimeout _ =>
    unfold serve
    dsimp only
    split_ifs <;> exact ⟨rfl,rfl⟩
  | _ => exact ⟨rfl,rfl⟩

theorem serve_cleanupTasks (e : ShutdownEvent Task) :
    s.cleanupTasks.length ≤ (s.serve e).cleanupTasks.length := by
  cases e with
  | onShutdown task => simp [serve]
  | connection _ | request _ _ | cleaned _ | drained | drainTimeout _ =>
    unfold serve
    dsimp only
    split_ifs <;> exact le_rfl
  | _ => exact le_rfl

theorem serve_registered (h : s.Registered) : (s.serve e).Registered := by
  have hkept (hstarted : (s.serve e).started = s.started) : (s.serve e).Registered := by
    intro c hc
    rw [hstarted] at hc
    exact (h c hc).trans_le (serve_cleanupTasks e)
  cases e with
  | signal =>
    intro c hc
    rcases List.mem_append.mp hc with hc | hc
    · exact h c hc
    · obtain ⟨task,htask,rfl⟩ := List.mem_map.mp hc
      exact List.mem_range.mp htask
  | request socket r =>
    refine hkept ?_
    unfold serve
    dsimp only
    split_ifs <;> rfl
  | _ => exact hkept (serve_kept (by simp) (by simp)).1

theorem step_registered (s : ShutdownServer Task) (e : ShutdownEvent Task) (h : s.Registered) :
    (s.step e).Registered := by
  by_cases hexit : s.exit = none
  · rw [step_running hexit]
    exact serve_registered h
  · rw [step_exited hexit]
    exact h

/-- A call of `shutdown` begins every registered task: none may have been begun before, and no
request may be in flight, unless there are no tasks. -/
theorem shutdown_graceful_iff (h : s.Registered) :
    s.shutdown.Graceful ↔
      s.Graceful ∧ (s.cleanupTasks = [] ∨ s.inFlight = [] ∧ s.started = []) := by
  have hplaces : s.shutdown.started.map (·.task) =
      s.started.map (·.task) ++ List.range s.cleanupTasks.length := by
    simp [shutdown,Function.comp_def]
  constructor
  · rintro ⟨hidle,hrefused,honce⟩
    rw [hplaces] at honce
    refine ⟨⟨fun c hc => hidle c (List.mem_append_left _ hc),hrefused,honce.of_append_left⟩,?_⟩
    rcases List.eq_nil_or_concat s.cleanupTasks with hnone | ⟨tasks,task,htasks⟩
    · exact Or.inl hnone
    right
    have hlength : 0 < s.cleanupTasks.length := by simp [htasks]
    constructor
    · exact hidle ⟨0,s.inFlight⟩ (List.mem_append_right _
        (List.mem_map.mpr ⟨0,List.mem_range.mpr hlength,rfl⟩))
    · -- a task begun before would now be begun a second time
      refine List.eq_nil_iff_forall_not_mem.mpr fun c hc => ?_
      exact List.disjoint_of_nodup_append honce (List.mem_map.mpr ⟨c,hc,rfl⟩)
        (List.mem_range.mpr (h c hc))
  · rintro ⟨⟨hidle,hrefused,honce⟩,hnone | ⟨hflight,hstarted⟩⟩
    · refine (graceful_congr (s := s) (t := s.shutdown) ?_ rfl).mpr ⟨hidle,hrefused,honce⟩
      simp [shutdown,hnone]
    · refine ⟨?_,hrefused,?_⟩
      · intro c hc
        rw [shutdown,hstarted] at hc
        obtain ⟨task,-,rfl⟩ := List.mem_map.mp hc
        exact hflight
      · rw [hplaces,hstarted]
        exact List.nodup_range

theorem accept_graceful_iff (r : ℕ) : (s.accept r).Graceful ↔ s.Graceful ∧ s.started = [] := by
  constructor
  · rintro ⟨hidle,hrefused,honce⟩
    by_cases hstarted : s.started = []
    · rw [accept,if_pos hstarted] at hrefused
      exact ⟨⟨hidle,hrefused,honce⟩,hstarted⟩
    · rw [accept,if_neg hstarted] at hrefused
      exact nomatch hrefused
  · rintro ⟨hs,hstarted⟩
    refine (graceful_congr (s := s) (t := s.accept r) rfl ?_).mpr hs
    rw [accept,if_pos hstarted]

theorem step_graceful_iff (s : ShutdownServer Task) (e : ShutdownEvent Task) (h : s.Registered) :
    (s.step e).Graceful ↔ s.Graceful ∧ s.Orderly e := by
  by_cases hexit : s.exit = none
  · rw [step_running hexit]
    cases e with
    | signal => exact (shutdown_graceful_iff h).trans (and_congr_right fun _ =>
        ⟨fun hs _ => hs,fun hs => hs hexit⟩)
    | request socket r =>
      unfold serve Orderly
      dsimp only
      split_ifs with hsocket
      · rw [accept_graceful_iff]
        exact and_congr_right fun _ => ⟨fun hs _ _ => hs,fun hs => hs hexit hsocket⟩
      · exact (and_iff_left fun _ hs => absurd hs hsocket).symm
    | _ =>
      exact (graceful_congr (serve_kept (by simp) (by simp)).1
        (serve_kept (by simp) (by simp)).2).trans (and_iff_left fun _ => trivial).symm
  · rw [step_exited hexit]
    exact (and_iff_left fun h => absurd h hexit).symm

/-- Whatever tasks are registered and in whatever order things happen: no task is begun while
a request is handled, no request is accepted after a task was begun and no task is begun twice
exactly when every signal that finds tasks finds no request in flight and is the first such
one, and no request comes after it. -/
theorem shutdown_graceful (events : List (ShutdownEvent Task)) :
    (Runs.run step events ({} : ShutdownServer Task)).Graceful ↔
      Runs.Along step Orderly ({} : ShutdownServer Task) events := by
  have hstart : ({} : ShutdownServer Task).Graceful := ⟨by simp,rfl,List.nodup_nil⟩
  rw [Runs.along_iff step_registered step_graceful_iff events (by simp [Registered])]
  exact and_iff_right hstart

inductive CleanupTask
  | stopApyScheduler | stopDbBackupScheduler | stopEventPollingService | databaseShutdown
  | prismaDisconnect | shutdownTracing

def serverTasks : List CleanupTask :=
  [.stopApyScheduler,.stopDbBackupScheduler,.stopEventPollingService,.databaseShutdown,
    .prismaDisconnect,.shutdownTracing]

/-- The database is shut down under a request that is being handled. -/
theorem shutdown_cuts_off : ¬ ∀ events : List (ShutdownEvent CleanupTask),
    (Runs.run step (serverTasks.map .onShutdown ++ events)
      ({} : ShutdownServer CleanupTask)).Graceful := by
  intro h
  have h1 := (h [.connection 0,.request 0 1,.signal]).idle ⟨3,[1]⟩ (by decide)
  exact absurd h1 (by decide)

end ShutdownServer

end YieldVault.Backend
