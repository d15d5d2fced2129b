import YieldVault.Backend.EventPolling
import YieldVault.Backend.Idempotency

/-! Several instances of the polling service with one lock in Redis. The lock is taken with
`NX` and renewed with `XX`, which looks whether the key is there and not whose it is. -/
namespace YieldVault.Backend

/-- What an instance writes under the key; no two of them are alike. -/
structure LockValue where
  holder : ℕ
  number : ℕ
  deriving DecidableEq

inductive LockCommandKind
  | acquire | renew | release
  deriving DecidableEq

/-- A command on its way to Redis, or its answer on the way back. -/
structure LockCommand where
  sender : ℕ
  kind : LockCommandKind
  value : LockValue
  answer : Option Bool := none

/-- `pollTimer` holds the interval of the last start, and there may be others that no handle
is left for. -/
structure PollingInstance where
  isRunning : Bool := false
  isLeader : Bool := false
  pollTimer : Bool := false
  intervals : ℕ := 0
  lockRenewalTimer : Bool := false
  lockValue : Option LockValue := none

/-- The time, the key in Redis with its expiry, the instances, and the tables and the loops
under way, each with its instance. For each instance the last time that Redis has set the key
for it, while it has not been deleted for it. -/
structure PollingCluster where
  now : ℕ := 0
  lock : Option (LockValue × ℕ) := none
  instances : ℕ → PollingInstance := fun _ => {}
  commands : ℕ → Option LockCommand := fun _ => none
  nextCommand : ℕ := 0
  index : EventIndex := {}
  owner : ℕ → Option ℕ := fun _ => none
  renewedAt : ℕ → Option ℕ := fun _ => none

/-- `ready` is whether the Redis client is. -/
inductive ClusterEvent
  | elapse (ms : ℕ)
  | start (i : ℕ) (ready : Bool)
  | stop (i : ℕ) (ready : Bool)
  | renewalTimer (i : ℕ) (ready : Bool)
  | execute (command : ℕ)
  | answered (command : ℕ)
  | failed (command : ℕ)
  | pollTimer (i : ℕ)
  | replay (i : ℕ) (fromLedger toLedger : ℤ)
  | proceed (task : ℕ) (reply : PollReply)
  | close (emitted : List StellarEvent)

def LOCK_MS : ℕ := 30000

def PollPhase.throws : PollPhase → PollReply → Bool
  | .events _, .getEvents .networkError => true
  | _, .failure => true
  | _, _ => false

/-- The loop has found ledgers to fetch. -/
def PollPhase.isLate : PollPhase → Prop
  | .cursor | .currentLedger _ => False
  | _ => True

namespace PollingCluster

def stored (s : PollingCluster) : Option LockValue :=
  match s.lock with
  | some (value,expiry) => if s.now ≤ expiry then some value else none
  | none => none

def modify (i : ℕ) (change : PollingInstance → PollingInstance) (s : PollingCluster) :
    PollingCluster :=
  { s with instances := Function.update s.instances i (change (s.instances i)) }

def send (command : LockCommand) (s : PollingCluster) : PollingCluster :=
  { s with
    commands := Function.update s.commands s.nextCommand (some command)
    nextCommand := s.nextCommand+1 }

def spawn (i : ℕ) (path : PollPath) (phase : Option PollPhase) (s : PollingCluster) :
    PollingCluster :=
  { s with
    index := s.index.spawn path phase
    owner := Function.update s.owner s.index.next (some i) }

def setLock (command : LockCommand) (s : PollingCluster) : PollingCluster :=
  { s with
    lock := some (command.value,s.now+LOCK_MS)
    renewedAt := Function.update s.renewedAt command.sender (some s.now) }

def deleteLock (command : LockCommand) (s : PollingCluster) : PollingCluster :=
  { s with
    lock := none
    renewedAt := Function.update s.renewedAt command.sender none }

def execute (command : LockCommand) (s : PollingCluster) : Bool × PollingCluster :=
  match command.kind with
  | .acquire => if s.stored = none then (true,s.setLock command) else (false,s)
  | .renew => if s.stored ≠ none then (true,s.setLock command) else (false,s)
  | .release => if s.stored = some command.value then (true,s.deleteLock command) else (false,s)

def answer (id : ℕ) (command : LockCommand) (ok : Bool) (s : PollingCluster) : PollingCluster :=
  { s with commands := Function.update s.commands id (some { command with answer := some ok }) }

def acquired (i : ℕ) (ok : Bool) (s : PollingCluster) : PollingCluster :=
  (s.modify i fun instance' => { instance' with
    isLeader := ok
    lockRenewalTimer := instance'.lockRenewalTimer || ok }).spawn i .replayMissedEvents (some .cursor)

/-- The answer of Redis comes back; `none` is an error. -/
def settle (command : LockCommand) (ok : Option Bool) (s : PollingCluster) : PollingCluster :=
  match command.kind, ok with
  | .acquire, ok => s.acquired command.sender (ok.getD false)
  | .renew, some false =>
    s.modify command.sender fun instance' => { instance' with isLeader := false }
  | _, _ => s

def start (i : ℕ) (ready : Bool) (s : PollingCluster) : PollingCluster :=
  if (s.instances i).isRunning then s
  else if ready then
    let value : LockValue := ⟨i,s.nextCommand⟩
    (s.modify i fun instance' => { instance' with
      isRunning := true
      lockValue := some value }).send ⟨i,.acquire,value,none⟩
  else
    (s.modify i fun instance' => { instance' with
      isRunning := true
      isLeader := true }).spawn i .replayMissedEvents (some .cursor)

def stop (i : ℕ) (ready : Bool) (s : PollingCluster) : PollingCluster :=
  if (s.instances i).isRunning then
    let stopped := s.modify i fun instance' => { instance' with
      isRunning := false
      pollTimer := false
      intervals := instance'.intervals-instance'.pollTimer.toNat }
    match (s.instances i).lockValue with
    | some value =>
      if (s.instances i).isLeader && ready then stopped.send ⟨i,.release,value,none⟩ else stopped
    | none => stopped
  else s

def renewalTimer (i : ℕ) (ready : Bool) (s : PollingCluster) : PollingCluster :=
  match (s.instances i).lockValue with
  | some value =>
    if (s.instances i).lockRenewalTimer && (s.instances i).isLeader && ready then
      s.send ⟨i,.renew,value,none⟩
    else s
  | none => s

/-- A loop goes on. Where the replay at the start has come to its end, a leader starts to
poll, and an interval from an earlier start goes on beside the new one. -/
def proceed (cfg : EventPollingConfig) (id : ℕ) (reply : PollReply) (s : PollingCluster) :
    PollingCluster :=
  let t := { s with index := s.index.serve cfg (.proceed id reply) }
  match s.index.tasks id, s.owner id with
  | some ⟨.replayMissedEvents,phase⟩, some i =>
    if (t.index.tasks id).isNone && !phase.throws reply && (s.instances i).isLeader then
      t.modify i fun instance' => { instance' with
        pollTimer := true
        intervals := instance'.intervals+1 }
    else t
  | _, _ => t

def serve (cfg : EventPollingConfig) : ClusterEvent → PollingCluster → PollingCluster
  | .elapse ms, s => { s with now := s.now+ms }
  | .start i ready, s => s.start i ready
  | .stop i ready, s => s.stop i ready
  | .renewalTimer i ready, s => s.renewalTimer i ready
  | .execute id, s =>
    match s.commands id with
    | some ⟨sender,kind,value,none⟩ =>
      let (ok,t) := s.execute ⟨sender,kind,value,none⟩
      t.answer id ⟨sender,kind,value,none⟩ ok
    | _ => s
  | .answered id, s =>
    match s.commands id with
    | some ⟨sender,kind,value,some ok⟩ =>
      settle ⟨sender,kind,value,some ok⟩ (some ok)
        { s with commands := Function.update s.commands id none }
    | _ => s
  | .failed id, s =>
    match s.commands id with
    | some command =>
      settle command none { s with commands := Function.update s.commands id none }
    | none => s
  | .pollTimer i, s =>
    if 0 < (s.instances i).intervals then s.spawn i .pollEvents (some .cursor) else s
  | .replay i fromLedger toLedger, s =>
    if fromLedger < 0 ∨ toLedger < fromLedger ∨ cfg.maxRangeSize < toLedger-fromLedger+1 then s
    else s.spawn i .replayEventsForRange
      (PollPath.replayEventsForRange.head cfg fromLedger toLedger)
  | .proceed id reply, s => s.proceed cfg id reply
  | .close emitted, s => { s with index := s.index.serve cfg (.close emitted) }

def runFrom (cfg : EventPollingConfig) (events : List ClusterEvent) : PollingCluster :=
  Runs.run (serve cfg) events {}

/-- The instance takes itself for the leader, with a lock that Redis has set for it in the
last 30 seconds. -/
def Leads (s : PollingCluster) (i : ℕ) : Prop :=
  (s.instances i).isLeader = true ∧ ∃ t, s.renewedAt i = some t ∧ s.now ≤ t+LOCK_MS

/-- A renewal sets a key that holds a value of its own instance only, one instance leads at
most, and only one that leads polls and writes the cursor. -/
def Led (s : PollingCluster) (event : ClusterEvent) : Prop :=
  (∀ i j, s.Leads i → s.Leads j → i = j) ∧
    match event with
    | .execute id => ∀ i value value', s.commands id = some ⟨i,.renew,value,none⟩ →
        s.stored = some value' → value'.holder = i
    | .pollTimer i => 0 < (s.instances i).intervals → s.Leads i
    | .proceed id .database => ∀ path batch i, s.index.tasks id = some ⟨path,.updated batch⟩ →
        s.owner id = some i → s.Leads i
    | _ => True

/-- Redis has set the key for the instance in the last 30 seconds. -/
def Fresh (s : PollingCluster) (i : ℕ) : Prop :=
  ∃ t, s.renewedAt i = some t ∧ s.now ≤ t+LOCK_MS

/-- The instance takes itself for the leader, or is about to, or is about to renew. -/
def Counts (s : PollingCluster) (i : ℕ) : Prop :=
  (s.instances i).isLeader = true ∨ ∃ id value, s.commands id = some ⟨i,.acquire,value,some true⟩ ∨
    s.commands id = some ⟨i,.renew,value,none⟩

/-- A leader with a poll interval or a loop under way, or an instance that is about to be one. -/
def Working (s : PollingCluster) (i : ℕ) : Prop :=
  (s.instances i).isLeader = true ∧
      (0 < (s.instances i).intervals ∨ ∃ id, s.index.tasks id ≠ none ∧ s.owner id = some i) ∨
    ∃ id value, s.commands id = some ⟨i,.acquire,value,some true⟩

/-- The schedule keeps the locks apart. Time does not pass the expiry of a lock whose instance
works; an instance starts with Redis ready, with no flag or command of its own left over;
it gets the lock only where no other takes itself for the leader, and gives it up only where
it does not work; and what does not lead has nothing to replay. -/
def Orderly (s : PollingCluster) : ClusterEvent → Prop
  | .elapse ms => ∀ i t, s.Working i → s.renewedAt i = some t → s.now+ms ≤ t+LOCK_MS
  | .start i ready => (s.instances i).isRunning = false → ready = true ∧
      (s.instances i).isLeader = false ∧
      ∀ id command, s.commands id = some command → command.sender ≠ i
  | .execute id => ∀ i value,
      (s.commands id = some ⟨i,.acquire,value,none⟩ → s.stored = none →
        ∀ j, j ≠ i → ¬ s.Counts j) ∧
      (s.commands id = some ⟨i,.release,value,none⟩ → s.stored = some value → ¬ s.Working i)
  | .replay i _ _ => s.Leads i
  | .proceed id (.latestLedger reply) => ∀ path cursor i,
      s.index.tasks id = some ⟨path,.currentLedger cursor⟩ → s.owner id = some i →
      (s.instances i).isLeader = false → getCurrentLedger reply ≤ cursor
  | _ => True

/-- How the flags of the instances, their commands and the key in Redis belong together. -/
structure Ruled (s : PollingCluster) : Prop where
  own : ∀ i value, s.Counts i → s.stored = some value → value.holder = i
  fresh : ∀ i t, s.renewedAt i = some t → s.now ≤ t+LOCK_MS →
    ∃ value, s.lock = some (value,t+LOCK_MS) ∧ value.holder = i
  working : ∀ i, s.Working i → s.Fresh i
  refused : ∀ id i value, s.commands id = some ⟨i,.renew,value,some false⟩ →
    ∀ value', s.stored = some value' → value'.holder ≠ i
  starting : ∀ id i value answer, s.commands id = some ⟨i,.acquire,value,answer⟩ →
    (s.instances i).isLeader = false ∧
      ∀ id' command, s.commands id' = some command → command.sender = i → id' = id
  timer : ∀ i, 0 < (s.instances i).intervals → (s.instances i).isLeader = true
  late : ∀ id path phase i, s.index.tasks id = some ⟨path,phase⟩ → phase.isLate →
    s.owner id = some i → (s.instances i).isLeader = true
  sent : ∀ id command, s.commands id = some command → command.value.holder = command.sender
  held : ∀ i value, (s.instances i).lockValue = some value → value.holder = i

variable {s : PollingCluster} {i : ℕ}

theorem Ruled.initial : ({} : PollingCluster).Ruled where
  own := by rintro i value - ⟨⟩
  fresh := by rintro i t ⟨⟩
  working := by
    rintro i (⟨⟨⟩,-⟩ | ⟨id,value,⟨⟩⟩)
  refused := by rintro id i value ⟨⟩
  starting := by rintro id i value answer ⟨⟩
  timer := by rintro i ⟨⟩
  late := by rintro id path phase i ⟨⟩
  sent := by rintro id command ⟨⟩
  held := by rintro i value ⟨⟩

theorem stored_eq_some {value : LockValue} :
    s.stored = some value ↔ ∃ expiry, s.lock = some (value,expiry) ∧ s.now ≤ expiry := by
  unfold stored
  cases hlock : s.lock with
  | none => simp
  | some entry =>
    obtain ⟨value',expiry⟩ := entry
    by_cases hlive : s.now ≤ expiry
    · simp [hlive]
    · simp only [hlive,if_false,Option.some.injEq,Prod.mk.injEq]
      constructor
      · rintro ⟨⟩
      · rintro ⟨_,⟨rfl,rfl⟩,h⟩
        exact absurd h hlive

theorem Ruled.stored_of_fresh (h : s.Ruled) (hfresh : s.Fresh i) :
    ∃ value, s.stored = some value ∧ value.holder = i := by
  obtain ⟨t,ht,hlive⟩ := hfresh
  obtain ⟨value,hlock,hholder⟩ := h.fresh i t ht hlive
  exact ⟨value,stored_eq_some.mpr ⟨_,hlock,hlive⟩,hholder⟩

theorem Ruled.holder_of_fresh (h : s.Ruled) (hfresh : s.Fresh i) {value : LockValue}
    (hstored : s.stored = some value) : value.holder = i := by
  obtain ⟨value',hstored',hholder⟩ := h.stored_of_fresh hfresh
  obtain rfl := Option.some.inj (hstored'.symm.trans hstored)
  exact hholder

theorem Ruled.fresh_unique (h : s.Ruled) {j : ℕ} (hi : s.Fresh i) (hj : s.Fresh j) : i = j := by
  obtain ⟨value,hstored,rfl⟩ := h.stored_of_fresh hi
  exact h.holder_of_fresh hj hstored

section Primitives

@[simp] theorem modify_self (change : PollingInstance → PollingInstance) :
    (s.modify i change).instances i = change (s.instances i) :=
  Function.update_self _ _ _

@[simp] theorem modify_of_ne {j : ℕ} (change : PollingInstance → PollingInstance) (h : j ≠ i) :
    (s.modify i change).instances j = s.instances j :=
  Function.update_of_ne h _ _

/-- A fact of every instance is one of the changed instance and of those left as they were. -/
theorem modify_cases {change : PollingInstance → PollingInstance}
    {P : ℕ → PollingInstance → Prop} (hself : P i (change (s.instances i)))
    (hother : ∀ j, j ≠ i → P j (s.instances j)) (j : ℕ) :
    P j ((s.modify i change).instances j) := by
  by_cases hj : j = i
  · subst hj
    rwa [modify_self]
  · rw [modify_of_ne change hj]
    exact hother j hj

theorem Ruled.held_modify (h : s.Ruled) {change : PollingInstance → PollingInstance}
    (hvalue : ∀ value, (change (s.instances i)).lockValue = some value → value.holder = i)
    (j : ℕ) : ∀ value, ((s.modify i change).instances j).lockValue = some value →
      value.holder = j :=
  modify_cases (P := fun j x => ∀ value, x.lockValue = some value → value.holder = j) hvalue
    (fun j _ => h.held j) j

theorem Ruled.modify (h : s.Ruled) {change : PollingInstance → PollingInstance}
    (hleader : (change (s.instances i)).isLeader = (s.instances i).isLeader)
    (htimer : (change (s.instances i)).intervals ≤ (s.instances i).intervals)
    (hvalue : ∀ value, (change (s.instances i)).lockValue = some value → value.holder = i) :
    (s.modify i change).Ruled := by
  have hsame : ∀ j, ((s.modify i change).instances j).isLeader = (s.instances j).isLeader :=
    modify_cases (P := fun j x => x.isLeader = (s.instances j).isLeader) hleader fun _ _ => rfl
  have hpolls : ∀ j, 0 < ((s.modify i change).instances j).intervals →
      0 < (s.instances j).intervals :=
    modify_cases (P := fun j x => 0 < x.intervals → 0 < (s.instances j).intervals)
      (fun hpolls => hpolls.trans_le htimer) fun _ _ hpolls => hpolls
  have hcounts : ∀ j, (s.modify i change).Counts j → s.Counts j := by
    intro j hj
    unfold Counts at hj
    rw [hsame] at hj
    exact hj
  have hworking : ∀ j, (s.modify i change).Working j → s.Working j := by
    intro j hj
    unfold Working at hj
    rw [hsame] at hj
    exact hj.imp_left fun hleads => ⟨hleads.1,hleads.2.imp_left (hpolls j)⟩
  refine ⟨fun j value hj => h.own j value (hcounts j hj),h.fresh,
    fun j hj => h.working j (hworking j hj),h.refused,?_,?_,?_,h.sent,h.held_modify hvalue⟩
  · intro id j value answer hid
    rw [hsame]
    exact h.starting id j value answer hid
  · intro j hj
    rw [hsame]
    exact h.timer j (hpolls j hj)
  · intro id path phase j hid hlate howner
    rw [hsame]
    exact h.late id path phase j hid hlate howner

/-- A command is sent: a leader may renew and release, and what is no leader and has no other
command may acquire. -/
theorem Ruled.send (h : s.Ruled) {kind : LockCommandKind} {value : LockValue}
    (hvalue : value.holder = i)
    (hleads : kind ≠ .acquire → (s.instances i).isLeader = true)
    (hstarts : kind = .acquire → (s.instances i).isLeader = false ∧
      ∀ id command, s.commands id = some command → command.sender ≠ i) :
    (s.send ⟨i,kind,value,none⟩).Ruled := by
  have hcounts : ∀ j, (s.send ⟨i,kind,value,none⟩).Counts j → s.Counts j := by
    rintro j (hleader | ⟨id,value',hid | hid⟩)
    · exact Or.inl hleader
    · rcases update_eq_some.mp hid with ⟨-,⟨⟩⟩ | ⟨-,hid⟩
      exact Or.inr ⟨id,value',Or.inl hid⟩
    · rcases update_eq_some.mp hid with ⟨-,hnew⟩ | ⟨-,hid⟩
      · cases hnew
        exact Or.inl (hleads (by simp))
      · exact Or.inr ⟨id,value',Or.inr hid⟩
  have hworking : ∀ j, (s.send ⟨i,kind,value,none⟩).Working j → s.Working j := by
    rintro j (hleads | ⟨id,value',hid⟩)
    · exact Or.inl hleads
    · rcases update_eq_some.mp hid with ⟨-,⟨⟩⟩ | ⟨-,hid⟩
      exact Or.inr ⟨id,value',hid⟩
  refine ⟨fun j value' hj => h.own j value' (hcounts j hj),h.fresh,
    fun j hj => h.working j (hworking j hj),?_,?_,h.timer,h.late,?_,h.held⟩
  · intro id j value' hid
    rcases update_eq_some.mp hid with ⟨-,⟨⟩⟩ | ⟨-,hid⟩
    exact h.refused id j value' hid
  · intro id j value' answer hid
    rcases update_eq_some.mp hid with ⟨rfl,hnew⟩ | ⟨-,hid⟩
    · cases hnew
      obtain ⟨hleader,hnone⟩ := hstarts rfl
      refine ⟨hleader,fun id' command hid' hsender => ?_⟩
      rcases update_eq_some.mp hid' with ⟨rfl,-⟩ | ⟨-,hid'⟩
      · rfl
      · exact absurd hsender (hnone id' command hid')
    · obtain ⟨hleader,hunique⟩ := h.starting id j value' answer hid
      refine ⟨hleader,fun id' command hid' hsender => ?_⟩
      rcases update_eq_some.mp hid' with ⟨rfl,hnew⟩ | ⟨-,hid'⟩
      · -- a second command is sent by a leader, or where there is no first
        cases hnew
        by_cases hkind : kind = .acquire
        · exact absurd hsender.symm ((hstarts hkind).2 id _ hid)
        · have hyes := hleads hkind
          rw [show i = j from hsender,hleader] at hyes
          cases hyes
      · exact hunique id' command hid' hsender
  · intro id command hid
    rcases update_eq_some.mp hid with ⟨-,hnew⟩ | ⟨-,hid⟩
    · cases hnew
      exact hvalue
    · exact h.sent id command hid

theorem Ruled.forget (h : s.Ruled) (id : ℕ) :
    ({ s with commands := Function.update s.commands id none } : PollingCluster).Ruled := by
  have hold : ∀ {id' command}, Function.update s.commands id none id' = some command →
      s.commands id' = some command := by
    intro id' command hid'
    rcases update_eq_some.mp hid' with ⟨-,⟨⟩⟩ | ⟨-,hid'⟩
    exact hid'
  refine ⟨?_,h.fresh,?_,fun id' j value hid' => h.refused id' j value (hold hid'),?_,h.timer,h.late,
    fun id' command hid' => h.sent id' command (hold hid'),h.held⟩
  · rintro j value (hleader | ⟨id',value',hid'⟩)
    · exact h.own j value (Or.inl hleader)
    · exact h.own j value (Or.inr ⟨id',value',hid'.imp hold hold⟩)
  · rintro j (hleads | ⟨id',value',hid'⟩)
    · exact h.working j (Or.inl hleads)
    · exact h.working j (Or.inr ⟨id',value',hold hid'⟩)
  · intro id' j value answer hid'
    obtain ⟨hleader,hunique⟩ := h.starting id' j value answer (hold hid')
    exact ⟨hleader,fun id'' command hid'' => hunique id'' command (hold hid'')⟩

theorem Ruled.spawn (h : s.Ruled) {path : PollPath} {phase : Option PollPhase}
    (hlate : ∀ next, phase = some next → next.isLate → (s.instances i).isLeader = true)
    (hfresh : (s.instances i).isLeader = true → s.Fresh i) : (s.spawn i path phase).Ruled := by
  refine ⟨h.own,h.fresh,?_,h.refused,h.starting,h.timer,?_,h.sent,h.held⟩
  · rintro j (⟨hleader,hpolls⟩ | hstarts)
    · rcases hpolls with htimer | ⟨id,htask,howner⟩
      · exact h.working j (Or.inl ⟨hleader,Or.inl htimer⟩)
      · rcases update_eq_some.mp howner with ⟨-,hi⟩ | ⟨hne,howner⟩
        · obtain rfl := Option.some.inj hi
          exact hfresh hleader
        · have hold : s.index.tasks id ≠ none := fun hnone =>
            htask ((Function.update_of_ne hne _ _).trans hnone)
          exact h.working j (Or.inl ⟨hleader,Or.inr ⟨id,hold,howner⟩⟩)
    · exact h.working j (Or.inr hstarts)
  · intro id path' phase' j htask hphase howner
    rcases update_eq_some.mp htask with ⟨rfl,hnew⟩ | ⟨hne,htask⟩
    · obtain ⟨next,hnext,hsame⟩ := Option.map_eq_some_iff.mp hnew
      cases hsame
      rcases update_eq_some.mp howner with ⟨-,hi⟩ | ⟨hne,-⟩
      · obtain rfl := Option.some.inj hi
        exact hlate _ hnext hphase
      · exact absurd rfl hne
    · have hold : s.owner id = some j := (Function.update_of_ne hne _ _).symm.trans howner
      exact h.late id path' phase' j htask hphase hold

theorem Ruled.lead (h : s.Ruled) (hfresh : s.Fresh i)
    (hnone : ∀ id value answer, s.commands id ≠ some ⟨i,.acquire,value,answer⟩)
    {change : PollingInstance → PollingInstance}
    (hleader : (change (s.instances i)).isLeader = true)
    (hvalue : (change (s.instances i)).lockValue = (s.instances i).lockValue) :
    (s.modify i change).Ruled := by
  have hleads : ∀ j, (s.instances j).isLeader = true →
      ((s.modify i change).instances j).isLeader = true :=
    modify_cases (P := fun j x => (s.instances j).isLeader = true → x.isLeader = true)
      (fun _ => hleader) fun _ _ hyes => hyes
  refine ⟨?_,h.fresh,?_,h.refused,?_,?_,?_,h.sent,h.held_modify fun value hi => ?_⟩
  · intro j value hj hstored
    by_cases hji : j = i
    · subst hji
      exact h.holder_of_fresh hfresh hstored
    · rw [Counts,modify_of_ne change hji] at hj
      exact h.own j value hj hstored
  · intro j hj
    by_cases hji : j = i
    · subst hji
      exact hfresh
    · rw [Working,modify_of_ne change hji] at hj
      exact h.working j hj
  · intro id j value answer hid
    have hji : j ≠ i := by
      rintro rfl
      exact hnone id value answer hid
    rw [modify_of_ne change hji]
    exact h.starting id j value answer hid
  · exact modify_cases (P := fun _ x => 0 < x.intervals → x.isLeader = true)
      (fun _ => hleader) fun j _ => h.timer j
  · exact fun id path phase j htask hlate howner =>
      hleads j (h.late id path phase j htask hlate howner)
  · rw [hvalue] at hi
    exact h.held i value hi

theorem Ruled.follow (h : s.Ruled) (hstale : ¬ s.Fresh i)
    {change : PollingInstance → PollingInstance}
    (hleader : (change (s.instances i)).isLeader = false)
    (htimer : (change (s.instances i)).intervals = (s.instances i).intervals)
    (hvalue : (change (s.instances i)).lockValue = (s.instances i).lockValue) :
    (s.modify i change).Ruled := by
  have hidle : ¬ s.Working i := fun hworks => hstale (h.working i hworks)
  have hother : ∀ {j}, ((s.modify i change).instances j).isLeader = true → j ≠ i := by
    rintro j hj rfl
    rw [modify_self,hleader] at hj
    cases hj
  have hfollows : ∀ j, (s.instances j).isLeader = false →
      ((s.modify i change).instances j).isLeader = false :=
    modify_cases (P := fun j x => (s.instances j).isLeader = false → x.isLeader = false)
      (fun _ => hleader) fun _ _ hno => hno
  refine ⟨?_,h.fresh,?_,h.refused,?_,?_,?_,h.sent,h.held_modify fun value hi => ?_⟩
  · rintro j value (hj | hcommand)
    · have hne := hother hj
      rw [modify_of_ne change hne] at hj
      exact h.own j value (Or.inl hj)
    · exact h.own j value (Or.inr hcommand)
  · rintro j (⟨hj,hpolls⟩ | hcommand)
    · have hne := hother hj
      rw [modify_of_ne change hne] at hj hpolls
      exact h.working j (Or.inl ⟨hj,hpolls⟩)
    · exact h.working j (Or.inr hcommand)
  · intro id j value answer hid
    obtain ⟨hno,hunique⟩ := h.starting id j value answer hid
    exact ⟨hfollows j hno,hunique⟩
  · refine modify_cases (P := fun _ x => 0 < x.intervals → x.isLeader = true)
      (fun hi => ?_) fun j _ => h.timer j
    rw [htimer] at hi
    exact absurd (Or.inl ⟨h.timer i hi,Or.inl hi⟩) hidle
  · intro id path phase j htask hlate howner
    by_cases hji : j = i
    · subst hji
      have hyes := h.late id path phase j htask hlate howner
      have htasks : s.index.tasks id ≠ none := fun hnone => by
        rw [show s.index.tasks id = some ⟨path,phase⟩ from htask] at hnone
        cases hnone
      exact absurd (Or.inl ⟨hyes,Or.inr ⟨id,htasks,howner⟩⟩) hidle
    · rw [modify_of_ne change hji]
      exact h.late id path phase j htask hlate howner
  · rw [hvalue] at hi
    exact h.held i value hi

section Redis

variable {id : ℕ} {kind : LockCommandKind} {value : LockValue}

theorem Ruled.starting_answer (h : s.Ruled) (hid : s.commands id = some ⟨i,kind,value,none⟩)
    (ok : Bool) (id' j : ℕ) (value' : LockValue) (reply : Option Bool)
    (hid' : (s.answer id ⟨i,kind,value,none⟩ ok).commands id' = some ⟨j,.acquire,value',reply⟩) :
    (s.instances j).isLeader = false ∧ ∀ id'' command,
      (s.answer id ⟨i,kind,value,none⟩ ok).commands id'' = some command → command.sender = j →
      id'' = id' := by
  have hold : ∃ reply, s.commands id' = some ⟨j,.acquire,value',reply⟩ := by
    rcases update_eq_some.mp hid' with ⟨rfl,hnew⟩ | ⟨-,hid'⟩
    · cases hnew
      exact ⟨_,hid⟩
    · exact ⟨_,hid'⟩
  obtain ⟨reply',hold⟩ := hold
  obtain ⟨hleader,hunique⟩ := h.starting id' j value' reply' hold
  refine ⟨hleader,fun id'' command hid'' hsender => ?_⟩
  rcases update_eq_some.mp hid'' with ⟨rfl,hnew⟩ | ⟨-,hid''⟩
  · cases hnew
    exact hunique id'' _ hid hsender
  · exact hunique id'' command hid'' hsender

theorem Ruled.sent_answer (h : s.Ruled) (hid : s.commands id = some ⟨i,kind,value,none⟩)
    (ok : Bool) (id' : ℕ) (command : LockCommand)
    (hid' : (s.answer id ⟨i,kind,value,none⟩ ok).commands id' = some command) :
    command.value.holder = command.sender := by
  rcases update_eq_some.mp hid' with ⟨-,hnew⟩ | ⟨-,hid'⟩
  · cases hnew
    exact h.sent id ⟨i,kind,value,none⟩ hid
  · exact h.sent id' command hid'

/-- The answer counts its sender only where the command has or will. -/
theorem counts_answer (hid : s.commands id = some ⟨i,kind,value,none⟩) {ok : Bool} {j : ℕ}
    (hj : (s.answer id ⟨i,kind,value,none⟩ ok).Counts j) : s.Counts j ∨ j = i := by
  rcases hj with hleader | ⟨id',other,hid' | hid'⟩
  · exact Or.inl (Or.inl hleader)
  · rcases update_eq_some.mp hid' with ⟨-,hnew⟩ | ⟨-,hid'⟩
    · cases hnew
      exact Or.inr rfl
    · exact Or.inl (Or.inr ⟨id',other,Or.inl hid'⟩)
  · rcases update_eq_some.mp hid' with ⟨-,⟨⟩⟩ | ⟨-,hid'⟩
    exact Or.inl (Or.inr ⟨id',other,Or.inr hid'⟩)

theorem working_answer {ok : Bool} {j : ℕ}
    (hj : (s.answer id ⟨i,kind,value,none⟩ ok).Working j) :
    s.Working j ∨ j = i ∧ kind = .acquire ∧ ok = true := by
  rcases hj with hleads | ⟨id',other,hid'⟩
  · exact Or.inl (Or.inl hleads)
  · rcases update_eq_some.mp hid' with ⟨-,hnew⟩ | ⟨-,hid'⟩
    · cases hnew
      exact Or.inr ⟨rfl,rfl,rfl⟩
    · exact Or.inl (Or.inr ⟨id',other,hid'⟩)

theorem Ruled.refuse (h : s.Ruled) (hid : s.commands id = some ⟨i,kind,value,none⟩)
    (hstored : kind = .renew → s.stored = none) :
    (s.answer id ⟨i,kind,value,none⟩ false).Ruled := by
  refine ⟨?_,h.fresh,?_,?_,h.starting_answer hid false,h.timer,h.late,h.sent_answer hid false,h.held⟩
  · rintro j value' (hleader | ⟨id',other,hid' | hid'⟩)
    · exact h.own j value' (Or.inl hleader)
    · rcases update_eq_some.mp hid' with ⟨-,⟨⟩⟩ | ⟨-,hid'⟩
      exact h.own j value' (Or.inr ⟨id',other,Or.inl hid'⟩)
    · rcases update_eq_some.mp hid' with ⟨-,⟨⟩⟩ | ⟨-,hid'⟩
      exact h.own j value' (Or.inr ⟨id',other,Or.inr hid'⟩)
  · intro j hj
    rcases working_answer hj with hold | ⟨-,-,⟨⟩⟩
    exact h.working j hold
  · intro id' j other hid'
    rcases update_eq_some.mp hid' with ⟨-,hnew⟩ | ⟨-,hid'⟩
    · cases hnew
      intro value' hvalue'
      rw [show s.stored = some value' from hvalue'] at hstored
      cases hstored rfl
    · exact h.refused id' j other hid'

/-- Redis sets the key for an instance, where no other counts or has a fresh lock. -/
theorem Ruled.set (h : s.Ruled) (hid : s.commands id = some ⟨i,kind,value,none⟩)
    (hcounts : ∀ j, s.Counts j → j = i) (hfresh : ∀ j, s.Fresh j → j = i)
    (hrefused : ∀ id' value', s.commands id' ≠ some ⟨i,.renew,value',some false⟩) :
    ((s.setLock ⟨i,kind,value,none⟩).answer id ⟨i,kind,value,none⟩ true).Ruled := by
  have hholder : value.holder = i := h.sent id _ hid
  have hself : (s.setLock ⟨i,kind,value,none⟩).renewedAt i = some s.now :=
    Function.update_self _ _ _
  have hlive : s.now ≤ s.now+LOCK_MS := Nat.le_add_right _ _
  have hstored : ∀ value', (s.setLock ⟨i,kind,value,none⟩).stored = some value' →
      value'.holder = i := by
    intro value' hvalue'
    obtain ⟨_,hlock,-⟩ := stored_eq_some.mp hvalue'
    cases hlock
    exact hholder
  refine ⟨?_,?_,?_,?_,h.starting_answer hid true,h.timer,h.late,h.sent_answer hid true,h.held⟩
  · intro j value' hj hvalue'
    have hsame : j = i := (counts_answer hid hj).elim (hcounts j) fun hsame => hsame
    exact hsame ▸ hstored value' hvalue'
  · intro j t ht hnow
    rcases update_eq_some.mp ht with ⟨rfl,hnew⟩ | ⟨hne,ht⟩
    · cases hnew
      exact ⟨value,rfl,hholder⟩
    · exact absurd (hfresh j ⟨t,ht,hnow⟩) hne
  · intro j hj
    have hsame : j = i := (working_answer hj).elim
      (fun hold => hfresh j (h.working j hold)) fun hnew => hnew.1
    subst hsame
    exact ⟨s.now,hself,hlive⟩
  · intro id' j other hid' value' hvalue' hj
    rcases update_eq_some.mp hid' with ⟨-,⟨⟩⟩ | ⟨-,hid'⟩
    obtain rfl : i = j := (hstored value' hvalue').symm.trans hj
    exact hrefused id' other hid'

/-- Redis deletes the key of an instance that does not work. -/
theorem Ruled.delete (h : s.Ruled) (hid : s.commands id = some ⟨i,.release,value,none⟩)
    (hstored : s.stored = some value) (hidle : ¬ s.Working i) :
    ((s.deleteLock ⟨i,.release,value,none⟩).answer id ⟨i,.release,value,none⟩ true).Ruled := by
  have hholder : value.holder = i := h.sent id _ hid
  have hnone : (s.deleteLock ⟨i,.release,value,none⟩).stored = none := rfl
  have hother : ∀ j, s.Fresh j → j = i := fun j hj => by
    rw [← hholder,h.holder_of_fresh hj hstored]
  refine ⟨?_,?_,?_,?_,h.starting_answer hid true,h.timer,h.late,h.sent_answer hid true,h.held⟩
  · rintro j value' - ⟨⟩
  · intro j t ht hnow
    rcases update_eq_some.mp ht with ⟨-,⟨⟩⟩ | ⟨hne,ht⟩
    exact absurd (hother j ⟨t,ht,hnow⟩) hne
  · intro j hj
    rcases working_answer hj with hold | ⟨-,⟨⟩,-⟩
    obtain rfl := hother j (h.working j hold)
    exact absurd hold hidle
  · rintro id' j other - value' ⟨⟩

end Redis

end Primitives

end PollingCluster

namespace EventIndex

variable {s : EventIndex}

theorem proceed_updates (cfg : EventPollingConfig) {id : ℕ} {path : PollPath} {phase : PollPhase}
    (reply : PollReply) (found : s.tasks id = some ⟨path,phase⟩) (late : phase.isLate) :
    ∃ next : Option PollPhase, (s.proceed cfg id ⟨path,phase⟩ reply).tasks =
      Function.update s.tasks id (next.map fun phase => ⟨path,phase⟩) := by
  have hstays : ∃ next : Option PollPhase,
      s.tasks = Function.update s.tasks id (next.map fun phase => ⟨path,phase⟩) :=
    ⟨some phase,(Function.update_eq_self_iff.mpr found.symm).symm⟩
  cases phase with
  | cursor => exact late.elim
  | currentLedger cursor => exact late.elim
  | events batch =>
    cases reply with
    | getEvents reply =>
      cases reply with
      | networkError => exact ⟨none,rfl⟩
      | body result => exact ⟨_,rfl⟩
    | failure => exact ⟨none,rfl⟩
    | _ => exact hstays
  | processed batch event rest =>
    cases reply with
    | database =>
      unfold EventIndex.proceed
      dsimp only
      split
      · exact ⟨_,rfl⟩
      · exact ⟨_,rfl⟩
    | failure => exact ⟨none,rfl⟩
    | _ => exact hstays
  | recorded batch event rest =>
    cases reply with
    | database =>
      have htasks : (s.processEvent event).tasks = s.tasks := by
        unfold processEvent
        split_ifs <;> rfl
      refine ⟨some (batch.head rest),?_⟩
      rw [← htasks]
      rfl
    | failure => exact ⟨none,rfl⟩
    | _ => exact hstays
  | updated batch =>
    cases reply with
    | database => exact ⟨_,rfl⟩
    | failure => exact ⟨none,rfl⟩
    | _ => exact hstays

/-- A loop that goes on has been late, or has just found ledgers to fetch. -/
theorem proceed_tasks (cfg : EventPollingConfig) {id : ℕ} {task : PollTask} (reply : PollReply)
    (found : s.tasks id = some task) : ∃ next : Option PollPhase,
      (s.proceed cfg id task reply).tasks =
        Function.update s.tasks id (next.map fun phase => ⟨task.path,phase⟩) ∧
      ∀ phase, next = some phase → phase.isLate → task.phase.isLate ∨
        ∃ cursor latest, task.phase = .currentLedger cursor ∧ reply = .latestLedger latest ∧
          cursor < getCurrentLedger latest := by
  obtain ⟨path,phase⟩ := task
  by_cases late : phase.isLate
  · obtain ⟨next,htasks⟩ := proceed_updates cfg reply found late
    exact ⟨next,htasks,fun _ _ _ => Or.inl late⟩
  have hstays : s.tasks = Function.update s.tasks id ((some phase).map fun phase => ⟨path,phase⟩) :=
    (Function.update_eq_self_iff.mpr found.symm).symm
  cases phase with
  | cursor =>
    cases reply with
    | database =>
      refine ⟨_,rfl,?_⟩
      rintro _ ⟨⟩ ⟨⟩
    | failure => exact ⟨none,rfl,nofun⟩
    | _ => exact ⟨_,hstays,by rintro _ ⟨⟩ ⟨⟩⟩
  | currentLedger cursor =>
    cases reply with
    | latestLedger latest =>
      refine ⟨_,rfl,fun next hnext _ => Or.inr ⟨cursor,latest,rfl,rfl,?_⟩⟩
      unfold PollPath.head at hnext
      split_ifs at hnext with hle
      omega
    | failure => exact ⟨none,rfl,nofun⟩
    | _ => exact ⟨_,hstays,by rintro _ ⟨⟩ ⟨⟩⟩
  | _ => exact absurd trivial late

end EventIndex

namespace PollingCluster

variable {cfg : EventPollingConfig} {s : PollingCluster} {i : ℕ}

/-- The loops go on, where a follower finds nothing to fetch. -/
theorem Ruled.tasks (cfg : EventPollingConfig) (h : s.Ruled) {id : ℕ} {reply : PollReply}
    (hguard : s.Orderly (.proceed id reply)) :
    ({ s with index := s.index.serve cfg (.proceed id reply) } : PollingCluster).Ruled := by
  cases found : s.index.tasks id with
  | none =>
    have hsame : s.index.serve cfg (.proceed id reply) = s.index := by
      rw [EventIndex.serve,found]
    rw [hsame]
    exact h
  | some task =>
    have hserve : s.index.serve cfg (.proceed id reply) = s.index.proceed cfg id task reply := by
      rw [EventIndex.serve,found]
    rw [hserve]
    obtain ⟨next,htasks,hnext⟩ := EventIndex.proceed_tasks cfg reply found
    refine ⟨h.own,h.fresh,?_,h.refused,h.starting,h.timer,?_,h.sent,h.held⟩
    · rintro j (⟨hleader,hpolls⟩ | hstarts)
      · refine h.working j (Or.inl ⟨hleader,hpolls.imp_right ?_⟩)
        rintro ⟨id',htask,howner⟩
        refine ⟨id',fun hnone => htask ?_,howner⟩
        dsimp only
        rw [htasks,Function.update_of_ne ?_,hnone]
        rintro rfl
        rw [found] at hnone
        cases hnone
      · exact h.working j (Or.inr hstarts)
    · intro id' path phase j htask hlate howner
      dsimp only at htask howner ⊢
      rw [htasks] at htask
      rcases update_eq_some.mp htask with ⟨rfl,hnew⟩ | ⟨-,htask⟩
      · obtain ⟨after,hafter,hsame⟩ := Option.map_eq_some_iff.mp hnew
        cases hsame
        rcases hnext phase hafter hlate with hwas | ⟨cursor,latest,hphase,rfl,hlt⟩
        · exact h.late id' task.path task.phase j found hwas howner
        · by_contra hfollows
          have hle := hguard task.path cursor j (by rw [found,← hphase]) howner
            (Bool.eq_false_iff.mpr hfollows)
          exact absurd hlt (not_lt.mpr hle)
      · exact h.late id' path phase j htask hlate howner

theorem Ruled.proceed (h : s.Ruled) {id : ℕ} {reply : PollReply}
    (hguard : s.Orderly (.proceed id reply)) : (s.proceed cfg id reply).Ruled := by
  have htasks := h.tasks cfg hguard
  unfold PollingCluster.proceed
  dsimp only
  split
  · next phase j found howner =>
    split_ifs with hends
    · -- the leader's loop has been under way until now
      have hleader : (s.instances j).isLeader = true := by
        simp only [Bool.and_eq_true] at hends
        exact hends.2
      have hworks : s.Working j := Or.inl ⟨hleader,Or.inr ⟨id,by simp [found],howner⟩⟩
      refine htasks.lead (h.working j hworks) ?_ hleader rfl
      intro id' value answer hid'
      have hno := (h.starting id' j value answer hid').1
      rw [hleader] at hno
      cases hno
    · exact htasks
  · exact htasks

theorem Ruled.start (h : s.Ruled) {ready : Bool} (hguard : s.Orderly (.start i ready)) :
    (s.start i ready).Ruled := by
  unfold PollingCluster.start
  split_ifs with hrunning hready
  · exact h
  · obtain ⟨-,hfollower,hnone⟩ := hguard (Bool.eq_false_iff.mpr hrunning)
    refine Ruled.send (h.modify rfl le_rfl ?_) rfl (fun hkind => absurd rfl hkind)
      fun _ => ⟨?_,hnone⟩
    · rintro _ ⟨⟩
      rfl
    · rw [modify_self]
      exact hfollower
  · obtain ⟨hyes,-⟩ := hguard (Bool.eq_false_iff.mpr hrunning)
    exact absurd hyes hready

theorem Ruled.stop (h : s.Ruled) (ready : Bool) : (s.stop i ready).Ruled := by
  have hstopped : (s.modify i fun instance' => { instance' with
      isRunning := false
      pollTimer := false
      intervals := instance'.intervals-instance'.pollTimer.toNat }).Ruled :=
    h.modify rfl (Nat.sub_le _ _) (h.held i)
  unfold PollingCluster.stop
  split
  · dsimp only
    split
    · next value hvalue =>
      split
      · next hsends =>
        have hleader : (s.instances i).isLeader = true := (Bool.and_eq_true_iff.mp hsends).1
        refine hstopped.send (h.held i value hvalue) (fun _ => ?_) (by rintro ⟨⟩)
        rw [modify_self]
        exact hleader
      · exact hstopped
    · exact hstopped
  · exact h

theorem Ruled.renewalTimer (h : s.Ruled) (ready : Bool) : (s.renewalTimer i ready).Ruled := by
  unfold PollingCluster.renewalTimer
  split
  · next value hvalue =>
    split_ifs with hsends
    · simp only [Bool.and_eq_true] at hsends
      exact h.send (h.held i value hvalue) (fun _ => hsends.1.2) (by rintro ⟨⟩)
    · exact h
  · exact h

theorem Ruled.execute (h : s.Ruled) {id : ℕ} {kind : LockCommandKind} {value : LockValue}
    (hid : s.commands id = some ⟨i,kind,value,none⟩) (hguard : s.Orderly (.execute id)) :
    ((s.execute ⟨i,kind,value,none⟩).2.answer id ⟨i,kind,value,none⟩
      (s.execute ⟨i,kind,value,none⟩).1).Ruled := by
  obtain ⟨hacquire,hrelease⟩ := hguard i value
  unfold PollingCluster.execute
  cases kind with
  | acquire =>
    dsimp only
    split_ifs with hstored
    · refine h.set hid (fun j hj => ?_) (fun j hj => ?_) fun id' other hid' => ?_
      · by_contra hne
        exact hacquire hid hstored j hne hj
      · obtain ⟨_,hsome,-⟩ := h.stored_of_fresh hj
        rw [hstored] at hsome
        cases hsome
      · obtain rfl := (h.starting id i value none hid).2 id' _ hid' rfl
        rw [hid] at hid'
        cases hid'
    · exact h.refuse hid (by rintro ⟨⟩)
  | renew =>
    dsimp only
    split_ifs with hstored
    · obtain ⟨value',hvalue'⟩ := Option.ne_none_iff_exists'.mp hstored
      have hholder : value'.holder = i := h.own i value' (Or.inr ⟨id,value,Or.inr hid⟩) hvalue'
      refine h.set hid (fun j hj => ?_) (fun j hj => ?_) fun id' other hid' => ?_
      · rw [← h.own j value' hj hvalue',hholder]
      · rw [← h.holder_of_fresh hj hvalue',hholder]
      · exact h.refused id' i other hid' value' hvalue' hholder
    · exact h.refuse hid fun _ => not_ne_iff.mp hstored
  | release =>
    dsimp only
    split_ifs with hstored
    · exact h.delete hid hstored (hrelease hid hstored)
    · exact h.refuse hid (by rintro ⟨⟩)

theorem Ruled.acquired_false (h : s.Ruled) (hfollower : (s.instances i).isLeader = false) :
    (s.acquired i false).Ruled := by
  refine Ruled.spawn (h.modify ?_ le_rfl (h.held i)) ?_ ?_
  · exact hfollower.symm
  · rintro _ ⟨⟩ ⟨⟩
  · intro hleader
    rw [modify_self] at hleader
    cases hleader

theorem Ruled.acquired_true (h : s.Ruled) (hfresh : s.Fresh i)
    (hnone : ∀ id value answer, s.commands id ≠ some ⟨i,.acquire,value,answer⟩) :
    (s.acquired i true).Ruled := by
  refine Ruled.spawn (h.lead hfresh hnone rfl rfl) ?_ fun _ => hfresh
  rintro _ ⟨⟩ ⟨⟩

theorem Ruled.settle (h : s.Ruled) {id : ℕ} {command : LockCommand}
    (hid : s.commands id = some command) {ok : Option Bool}
    (hok : ok = none ∨ ok = command.answer) :
    (PollingCluster.settle command ok
      { s with commands := Function.update s.commands id none }).Ruled := by
  obtain ⟨i,kind,value,answer⟩ := command
  have hforget := h.forget id
  cases kind with
  | acquire =>
    obtain ⟨hfollower,hunique⟩ := h.starting id i value answer hid
    cases ok with
    | none => exact hforget.acquired_false hfollower
    | some ok =>
      cases ok with
      | false => exact hforget.acquired_false hfollower
      | true =>
        obtain rfl : some true = answer := by simpa using hok
        refine hforget.acquired_true (h.working i (Or.inr ⟨id,value,hid⟩)) ?_
        intro id' value' answer' hid'
        rcases update_eq_some.mp hid' with ⟨-,⟨⟩⟩ | ⟨hne,hid'⟩
        exact hne (hunique id' _ hid' rfl)
  | renew =>
    cases ok with
    | none => exact hforget
    | some ok =>
      cases ok with
      | true => exact hforget
      | false =>
        obtain rfl : some false = answer := by simpa using hok
        have hstale : ¬ s.Fresh i := fun hfresh => by
          obtain ⟨value',hstored,hholder⟩ := h.stored_of_fresh hfresh
          exact h.refused id i value hid value' hstored hholder
        change (PollingCluster.modify i (fun instance' => { instance' with isLeader := false })
          { s with commands := Function.update s.commands id none }).Ruled
        exact hforget.follow hstale rfl rfl rfl
  | release => exact hforget

theorem Ruled.serve (h : s.Ruled) {event : ClusterEvent} (hguard : s.Orderly event) :
    (serve cfg event s).Ruled := by
  cases event with
  | elapse ms =>
    have hstored : ∀ {value}, (PollingCluster.serve cfg (.elapse ms) s).stored = some value →
        s.stored = some value := by
      intro value hvalue
      obtain ⟨expiry,hlock,hlive⟩ := stored_eq_some.mp hvalue
      exact stored_eq_some.mpr ⟨expiry,hlock,le_of_add_le_left hlive⟩
    refine ⟨fun j value hj hvalue => h.own j value hj (hstored hvalue),
      fun j t ht hlive => h.fresh j t ht (le_of_add_le_left hlive),fun j hj => ?_,
      fun id j value hid value' hvalue' => h.refused id j value hid value' (hstored hvalue'),
      h.starting,h.timer,h.late,h.sent,h.held⟩
    obtain ⟨t,ht,-⟩ := h.working j hj
    exact ⟨t,ht,hguard j t hj ht⟩
  | start i ready => exact h.start hguard
  | stop i ready => exact h.stop ready
  | renewalTimer i ready => exact h.renewalTimer ready
  | execute id =>
    unfold PollingCluster.serve
    dsimp only
    split
    · exact h.execute ‹_› hguard
    · exact h
  | answered id =>
    unfold PollingCluster.serve
    dsimp only
    split
    · exact h.settle ‹_› (Or.inr rfl)
    · exact h
  | failed id =>
    unfold PollingCluster.serve
    dsimp only
    split
    · exact h.settle ‹_› (Or.inl rfl)
    · exact h
  | pollTimer i =>
    unfold PollingCluster.serve
    dsimp only
    split_ifs with htimer
    · refine h.spawn ?_ fun hleader => h.working i (Or.inl ⟨hleader,Or.inl htimer⟩)
      rintro _ ⟨⟩ ⟨⟩
    · exact h
  | replay i fromLedger toLedger =>
    unfold PollingCluster.serve
    dsimp only
    split_ifs
    · exact h
    · exact h.spawn (fun _ _ _ => hguard.1) fun _ => hguard.2
  | proceed id reply => exact h.proceed hguard
  | close emitted => exact ⟨h.own,h.fresh,h.working,h.refused,h.starting,h.timer,h.late,h.sent,h.held⟩

theorem Ruled.leads (h : s.Ruled) (hleader : (s.instances i).isLeader = true)
    (hpolls : 0 < (s.instances i).intervals ∨
      ∃ id, s.index.tasks id ≠ none ∧ s.owner id = some i) : s.Leads i :=
  ⟨hleader,h.working i (Or.inl ⟨hleader,hpolls⟩)⟩

theorem Ruled.led (h : s.Ruled) (event : ClusterEvent) : s.Led event := by
  refine ⟨fun i j hi hj => h.fresh_unique hi.2 hj.2,?_⟩
  cases event with
  | execute id =>
    intro i value value' hid hvalue'
    exact h.own i value' (Or.inr ⟨id,value,Or.inr hid⟩) hvalue'
  | pollTimer i => exact fun htimer => h.leads (h.timer i htimer) (Or.inl htimer)
  | proceed id reply =>
    cases reply with
    | database =>
      intro path batch i htask howner
      have hleader := h.late id path (.updated batch) i htask trivial howner
      exact h.leads hleader (Or.inr ⟨id,by simp [htask],howner⟩)
    | _ => trivial
  | _ => trivial

/-- On an orderly schedule one instance leads at most, and it alone polls, writes the cursor
and renews the lock. -/
theorem single_leader (cfg : EventPollingConfig) (events : List ClusterEvent)
    (horderly : Runs.Along (serve cfg) Orderly {} events) :
    Runs.Along (serve cfg) Led {} events ∧ ∀ i j, (runFrom cfg events).Leads i →
      (runFrom cfg events).Leads j → i = j := by
  have hstep : ∀ s event, Ruled s → Orderly s event → (serve cfg event s).Ruled :=
    fun _ _ h hguard => h.serve hguard
  have hruled : (runFrom cfg events).Ruled := horderly.invariant hstep Ruled.initial
  exact ⟨horderly.of_invariant hstep (fun _ event h _ => h.led event) Ruled.initial,
    fun i j hi hj => hruled.fresh_unique hi.2 hj.2⟩

section Demo

def takesLock (i command : ℕ) : List ClusterEvent :=
  [.start i true,.execute command,.answered command]

def renewsInTime : List ClusterEvent :=
  takesLock 0 0 ++ [.elapse 15000,.renewalTimer 0 true,.execute 1,.answered 1]

theorem renewsInTime_leads :
    Runs.Along (serve EventIndex.pollingConfig) Led {} renewsInTime ∧ ∀ i j,
      (runFrom EventIndex.pollingConfig renewsInTime).Leads i →
      (runFrom EventIndex.pollingConfig renewsInTime).Leads j → i = j := by
  have hstart : ∀ {id command},
      (serve EventIndex.pollingConfig (.start 0 true) {}).commands id = some command →
      command = ⟨0,.acquire,⟨0,0⟩,none⟩ := by
    intro id command hid
    rcases update_eq_some.mp hid with ⟨-,hnew⟩ | ⟨-,⟨⟩⟩
    exact (Option.some.inj hnew).symm
  refine single_leader EventIndex.pollingConfig renewsInTime
    ⟨?_,?_,trivial,?_,trivial,?_,trivial,trivial⟩
  · exact fun _ => ⟨rfl,rfl,by rintro id command ⟨⟩⟩
  · refine fun i value => ⟨fun hid _ j hj => ?_,fun hid => ?_⟩
    · cases hstart hid
      rintro (hleader | ⟨id,value',hid' | hid'⟩)
      · have hidle : (serve EventIndex.pollingConfig (.start 0 true) {}).instances j = {} :=
          Function.update_of_ne hj _ _
        rw [hidle] at hleader
        cases hleader
      · cases hstart hid'
      · cases hstart hid'
    · cases hstart hid
  · rintro i t - ht
    rcases update_eq_some.mp ht with ⟨-,hnew⟩ | ⟨-,⟨⟩⟩
    cases hnew
    decide
  · exact fun i value => ⟨(by rintro ⟨⟩),(by rintro ⟨⟩)⟩

/-- An instance that has lost its lock renews the one of another. -/
theorem renewal_takes_over : ¬ ∀ (cfg : EventPollingConfig) (events : List ClusterEvent),
    Runs.Along (serve cfg) Led {} events := by
  intro h
  have hled := h EventIndex.pollingConfig
    (takesLock 0 0 ++ [.elapse 30001] ++ takesLock 1 1 ++ [.renewalTimer 0 true,.execute 2])
  have hholder := hled.2.2.2.2.2.2.2.2.1.2 0 ⟨0,0⟩ ⟨1,1⟩ rfl rfl
  cases hholder

end Demo

end PollingCluster

end YieldVault.Backend
