import YieldVault.Runs

/-! The service that records the contract's events, with the node that it asks. Three loops
read the cursor, fetch events, record them and write the cursor; any number of them may be
under way, each at its own await. -/
namespace YieldVault.Backend

structure StellarEvent where
  id : String
  type : String
  ledger : ℤ
  contractId : String
  txHash : String
  deriving DecidableEq

structure ProcessedEvent where
  id : String
  ledgerSeq : ℤ
  eventType : String
  contractId : String
  txHash : String
  deriving DecidableEq

structure EventPollingConfig where
  batchSize : ℤ
  maxRangeSize : ℤ

inductive PollPath
  | pollEvents | replayMissedEvents | replayEventsForRange
  deriving DecidableEq

/-- The ledgers that are fetched at once, of those up to the last. -/
structure LedgerBatch where
  ledger : ℤ
  endLedger : ℤ
  last : ℤ

/-- What a loop waits for. -/
inductive PollPhase
  | cursor
  | currentLedger (cursor : ℤ)
  | events (batch : LedgerBatch)
  | processed (batch : LedgerBatch) (event : StellarEvent) (rest : List StellarEvent)
  | recorded (batch : LedgerBatch) (event : StellarEvent) (rest : List StellarEvent)
  | updated (batch : LedgerBatch)

structure PollTask where
  path : PollPath
  phase : PollPhase

/-- A reply of the node: none, or a body with or without the result asked for. -/
inductive RpcReply (α : Type)
  | networkError
  | body (result : Option α)

inductive PollReply
  | database
  | latestLedger (reply : RpcReply ℤ)
  | getEvents (reply : RpcReply (List StellarEvent))
  | failure

/-- The tables, the loops under way, and the node: its latest ledger, and all the events of
the contract that it ever had. -/
structure EventIndex where
  cursor : Option ℤ := none
  processedEvents : List ProcessedEvent := []
  tasks : ℕ → Option PollTask := fun _ => none
  next : ℕ := 0
  latest : ℤ := 0
  events : List StellarEvent := []

inductive PollEvent
  | close (emitted : List StellarEvent)
  | poll
  | startup
  | replay (fromLedger toLedger : ℤ)
  | proceed (task : ℕ) (reply : PollReply)
  | restart

def PollPath.endLedger (cfg : EventPollingConfig) (path : PollPath) (ledger last : ℤ) : ℤ :=
  match path with
  | .pollEvents => last
  | _ => min (ledger+cfg.batchSize-1) last

def PollPath.head (cfg : EventPollingConfig) (path : PollPath) (ledger last : ℤ) :
    Option PollPhase :=
  if ledger ≤ last then some (.events ⟨ledger,path.endLedger cfg ledger last,last⟩) else none

def PollPath.advance (cfg : EventPollingConfig) (path : PollPath) (batch : LedgerBatch) :
    Option PollPhase :=
  match path with
  | .pollEvents => none
  | _ => path.head cfg (batch.ledger+cfg.batchSize) batch.last

def LedgerBatch.head (batch : LedgerBatch) : List StellarEvent → PollPhase
  | [] => .updated batch
  | event :: rest => .processed batch event rest

def getCurrentLedger : RpcReply ℤ → ℤ
  | .networkError => 0
  | .body result => result.getD 0

def fetchEventsForLedgerRange (batch : LedgerBatch) :
    RpcReply (List StellarEvent) → Except Unit (List StellarEvent)
  | .networkError => .error ()
  | .body result => .ok ((result.getD []).filter fun event =>
      decide (batch.ledger ≤ event.ledger ∧ event.ledger ≤ batch.endLedger))

namespace EventIndex

def getLastProcessedLedger (s : EventIndex) : ℤ := s.cursor.getD 0

def isEventProcessed (s : EventIndex) (id : String) : Bool :=
  s.processedEvents.any fun row => decide (row.id = id)

/-- The upsert of an event, which changes no row. -/
def processEvent (event : StellarEvent) (s : EventIndex) : EventIndex :=
  if s.isEventProcessed event.id then s
  else { s with processedEvents := s.processedEvents ++
      [⟨event.id,event.ledger,event.type,event.contractId,event.txHash⟩] }

def updateCursor (ledgerSeq : ℤ) (s : EventIndex) : EventIndex :=
  { s with cursor := some ledgerSeq }

def put (id : ℕ) (path : PollPath) (phase : Option PollPhase) (s : EventIndex) : EventIndex :=
  { s with tasks := Function.update s.tasks id (phase.map fun phase => ⟨path,phase⟩) }

def spawn (path : PollPath) (phase : Option PollPhase) (s : EventIndex) : EventIndex :=
  { s.put s.next path phase with next := s.next+1 }

/-- A loop goes on with what it has waited for; an exception ends it. -/
def proceed (cfg : EventPollingConfig) (id : ℕ) (task : PollTask) (reply : PollReply)
    (s : EventIndex) : EventIndex :=
  let path := task.path
  match task.phase, reply with
  | .cursor, .database => s.put id path (some (.currentLedger s.getLastProcessedLedger))
  | .currentLedger cursor, .latestLedger reply =>
    s.put id path (path.head cfg (cursor+1) (getCurrentLedger reply))
  | .events batch, .getEvents reply =>
    match fetchEventsForLedgerRange batch reply with
    | .ok events => s.put id path (some (batch.head events))
    | .error _ => s.put id path none
  | .processed batch event rest, .database =>
    if s.isEventProcessed event.id then s.put id path (some (batch.head rest))
    else s.put id path (some (.recorded batch event rest))
  | .recorded batch event rest, .database =>
    (s.processEvent event).put id path (some (batch.head rest))
  | .updated batch, .database =>
    (s.updateCursor batch.endLedger).put id path (path.advance cfg batch)
  | _, .failure => s.put id path none
  | _, _ => s

def serve (cfg : EventPollingConfig) : PollEvent → EventIndex → EventIndex
  | .close emitted, s => { s with
      latest := s.latest+1
      events := s.events ++ emitted.map fun event => { event with ledger := s.latest+1 } }
  | .poll, s => s.spawn .pollEvents (some .cursor)
  | .startup, s => s.spawn .replayMissedEvents (some .cursor)
  | .replay fromLedger toLedger, s =>
    if fromLedger < 0 ∨ toLedger < fromLedger ∨ cfg.maxRangeSize < toLedger-fromLedger+1 then s
    else s.spawn .replayEventsForRange
      (PollPath.replayEventsForRange.head cfg fromLedger toLedger)
  | .proceed id reply, s =>
    match s.tasks id with
    | some task => s.proceed cfg id task reply
    | none => s
  | .restart, s => { s with tasks := fun _ => none }

def runFrom (cfg : EventPollingConfig) (s : EventIndex) (events : List PollEvent) : EventIndex :=
  Runs.run (serve cfg) events s

def Recorded (s : EventIndex) (event : StellarEvent) : Prop :=
  ∃ row ∈ s.processedEvents, row.id = event.id

/-- Every event from after the initial cursor up to the ledger is recorded. -/
def NoneSkipped (initial : ℤ) (s : EventIndex) (upTo : ℤ) : Prop :=
  ∀ event ∈ s.events, initial < event.ledger → event.ledger ≤ upTo → s.Recorded event

/-- The node answers with a ledger that is closed, and with a page of the events asked for. -/
def Truthful (s : EventIndex) : PollEvent → Prop
  | .proceed _ (.latestLedger (.body (some sequence))) => sequence ≤ s.latest
  | .proceed id (.getEvents (.body (some page))) => ∀ path batch,
      s.tasks id = some ⟨path,.events batch⟩ → page.length ≤ 1000 ∧ ∀ event ∈ page,
        event ∈ s.events ∧ batch.ledger ≤ event.ledger ∧ event.ledger ≤ batch.endLedger
  | _ => True

/-- A body with which the node answers a request for events lacks none that is not recorded,
and an admin asks for no replay that leaves out events before it or goes beyond the latest
ledger. -/
def Covers (initial : ℤ) (s : EventIndex) : PollEvent → Prop
  | .proceed id (.getEvents (.body result)) => ∀ path batch,
      s.tasks id = some ⟨path,.events batch⟩ → ∀ event ∈ s.events, initial < event.ledger →
        batch.ledger ≤ event.ledger → event.ledger ≤ batch.endLedger →
        s.Recorded event ∨ event ∈ result.getD []
  | .replay fromLedger toLedger => toLedger ≤ s.latest ∧ s.NoneSkipped initial (fromLedger-1)
  | _ => True

/-- Every event up to a ledger that is closed is recorded, or still to be. -/
structure Settled (initial : ℤ) (s : EventIndex) (upTo : ℤ) (rest : List StellarEvent) :
    Prop where
  closed : upTo ≤ max initial s.latest
  settled : ∀ event ∈ s.events, initial < event.ledger → event.ledger ≤ upTo →
    s.Recorded event ∨ event ∈ rest

/-- The batch is one of the loop's, of ledgers that are closed. -/
structure Formed (cfg : EventPollingConfig) (path : PollPath) (s : EventIndex)
    (batch : LedgerBatch) : Prop where
  ending : batch.endLedger = path.endLedger cfg batch.ledger batch.last
  closed : batch.last ≤ s.latest

def Done (cfg : EventPollingConfig) (initial : ℤ) (s : EventIndex) (path : PollPath) :
    PollPhase → Prop
  | .cursor => True
  | .currentLedger cursor => s.Settled initial cursor []
  | .events batch => s.Settled initial (batch.ledger-1) [] ∧ s.Formed cfg path batch
  | .processed batch event rest | .recorded batch event rest =>
    s.Settled initial batch.endLedger (event :: rest) ∧ s.Formed cfg path batch
  | .updated batch => s.Settled initial batch.endLedger [] ∧ s.Formed cfg path batch

/-- Nothing is skipped so far, and no loop is about to skip anything. -/
structure Complete (cfg : EventPollingConfig) (initial : ℤ) (s : EventIndex) : Prop where
  counted : 0 ≤ s.latest
  cursor : s.Settled initial s.getLastProcessedLedger []
  tasks : ∀ id task, s.tasks id = some task → s.Done cfg initial task.path task.phase
  once : (s.processedEvents.map ProcessedEvent.id).Nodup

/-- What no step takes back: ledgers stay closed, and events recorded. -/
structure Grows (s t : EventIndex) : Prop where
  latest : s.latest ≤ t.latest
  recorded : ∀ event, s.Recorded event → t.Recorded event
  events : ∀ event ∈ t.events, event ∈ s.events ∨ s.latest < event.ledger

variable {cfg : EventPollingConfig} {initial upTo : ℤ} {s t : EventIndex} {path : PollPath}
  {batch : LedgerBatch} {rest : List StellarEvent}

theorem Grows.of_eq (hlatest : t.latest = s.latest) (hrows : t.processedEvents = s.processedEvents)
    (hevents : t.events = s.events) : s.Grows t := by
  refine ⟨hlatest.ge,fun event h => ?_,fun event h => Or.inl (hevents ▸ h)⟩
  rw [Recorded,hrows]
  exact h

theorem Settled.mono (h : s.Settled initial upTo rest) (hgrows : s.Grows t) :
    t.Settled initial upTo rest := by
  refine ⟨h.closed.trans (max_le_max_left _ hgrows.latest),fun event hevent hafter hupTo => ?_⟩
  rcases hgrows.events event hevent with hold | hnew
  · exact (h.settled event hold hafter hupTo).imp_left (hgrows.recorded event)
  · have hclosed := hupTo.trans h.closed
    rcases le_max_iff.mp hclosed with hle | hle
    · exact absurd hle (not_le.mpr hafter)
    · exact absurd hle (not_le.mpr hnew)

theorem Formed.mono (h : s.Formed cfg path batch) (hgrows : s.Grows t) :
    t.Formed cfg path batch :=
  ⟨h.ending,h.closed.trans hgrows.latest⟩

theorem Done.mono {phase : PollPhase} (h : s.Done cfg initial path phase) (hgrows : s.Grows t) :
    t.Done cfg initial path phase := by
  cases phase with
  | cursor => trivial
  | currentLedger cursor => exact Settled.mono h hgrows
  | events batch => exact ⟨h.1.mono hgrows,h.2.mono hgrows⟩
  | processed batch event rest => exact ⟨h.1.mono hgrows,h.2.mono hgrows⟩
  | recorded batch event rest => exact ⟨h.1.mono hgrows,h.2.mono hgrows⟩
  | updated batch => exact ⟨h.1.mono hgrows,h.2.mono hgrows⟩

section Loops

theorem done_head {ledger last : ℤ} {phase : PollPhase}
    (h : path.head cfg ledger last = some phase) (hsettled : s.Settled initial (ledger-1) [])
    (hclosed : last ≤ s.latest) : s.Done cfg initial path phase := by
  unfold PollPath.head at h
  split_ifs at h
  cases h
  exact ⟨hsettled,rfl,hclosed⟩

theorem done_advance {phase : PollPhase} (h : path.advance cfg batch = some phase)
    (hsettled : s.Settled initial batch.endLedger []) (hformed : s.Formed cfg path batch) :
    s.Done cfg initial path phase := by
  have hnext : ∀ {phase}, path.head cfg (batch.ledger+cfg.batchSize) batch.last = some phase →
      path ≠ .pollEvents → s.Done cfg initial path phase := by
    intro phase hhead hpath
    refine done_head hhead ?_ hformed.closed
    have hle : batch.ledger+cfg.batchSize ≤ batch.last := by
      unfold PollPath.head at hhead
      split_ifs at hhead with hle
      exact hle
    have hending : batch.endLedger = batch.ledger+cfg.batchSize-1 := by
      rw [hformed.ending]
      cases path with
      | pollEvents => exact absurd rfl hpath
      | _ => exact min_eq_left (by omega)
    rw [← hending]
    exact hsettled
  cases path with
  | pollEvents => cases h
  | replayMissedEvents => exact hnext h (by simp)
  | replayEventsForRange => exact hnext h (by simp)

theorem done_events {events : List StellarEvent}
    (hsettled : s.Settled initial batch.endLedger events) (hformed : s.Formed cfg path batch) :
    s.Done cfg initial path (batch.head events) := by
  cases events with
  | nil => exact ⟨hsettled,hformed⟩
  | cons event rest => exact ⟨hsettled,hformed⟩

theorem Settled.tail {event : StellarEvent} (h : s.Settled initial upTo (event :: rest))
    (hrecorded : s.Recorded event) : s.Settled initial upTo rest := by
  refine ⟨h.closed,fun other hother hafter hupTo => ?_⟩
  rcases h.settled other hother hafter hupTo with hdone | hmem
  · exact Or.inl hdone
  · rcases List.mem_cons.mp hmem with rfl | hmem
    · exact Or.inl hrecorded
    · exact Or.inr hmem

theorem Formed.endLedger_le (h : s.Formed cfg path batch) : batch.endLedger ≤ s.latest := by
  refine le_trans ?_ h.closed
  rw [h.ending]
  cases path with
  | pollEvents => exact le_rfl
  | _ => exact min_le_right _ _

/-- A reply that lacks nothing settles the batch, once its events are recorded. -/
theorem Settled.fetched {events : List StellarEvent} (h : s.Settled initial (batch.ledger-1) [])
    (hformed : s.Formed cfg path batch)
    (hcomplete : ∀ event ∈ s.events, initial < event.ledger → batch.ledger ≤ event.ledger →
      event.ledger ≤ batch.endLedger → s.Recorded event ∨ event ∈ events) :
    s.Settled initial batch.endLedger (events.filter fun event =>
      decide (batch.ledger ≤ event.ledger ∧ event.ledger ≤ batch.endLedger)) := by
  refine ⟨hformed.endLedger_le.trans (le_max_right _ _),fun event hevent hafter hupTo => ?_⟩
  by_cases hbefore : event.ledger ≤ batch.ledger-1
  · have hrecorded := h.settled event hevent hafter hbefore
    exact Or.inl (hrecorded.resolve_right List.not_mem_nil)
  · have hfrom : batch.ledger ≤ event.ledger := by omega
    refine (hcomplete event hevent hafter hfrom hupTo).imp_right fun hmem => ?_
    exact List.mem_filter.mpr ⟨hmem,decide_eq_true ⟨hfrom,hupTo⟩⟩

end Loops

section Rows

theorem recorded_of_isEventProcessed {event : StellarEvent}
    (h : s.isEventProcessed event.id = true) : s.Recorded event := by
  obtain ⟨row,hrow,hid⟩ := List.any_eq_true.mp h
  exact ⟨row,hrow,of_decide_eq_true hid⟩

theorem grows_processEvent (event : StellarEvent) : s.Grows (s.processEvent event) := by
  unfold processEvent
  split_ifs
  · exact .of_eq rfl rfl rfl
  · refine ⟨le_rfl,?_,fun _ h => Or.inl h⟩
    rintro other ⟨row,hrow,hid⟩
    exact ⟨row,List.mem_append_left _ hrow,hid⟩

theorem recorded_processEvent (event : StellarEvent) : (s.processEvent event).Recorded event := by
  unfold processEvent
  split_ifs with h
  · exact recorded_of_isEventProcessed h
  · exact ⟨_,List.mem_append_right _ (List.mem_singleton_self _),rfl⟩

theorem once_processEvent (event : StellarEvent)
    (h : (s.processedEvents.map ProcessedEvent.id).Nodup) :
    ((s.processEvent event).processedEvents.map ProcessedEvent.id).Nodup := by
  unfold processEvent
  split_ifs with hprocessed
  · exact h
  · rw [List.map_append]
    refine List.Nodup.append h (List.nodup_singleton _) ?_
    rw [List.disjoint_right]
    intro id hid hmem
    obtain rfl := List.mem_singleton.mp hid
    obtain ⟨row,hrow,hsame⟩ := List.mem_map.mp hmem
    exact hprocessed (List.any_eq_true.mpr ⟨row,hrow,decide_eq_true hsame⟩)

end Rows

/-- A step that takes nothing back and changes one loop at most. -/
theorem Complete.put (h : s.Complete cfg initial) (hgrows : s.Grows t)
    (hcursor : t.Settled initial t.getLastProcessedLedger [])
    (honce : (t.processedEvents.map ProcessedEvent.id).Nodup) (htasks : t.tasks = s.tasks) {id : ℕ}
    {phase : Option PollPhase} (hphase : ∀ next, phase = some next → t.Done cfg initial path next) :
    (t.put id path phase).Complete cfg initial := by
  have hput : t.Grows (t.put id path phase) := .of_eq rfl rfl rfl
  refine ⟨h.counted.trans hgrows.latest,hcursor.mono hput,fun other task found => ?_,honce⟩
  by_cases hother : other = id
  · subst hother
    have hself : phase.map (fun phase => (⟨path,phase⟩ : PollTask)) = some task := by
      rw [← found]
      exact (Function.update_self other _ t.tasks).symm
    obtain ⟨next,hnext,rfl⟩ := Option.map_eq_some_iff.mp hself
    exact (hphase next hnext).mono hput
  · have hsame : s.tasks other = some task := by
      rw [← htasks,← found]
      exact (Function.update_of_ne hother _ _).symm
    exact ((h.tasks other task hsame).mono hgrows).mono hput

theorem Complete.continues (h : s.Complete cfg initial) {id : ℕ} {phase : Option PollPhase}
    (hphase : ∀ next, phase = some next → s.Done cfg initial path next) :
    (s.put id path phase).Complete cfg initial :=
  h.put (.of_eq rfl rfl rfl) h.cursor h.once rfl hphase

/-- A recorded event is behind the batch that it came in. -/
theorem Complete.recordEvent {id : ℕ} {batch : LedgerBatch} {event : StellarEvent}
    {rest : List StellarEvent} (h : s.Complete cfg initial)
    (hdone : s.Done cfg initial path (.recorded batch event rest)) :
    (s.proceed cfg id ⟨path,.recorded batch event rest⟩ .database).Complete cfg initial := by
  have hgrows := grows_processEvent (s := s) event
  have hcursor : (s.processEvent event).cursor = s.cursor := by
    unfold processEvent
    split_ifs <;> rfl
  have htasks : (s.processEvent event).tasks = s.tasks := by
    unfold processEvent
    split_ifs <;> rfl
  refine h.put hgrows ?_ (once_processEvent event h.once) htasks ?_
  · rw [getLastProcessedLedger,hcursor]
    exact h.cursor.mono hgrows
  · rintro _ ⟨⟩
    have hrest := (hdone.1.mono hgrows).tail (recorded_processEvent event)
    exact done_events hrest (hdone.2.mono hgrows)

theorem Complete.proceed {id : ℕ} {task : PollTask} {reply : PollReply}
    (h : s.Complete cfg initial) (htruthful : s.Truthful (.proceed id reply))
    (hcovers : s.Covers initial (.proceed id reply)) (found : s.tasks id = some task) :
    (s.proceed cfg id task reply).Complete cfg initial := by
  obtain ⟨path,phase⟩ := task
  have hdone := h.tasks id _ found
  cases reply with
  | failure => cases phase <;> exact h.continues (by rintro _ ⟨⟩)
  | latestLedger reply =>
    cases phase with
    | currentLedger cursor =>
      have hlatest : getCurrentLedger reply ≤ s.latest := by
        cases reply with
        | networkError => exact h.counted
        | body result =>
          cases result with
          | none => exact h.counted
          | some sequence => exact htruthful
      refine h.continues fun next hnext => done_head hnext ?_ hlatest
      rw [add_sub_cancel_right]
      exact hdone
    | _ => exact h
  | getEvents reply =>
    cases phase with
    | events batch =>
      cases reply with
      | networkError => exact h.continues (by rintro _ ⟨⟩)
      | body result =>
        refine h.continues ?_
        rintro _ ⟨⟩
        exact done_events (hdone.1.fetched hdone.2 (hcovers path batch found)) hdone.2
    | _ => exact h
  | database =>
    cases phase with
    | cursor =>
      refine h.continues ?_
      rintro _ ⟨⟩
      exact h.cursor
    | processed batch event rest =>
      unfold EventIndex.proceed
      dsimp only
      split_ifs with hprocessed
      · refine h.continues ?_
        rintro _ ⟨⟩
        exact done_events (hdone.1.tail (recorded_of_isEventProcessed hprocessed)) hdone.2
      · refine h.continues ?_
        rintro _ ⟨⟩
        exact hdone
    | recorded batch event rest => exact h.recordEvent hdone
    | updated batch =>
      have hgrows : s.Grows (s.updateCursor batch.endLedger) := .of_eq rfl rfl rfl
      refine h.put hgrows (hdone.1.mono hgrows) h.once rfl fun next hnext => ?_
      exact (done_advance hnext hdone.1 hdone.2).mono hgrows
    | _ => exact h

theorem Complete.spawn (h : s.Complete cfg initial) {phase : Option PollPhase}
    (hphase : ∀ next, phase = some next → s.Done cfg initial path next) :
    (s.spawn path phase).Complete cfg initial := by
  have hput : (s.put s.next path phase).Complete cfg initial := h.continues hphase
  have hgrows : (s.put s.next path phase).Grows (s.spawn path phase) := .of_eq rfl rfl rfl
  exact ⟨hput.counted,hput.cursor.mono hgrows,fun id task found => (hput.tasks id task found).mono hgrows,
    hput.once⟩

theorem grows_close (emitted : List StellarEvent) : s.Grows (serve cfg (.close emitted) s) := by
  refine ⟨(lt_add_one _).le,fun _ h => h,fun event hevent => ?_⟩
  rcases List.mem_append.mp hevent with hold | hnew
  · exact Or.inl hold
  · obtain ⟨other,-,rfl⟩ := List.mem_map.mp hnew
    exact Or.inr (lt_add_one _)

theorem Complete.serve (h : s.Complete cfg initial) {event : PollEvent}
    (htruthful : s.Truthful event) (hcovers : s.Covers initial event) :
    (serve cfg event s).Complete cfg initial := by
  cases event with
  | close emitted =>
    have hgrows : s.Grows (EventIndex.serve cfg (.close emitted) s) := grows_close emitted
    exact ⟨h.counted.trans hgrows.latest,h.cursor.mono hgrows,
      fun id task found => (h.tasks id task found).mono hgrows,h.once⟩
  | poll =>
    refine h.spawn ?_
    rintro _ ⟨⟩
    trivial
  | startup =>
    refine h.spawn ?_
    rintro _ ⟨⟩
    trivial
  | replay fromLedger toLedger =>
    rw [EventIndex.serve]
    split_ifs with hrange
    · exact h
    · obtain ⟨hclosed,hbefore⟩ := hcovers
      refine h.spawn fun next hnext => done_head hnext ⟨?_,?_⟩ hclosed
      · refine le_max_of_le_right (le_trans ?_ hclosed)
        omega
      · exact fun event hevent hafter hupTo => Or.inl (hbefore event hevent hafter hupTo)
  | proceed id reply =>
    cases found : s.tasks id with
    | none =>
      rw [EventIndex.serve,found]
      exact h
    | some task =>
      rw [EventIndex.serve,found]
      exact h.proceed htruthful hcovers found
  | restart => exact ⟨h.counted,h.cursor.mono (.of_eq rfl rfl rfl),by rintro _ _ ⟨⟩,h.once⟩

/-- Where nothing is under way, and no row is there twice. -/
structure Fresh (s : EventIndex) : Prop where
  counted : 0 ≤ s.latest
  idle : ∀ id, s.tasks id = none
  once : (s.processedEvents.map ProcessedEvent.id).Nodup

/-- No event up to the cursor is skipped, and none recorded twice, where every reply of the
node lacks no event and admins replay from where all is recorded. -/
theorem none_skipped (cfg : EventPollingConfig) (s : EventIndex) (hfresh : s.Fresh)
    (events : List PollEvent) (htruthful : Runs.Along (serve cfg) Truthful s events)
    (hcovers : Runs.Along (serve cfg) (Covers s.getLastProcessedLedger) s events) :
    (runFrom cfg s events).NoneSkipped s.getLastProcessedLedger
        (runFrom cfg s events).getLastProcessedLedger ∧
      ((runFrom cfg s events).processedEvents.map ProcessedEvent.id).Nodup := by
  have hstart : s.Complete cfg s.getLastProcessedLedger := by
    refine ⟨hfresh.counted,⟨le_max_left _ _,fun event _ hafter hupTo => ?_⟩,fun id task found => ?_,
      hfresh.once⟩
    · exact absurd hupTo (not_le.mpr hafter)
    · rw [hfresh.idle id] at found
      cases found
  have hcomplete : (runFrom cfg s events).Complete cfg s.getLastProcessedLedger :=
    (htruthful.and hcovers).invariant (fun _ _ h hguard => h.serve hguard.1 hguard.2) hstart
  refine ⟨fun event hevent hafter hupTo => ?_,hcomplete.once⟩
  have hsettled := hcomplete.cursor.settled event hevent hafter hupTo
  exact hsettled.resolve_right List.not_mem_nil

section Demo

def pollingConfig : EventPollingConfig := ⟨100,1000⟩

def vaultEvent : StellarEvent := ⟨"0001","contract",1,"vault","hash"⟩

def startsUp (reply : RpcReply (List StellarEvent)) : List PollEvent :=
  [.close [vaultEvent],.startup,.proceed 0 .database,
    .proceed 0 (.latestLedger (.body (some 1))),.proceed 0 (.getEvents reply),
    .proceed 0 .database,.proceed 0 .database,.proceed 0 .database]

theorem startsUp_truthful {result : Option (List StellarEvent)}
    (h : ∀ page, result = some page → page = [vaultEvent]) :
    Runs.Along (serve pollingConfig) Truthful {} (startsUp (.body result)) := by
  refine ⟨trivial,trivial,trivial,le_rfl,?_,trivial,trivial,trivial,trivial⟩
  cases result with
  | none => trivial
  | some page =>
    rintro path batch ⟨⟩
    obtain rfl := h page rfl
    decide

theorem startsUp_recorded :
    (runFrom pollingConfig {} (startsUp (.body (some [vaultEvent])))).NoneSkipped 0 1 ∧
      ((runFrom pollingConfig {} (startsUp (.body (some [vaultEvent])))).processedEvents.map
        ProcessedEvent.id).Nodup := by
  refine none_skipped pollingConfig {} ⟨le_rfl,fun _ => rfl,List.nodup_nil⟩ _
    (startsUp_truthful (by rintro _ ⟨⟩; rfl)) ?_
  refine ⟨trivial,trivial,trivial,trivial,?_,trivial,trivial,trivial,trivial⟩
  rintro path batch ⟨⟩ event hevent - - -
  exact Or.inr hevent

/-- An error in place of the events is taken for their absence. -/
theorem startsUp_skips : ¬ ∀ (cfg : EventPollingConfig) (s : EventIndex) (events : List PollEvent),
    s.Fresh → Runs.Along (serve cfg) Truthful s events →
    (runFrom cfg s events).NoneSkipped s.getLastProcessedLedger
      (runFrom cfg s events).getLastProcessedLedger := by
  intro h
  have hnone := h pollingConfig {} (startsUp (.body none)) ⟨le_rfl,fun _ => rfl,List.nodup_nil⟩
    (startsUp_truthful (by rintro _ ⟨⟩))
  obtain ⟨row,hrow,-⟩ := hnone vaultEvent (List.mem_singleton_self _) (by decide) (by decide)
  cases hrow

end Demo

end EventIndex

end YieldVault.Backend
