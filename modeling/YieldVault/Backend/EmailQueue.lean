import YieldVault.Runs

/-! The queue of e-mails and the instances that work it off. Each await of `processQueue` is
one step, and the steps of all instances interleave; an update of the database that fails may
have been executed. -/
namespace YieldVault.Backend

structure EmailOptions where
  «to» : String
  subject : String
  text : String
  html : String
  deriving DecidableEq

inductive EmailStatus
  | pending | processing | failed | completed | deadLetter
  deriving DecidableEq

structure EmailQueueItem where
  id : ℕ
  options : EmailOptions
  status : EmailStatus
  retryCount : ℕ
  maxRetries : ℕ
  lastError : Option String := none
  nextRetryAt : Option ℕ := none
  createdAt : ℕ
  deriving DecidableEq

/-- The await at which an e-mail is being processed. A failure is handled in the `try` block,
or in its `catch` block. -/
inductive EmailPhase
  | marking
  | sending
  | completing
  | failing (caught : Bool) (errorMessage : String)
  deriving DecidableEq

/-- Where an instance is in `processQueue`; it has read the e-mails that it works off. -/
inductive EmailWorker
  | idle
  | selecting
  | working (phase : EmailPhase) (email : EmailQueueItem) (rest : List EmailQueueItem)
  deriving DecidableEq

/-- The loop over the e-mails that have been read. -/
def EmailWorker.processEmails : List EmailQueueItem → EmailWorker
  | [] => .idle
  | email::rest => .working .marking email rest

inductive UpdateReply
  | ok
  | failed (executed : Bool) (message : String)
  deriving DecidableEq

@[simp] def UpdateReply.executed : UpdateReply → Bool
  | .ok => true
  | .failed executed _ => executed

/-- Beside the table: whether a send of an e-mail has succeeded and how many have begun since
it was enqueued or replayed, and the e-mails sent again after a success. -/
structure EmailQueue where
  emails : ℕ → Option EmailQueueItem := fun _ => none
  nextEmail : ℕ := 0
  workers : ℕ → EmailWorker := fun _ => .idle
  sent : ℕ → Bool := fun _ => false
  attempts : ℕ → ℕ := fun _ => 0
  resent : List ℕ := []

inductive EmailQueueEvent
  | enqueueEmail (options : EmailOptions) (now : ℕ)
  | processQueue (i : ℕ)
  | selected (i now : ℕ) (found : Bool)
  | marked (i : ℕ) (reply : UpdateReply)
  | delivered (i : ℕ) (success : Bool)
  | completed (i : ℕ) (reply : UpdateReply)
  | failed (i now : ℕ) (reply : UpdateReply)
  | replayEmail (emailId : ℕ)

def EmailStatus.Open (status : EmailStatus) : Prop := status = .pending ∨ status = .failed

instance (status : EmailStatus) : Decidable status.Open :=
  inferInstanceAs (Decidable (_ ∨ _))

def calculateNextRetry (retryCount now : ℕ) : ℕ := now+min (1000*2^retryCount) 60000

def EmailQueueItem.handleFailure (email : EmailQueueItem) (errorMessage : String) (now : ℕ)
    (row : EmailQueueItem) : EmailQueueItem :=
  if email.maxRetries ≤ email.retryCount+1 then
    { row with
      status := .deadLetter
      retryCount := email.retryCount+1
      lastError := some errorMessage }
  else
    { row with
      status := .failed
      retryCount := email.retryCount+1
      lastError := some errorMessage
      nextRetryAt := some (calculateNextRetry (email.retryCount+1) now) }

def EmailQueueItem.replay (row : EmailQueueItem) : EmailQueueItem :=
  { row with
    status := .pending
    retryCount := 0
    lastError := none
    nextRetryAt := none }

namespace EmailQueue

/-- The e-mails that are due, the oldest ones first, ten at most. -/
def selectable (now : ℕ) (s : EmailQueue) : List EmailQueueItem :=
  ((((List.range s.nextEmail).filterMap s.emails).filter fun email =>
    email.status.Open ∧ ∀ due ∈ email.nextRetryAt, due ≤ now).insertionSort
      fun a b => a.createdAt ≤ b.createdAt).take 10

def update (id : ℕ) (reply : UpdateReply) (f : EmailQueueItem → EmailQueueItem)
    (s : EmailQueue) : EmailQueue :=
  if reply.executed then
    { s with emails := Function.update s.emails id ((s.emails id).map f) }
  else s

def goOn (i : ℕ) (worker : EmailWorker) (s : EmailQueue) : EmailQueue :=
  { s with workers := Function.update s.workers i worker }

def send (id : ℕ) (s : EmailQueue) : EmailQueue :=
  { s with
    attempts := Function.update s.attempts id (s.attempts id+1)
    resent := if s.sent id then id::s.resent else s.resent }

def step : EmailQueueEvent → EmailQueue → EmailQueue
  | .enqueueEmail options now, s => { s with
      emails := Function.update s.emails s.nextEmail (some
        { id := s.nextEmail
          options := options
          status := .pending
          retryCount := 0
          maxRetries := 5
          createdAt := now })
      nextEmail := s.nextEmail+1 }
  | .processQueue i, s =>
    match s.workers i with
    | .idle => s.goOn i .selecting
    | _ => s
  | .selected i now found, s =>
    match s.workers i with
    | .selecting => s.goOn i (if found then .processEmails (s.selectable now) else .idle)
    | _ => s
  | .marked i reply, s =>
    match s.workers i with
    | .working .marking email rest =>
      let t := s.update email.id reply fun row => { row with status := .processing }
      match reply with
      | .ok => (t.send email.id).goOn i (.working .sending email rest)
      | .failed _ message => t.goOn i (.working (.failing true message) email rest)
    | _ => s
  | .delivered i success, s =>
    match s.workers i with
    | .working .sending email rest =>
      if success then
        { s with sent := Function.update s.sent email.id true }.goOn i
          (.working .completing email rest)
      else s.goOn i (.working (.failing false "Email send failed") email rest)
    | _ => s
  | .completed i reply, s =>
    match s.workers i with
    | .working .completing email rest =>
      let t := s.update email.id reply fun row => { row with status := .completed }
      match reply with
      | .ok => t.goOn i (.processEmails rest)
      | .failed _ message => t.goOn i (.working (.failing true message) email rest)
    | _ => s
  | .failed i now reply, s =>
    match s.workers i with
    | .working (.failing caught errorMessage) email rest =>
      let t := s.update email.id reply (email.handleFailure errorMessage now)
      match reply, caught with
      | .ok, _ => t.goOn i (.processEmails rest)
      | .failed _ message, false => t.goOn i (.working (.failing true message) email rest)
      -- what `handleFailure` throws in the `catch` block ends the loop over the e-mails
      | .failed _ _, true => t.goOn i .idle
    | _ => s
  | .replayEmail emailId, s =>
    match s.emails emailId with
    | none => s
    | some row => { s with
        emails := Function.update s.emails emailId (some row.replay)
        sent := Function.update s.sent emailId false
        attempts := Function.update s.attempts emailId 0 }

/-- No e-mail is sent again after a success, none is sent too often, and one that is being
processed is in the hands of an instance. -/
structure SentOnce (s : EmailQueue) : Prop where
  resent : s.resent = []
  attempts : ∀ id row, s.emails id = some row → s.attempts id ≤ row.maxRetries
  handled : ∀ id row, s.emails id = some row → row.status = .processing →
    ∃ i phase email rest, s.workers i = .working phase email rest ∧ email.id = id

end EmailQueue

/-- Where an e-mail is for the instances: in nobody's hands, read and waiting to be marked, or
marked and being sent, with or without success so far. -/
inductive EmailPlace
  | free
  | waiting (email : EmailQueueItem)
  | tried (email : EmailQueueItem)
  | delivered (email : EmailQueueItem)

@[simp] def EmailPhase.place (email : EmailQueueItem) : EmailPhase → EmailPlace
  | .marking => .waiting email
  | .sending | .failing _ _ => .tried email
  | .completing => .delivered email

def EmailWorker.held : EmailWorker → List (ℕ × EmailPlace)
  | .working phase email rest =>
    (email.id,phase.place email)::rest.map fun x => (x.id,.waiting x)
  | _ => []

namespace EmailQueue

/-- Every selection takes e-mails that no instance holds; no success goes unrecorded; and where
a failure goes unrecorded, the row has not been left marked. -/
def Orderly (s : EmailQueue) : EmailQueueEvent → Prop
  | .selected i now found => s.workers i = .selecting → found = true →
    ∀ x ∈ s.selectable now, ∀ j, x.id ∉ (s.workers j).held.map (·.1)
  | .completed i reply => ∀ email rest, s.workers i = .working .completing email rest → reply = .ok
  | .failed i _ reply => ∀ errorMessage email rest,
    s.workers i = .working (.failing true errorMessage) email rest → reply.executed = false →
      ∀ row ∈ s.emails email.id, row.status ≠ .processing
  | _ => True

/-- An open row has a retry left and counts every send. -/
structure Counted (row : EmailQueueItem) (attempts : ℕ) : Prop where
  positive : 0 < row.maxRetries
  bound : attempts ≤ row.maxRetries
  retry : row.status.Open → row.retryCount < row.maxRetries ∧ attempts ≤ row.retryCount

/-- What has been read of a row still tells how many retries it has. -/
def Read (email row : EmailQueueItem) : Prop :=
  email.maxRetries = row.maxRetries ∧ email.retryCount < row.maxRetries

/-- What a row, the sends beside it and the place of its e-mail say of one another. -/
inductive Fits (row : EmailQueueItem) (sent : Bool) (attempts : ℕ) : EmailPlace → Prop
  | free (hstatus : row.status ≠ .processing) (hsent : sent = true → row.status = .completed) :
    Fits row sent attempts .free
  | waiting {email : EmailQueueItem} (hread : Read email row) (hsent : sent = false)
    (hstatus : row.status ≠ .processing) (hcount : attempts ≤ email.retryCount) :
    Fits row sent attempts (.waiting email)
  | tried {email : EmailQueueItem} (hread : Read email row) (hsent : sent = false)
    (hcount : attempts ≤ email.retryCount+1) : Fits row sent attempts (.tried email)
  | delivered {email : EmailQueueItem} (hread : Read email row) :
    Fits row sent attempts (.delivered email)

structure Kept (s : EmailQueue) : Prop where
  known : ∀ id row, s.emails id = some row → row.id = id ∧ id < s.nextEmail
  fresh : ∀ id, s.nextEmail ≤ id → s.sent id = false ∧ s.attempts id = 0
  counted : ∀ id row, s.emails id = some row → Counted row (s.attempts id)
  sole : ∀ i j id p q, (id,p) ∈ (s.workers i).held → (id,q) ∈ (s.workers j).held → i = j
  nodup : ∀ i, ((s.workers i).held.map (·.1)).Nodup
  free : ∀ id row, s.emails id = some row → (∀ i, id ∉ (s.workers i).held.map (·.1)) →
    Fits row (s.sent id) (s.attempts id) .free
  held : ∀ i id p, (id,p) ∈ (s.workers i).held →
    ∃ row, s.emails id = some row ∧ Fits row (s.sent id) (s.attempts id) p
  resent : s.resent = []

variable {s t : EmailQueue} {i id : ℕ} {row : EmailQueueItem}

theorem Fits.let_go {sent : Bool} {attempts : ℕ} {email : EmailQueueItem}
    (h : Fits row sent attempts (.waiting email)) : Fits row sent attempts .free := by
  cases h with
  | waiting hread hsent hstatus hcount => exact .free hstatus (by simp [hsent])

theorem Kept.sentOnce (h : s.Kept) : s.SentOnce := by
  refine ⟨h.resent,fun id row hrow => (h.counted id row hrow).bound,fun id row hrow hstatus => ?_⟩
  by_contra hnone
  have hfree : ∀ i, id ∉ (s.workers i).held.map (·.1) := by
    intro i hi
    obtain ⟨⟨k,p⟩,hp,rfl⟩ := List.mem_map.mp hi
    obtain ⟨row',hrow',hfits⟩ := h.held i k p hp
    obtain rfl : row = row' := Option.some.inj (hrow.symm.trans hrow')
    cases hw : s.workers i with
    | idle => simp [hw,EmailWorker.held] at hp
    | selecting => simp [hw,EmailWorker.held] at hp
    | working phase email rest =>
      rw [hw,EmailWorker.held,List.mem_cons] at hp
      rcases hp with hp | hp
      · exact hnone ⟨i,phase,email,rest,hw,(congrArg Prod.fst hp).symm⟩
      · obtain ⟨x,-,hx⟩ := List.mem_map.mp hp
        obtain rfl : EmailPlace.waiting x = p := congrArg Prod.snd hx
        cases hfits with
        | waiting hread hsent hunmarked hcount => exact hunmarked hstatus
  cases h.free id row hrow hfree with
  | free hunmarked hsent => exact hunmarked hstatus

structure Alters (s t : EmailQueue) (i id : ℕ) (row : EmailQueueItem) : Prop where
  known : row.id = id ∧ id < s.nextEmail
  written : t.emails id = some row
  next : t.nextEmail = s.nextEmail
  emails : ∀ k ≠ id, t.emails k = s.emails k
  sent : ∀ k ≠ id, t.sent k = s.sent k
  attempts : ∀ k ≠ id, t.attempts k = s.attempts k
  workers : ∀ j ≠ i, t.workers j = s.workers j
  resent : t.resent = []

theorem Alters.row_cases (ha : Alters s t i id row) {k : ℕ} {row' : EmailQueueItem}
    (hk : t.emails k = some row') : k = id ∧ row' = row ∨ k ≠ id ∧ s.emails k = some row' := by
  by_cases hkid : k = id
  · subst hkid
    exact Or.inl ⟨rfl,Option.some.inj (hk.symm.trans ha.written)⟩
  · exact Or.inr ⟨hkid,(ha.emails k hkid).symm.trans hk⟩

/-- What the instance lets go of it has only read. -/
theorem Kept.freed (h : s.Kept) (ha : Alters s t i id row) {k : ℕ} {row' : EmailQueueItem}
    (hk : s.emails k = some row')
    (hdropped : ∀ p, (k,p) ∈ (s.workers i).held → ∃ email, p = .waiting email)
    (hnone : ∀ j, k ∉ (t.workers j).held.map (·.1)) : Fits row' (s.sent k) (s.attempts k) .free := by
  by_cases hin : k ∈ (s.workers i).held.map (·.1)
  · obtain ⟨⟨k',p⟩,hp,rfl⟩ := List.mem_map.mp hin
    obtain ⟨email,rfl⟩ := hdropped p hp
    obtain ⟨old,hold,hfits⟩ := h.held i k' _ hp
    obtain rfl : row' = old := Option.some.inj (hk.symm.trans hold)
    exact hfits.let_go
  · refine h.free k row' hk fun j => ?_
    by_cases hj : j = i
    · exact hj ▸ hin
    · rw [← ha.workers j hj]
      exact hnone j

/-- The invariant through such a change, where no other instance holds the e-mail. -/
theorem Kept.alters (h : s.Kept) (ha : Alters s t i id row)
    (hcounted : Counted row (t.attempts id))
    (hothers : ∀ j ≠ i, id ∉ (s.workers j).held.map (·.1))
    (hnodup : ((t.workers i).held.map (·.1)).Nodup)
    (hheld : ∀ k p, (k,p) ∈ (t.workers i).held →
      if k = id then Fits row (t.sent id) (t.attempts id) p else (k,p) ∈ (s.workers i).held)
    (hfree : id ∉ (t.workers i).held.map (·.1) → Fits row (t.sent id) (t.attempts id) .free)
    (hdropped : ∀ k p, k ≠ id → (k,p) ∈ (s.workers i).held →
      k ∉ (t.workers i).held.map (·.1) → ∃ email, p = .waiting email) : t.Kept := by
  have hold {j k : ℕ} {p : EmailPlace} (hk : (k,p) ∈ (t.workers j).held) (hkid : k ≠ id) :
      (k,p) ∈ (s.workers j).held := by
    by_cases hj : j = i
    · subst hj
      simpa [hkid] using hheld k p hk
    · rwa [ha.workers j hj] at hk
  have hhere {j : ℕ} {p : EmailPlace} (hk : (id,p) ∈ (t.workers j).held) : j = i := by
    by_contra hj
    rw [ha.workers j hj] at hk
    exact hothers j hj (List.mem_map_of_mem hk)
  refine ⟨fun k row' hk => ?_,fun k hk => ?_,fun k row' hk => ?_,fun j j' k p q hp hq => ?_,
    fun j => ?_,fun k row' hk hnone => ?_,fun j k p hp => ?_,ha.resent⟩
  · rw [ha.next]
    rcases ha.row_cases hk with ⟨rfl,rfl⟩ | ⟨-,hk⟩
    · exact ha.known
    · exact h.known k row' hk
  · rw [ha.next] at hk
    have hkid : k ≠ id := (ha.known.2.trans_le hk).ne'
    rw [ha.sent k hkid,ha.attempts k hkid]
    exact h.fresh k hk
  · rcases ha.row_cases hk with ⟨rfl,rfl⟩ | ⟨hkid,hk⟩
    · exact hcounted
    · rw [ha.attempts k hkid]
      exact h.counted k row' hk
  · by_cases hkid : k = id
    · subst hkid
      exact (hhere hp).trans (hhere hq).symm
    · exact h.sole j j' k p q (hold hp hkid) (hold hq hkid)
  · by_cases hj : j = i
    · exact hj ▸ hnodup
    · rw [ha.workers j hj]
      exact h.nodup j
  · rcases ha.row_cases hk with ⟨rfl,rfl⟩ | ⟨hkid,hk⟩
    · exact hfree (hnone i)
    · rw [ha.sent k hkid,ha.attempts k hkid]
      exact h.freed ha hk (fun p hp => hdropped k p hkid hp (hnone i)) hnone
  · by_cases hkid : k = id
    · subst hkid
      obtain rfl := hhere hp
      exact ⟨row,ha.written,by simpa using hheld k p hp⟩
    · obtain ⟨old,hk,hfits⟩ := h.held j k p (hold hp hkid)
      rw [ha.emails k hkid,ha.sent k hkid,ha.attempts k hkid]
      exact ⟨old,hk,hfits⟩

variable {email : EmailQueueItem} {rest : List EmailQueueItem} {phase : EmailPhase}

theorem held_processEmails (emails : List EmailQueueItem) :
    (EmailWorker.processEmails emails).held = emails.map fun x => (x.id,.waiting x) := by
  cases emails <;> rfl

section Handling

variable (h : s.Kept) (hw : s.workers i = .working phase email rest)
include h hw

theorem Kept.handling : ∃ row, s.emails email.id = some row ∧ Counted row (s.attempts email.id) ∧
    Fits row (s.sent email.id) (s.attempts email.id) (phase.place email) := by
  obtain ⟨row,hrow,hfits⟩ := h.held i email.id (phase.place email) (by simp [hw,EmailWorker.held])
  exact ⟨row,hrow,h.counted _ row hrow,hfits⟩

theorem Kept.others : ∀ j ≠ i, email.id ∉ (s.workers j).held.map (·.1) := by
  intro j hj hin
  obtain ⟨⟨k,p⟩,hp,hk⟩ := List.mem_map.mp hin
  have hp' : (email.id,p) ∈ (s.workers j).held := by rwa [← hk]
  exact hj (h.sole j i email.id p (phase.place email) hp' (by simp [hw,EmailWorker.held]))

theorem Kept.rest_nodup : email.id ∉ rest.map (·.id) ∧ (rest.map (·.id)).Nodup := by
  have hnodup := h.nodup i
  rw [hw,EmailWorker.held,List.map_cons,List.map_map] at hnodup
  exact List.nodup_cons.mp hnodup

theorem Kept.moves {phase' : EmailPhase} (ha : Alters s t i email.id row)
    (hcounted : Counted row (t.attempts email.id))
    (hw' : t.workers i = .working phase' email rest)
    (hfits : Fits row (t.sent email.id) (t.attempts email.id) (phase'.place email)) : t.Kept := by
  obtain ⟨hnotin,hnodup⟩ := h.rest_nodup hw
  refine h.alters ha hcounted (h.others hw) ?_ ?_ ?_ ?_
  · rw [hw',EmailWorker.held,List.map_cons,List.map_map]
    exact List.nodup_cons.mpr ⟨hnotin,hnodup⟩
  · intro k p hk
    rw [hw',EmailWorker.held,List.mem_cons] at hk
    rcases hk with hk | hk
    · obtain ⟨rfl,rfl⟩ := Prod.mk.inj hk
      rwa [if_pos rfl]
    · obtain ⟨x,hx,hxk⟩ := List.mem_map.mp hk
      have hkid : k ≠ email.id := by
        rintro rfl
        exact hnotin (List.mem_map.mpr ⟨x,hx,congrArg Prod.fst hxk⟩)
      rw [if_neg hkid,hw]
      exact List.mem_cons_of_mem _ hk
  · intro hfree
    exact absurd (by simp [hw',EmailWorker.held]) hfree
  · intro k p hkid hk hfree
    rw [hw] at hk
    rw [hw'] at hfree
    rcases List.mem_cons.mp hk with hk | hk
    · exact absurd (congrArg Prod.fst hk) hkid
    · exact absurd (List.mem_map_of_mem (List.mem_cons_of_mem _ hk)) hfree

/-- The instance lets go of the e-mail, and goes on with those that wait or gives them up. -/
theorem Kept.leaves {emails : List EmailQueueItem} (ha : Alters s t i email.id row)
    (hcounted : Counted row (t.attempts email.id))
    (hw' : t.workers i = .processEmails emails) (hsub : emails.Sublist rest)
    (hfits : Fits row (t.sent email.id) (t.attempts email.id) .free) : t.Kept := by
  obtain ⟨hnotin,hnodup⟩ := h.rest_nodup hw
  have hheld : (t.workers i).held = emails.map fun x => (x.id,.waiting x) := by
    rw [hw',held_processEmails]
  refine h.alters ha hcounted (h.others hw) ?_ ?_ (fun _ => hfits) ?_
  · rw [hheld,List.map_map]
    exact hnodup.sublist (hsub.map _)
  · intro k p hk
    rw [hheld] at hk
    obtain ⟨x,hx,hxk⟩ := List.mem_map.mp hk
    have hkid : k ≠ email.id := by
      rintro rfl
      exact hnotin (List.mem_map.mpr ⟨x,hsub.subset hx,congrArg Prod.fst hxk⟩)
    rw [if_neg hkid,hw]
    exact List.mem_cons_of_mem _ (List.mem_map.mpr ⟨x,hsub.subset hx,hxk⟩)
  · intro k p hkid hk _
    rw [hw] at hk
    rcases List.mem_cons.mp hk with hk | hk
    · exact absurd (congrArg Prod.fst hk) hkid
    · obtain ⟨x,-,hx⟩ := List.mem_map.mp hk
      exact ⟨x,(congrArg Prod.snd hx).symm⟩

end Handling

section Steps

variable {reply : UpdateReply} {f : EmailQueueItem → EmailQueueItem} {worker : EmailWorker}

@[simp] theorem update_sent : (s.update id reply f).sent = s.sent := by
  unfold update
  split <;> rfl

@[simp] theorem update_attempts : (s.update id reply f).attempts = s.attempts := by
  unfold update
  split <;> rfl

@[simp] theorem goOn_sent : (s.goOn i worker).sent = s.sent := rfl

@[simp] theorem goOn_attempts : (s.goOn i worker).attempts = s.attempts := rfl

@[simp] theorem goOn_workers : (s.goOn i worker).workers i = worker := Function.update_self ..

@[simp] theorem send_sent : (s.send id).sent = s.sent := rfl

@[simp] theorem send_attempts : (s.send id).attempts id = s.attempts id+1 :=
  Function.update_self ..

theorem Kept.unaltered (h : s.Kept) (hrow : s.emails id = some row) : Alters s s i id row :=
  ⟨h.known id row hrow,hrow,rfl,fun _ _ => rfl,fun _ _ => rfl,fun _ _ => rfl,fun _ _ => rfl,
    h.resent⟩

theorem Alters.update (ha : Alters s t i id row) (reply : UpdateReply) (hid : (f row).id = row.id) :
    Alters s (t.update id reply f) i id (if reply.executed then f row else row) := by
  unfold EmailQueue.update
  split
  · refine ⟨⟨hid.trans ha.known.1,ha.known.2⟩,?_,ha.next,fun k hk => ?_,ha.sent,ha.attempts,
      ha.workers,ha.resent⟩
    · simp [ha.written]
    · exact (Function.update_of_ne hk _ _).trans (ha.emails k hk)
  · exact ha

theorem Alters.goOn (ha : Alters s t i id row) (worker : EmailWorker) :
    Alters s (t.goOn i worker) i id row :=
  ⟨ha.known,ha.written,ha.next,ha.emails,ha.sent,ha.attempts,
    fun j hj => (Function.update_of_ne hj _ _).trans (ha.workers j hj),ha.resent⟩

theorem Alters.send (ha : Alters s t i id row) (hsent : t.sent id = false) :
    Alters s (t.send id) i id row := by
  refine ⟨ha.known,ha.written,ha.next,ha.emails,ha.sent,
    fun k hk => (Function.update_of_ne hk _ _).trans (ha.attempts k hk),ha.workers,?_⟩
  simpa [EmailQueue.send,hsent] using ha.resent

theorem Kept.step_marked (h : s.Kept) (reply : UpdateReply) :
    (step (.marked i reply) s).Kept := by
  simp only [step]
  split
  case h_2 => exact h
  case h_1 email rest hw =>
    obtain ⟨row,hrow,hcounted,hfits⟩ := h.handling hw
    cases hfits with
    | waiting hread hsent hstatus hcount =>
      have hu := (h.unaltered (i := i) hrow).update
        (f := fun row => { row with status := .processing }) reply rfl
      cases reply with
      | ok =>
        refine h.moves hw ((hu.send (by simpa using hsent)).goOn _) ⟨?_,?_,?_⟩ goOn_workers ?_
        · simpa using hcounted.positive
        · simpa using (Nat.lt_of_le_of_lt hcount hread.2 : _ < _)
        · simp [EmailStatus.Open]
        · exact .tried hread (by simpa using hsent) (by simpa using Nat.succ_le_succ hcount)
      | failed executed message =>
        refine h.moves hw (hu.goOn _) ?_ goOn_workers ?_
        · cases executed
          · simpa using hcounted
          · exact ⟨by simpa using hcounted.positive,by simpa using hcounted.bound,
              by simp [EmailStatus.Open]⟩
        · cases executed
          · simpa using Fits.tried hread hsent (Nat.le_succ_of_le hcount)
          · exact .tried hread (by simpa using hsent) (by simpa using Nat.le_succ_of_le hcount)

theorem Kept.step_delivered (h : s.Kept) (success : Bool) :
    (step (.delivered i success) s).Kept := by
  simp only [step]
  split
  case h_2 => exact h
  case h_1 email rest hw =>
    obtain ⟨row,hrow,hcounted,hfits⟩ := h.handling hw
    cases hfits with
    | tried hread hsent hcount =>
      have hu := h.unaltered (i := i) hrow
      split
      · have hs : Alters s { s with sent := Function.update s.sent email.id true } i email.id row :=
          ⟨hu.known,hu.written,hu.next,hu.emails,fun k hk => Function.update_of_ne hk _ _,
            hu.attempts,hu.workers,hu.resent⟩
        exact h.moves hw (hs.goOn _) (by simpa using hcounted) goOn_workers (.delivered hread)
      · exact h.moves hw (hu.goOn _) (by simpa using hcounted) goOn_workers
          (by simpa using Fits.tried hread hsent hcount)

theorem Kept.step_completed (h : s.Kept) (reply : UpdateReply)
    (ho : Orderly s (.completed i reply)) : (step (.completed i reply) s).Kept := by
  simp only [step]
  split
  case h_2 => exact h
  case h_1 email rest hw =>
    obtain ⟨row,hrow,hcounted,hfits⟩ := h.handling hw
    obtain rfl := ho email rest hw
    have hu := (h.unaltered (i := i) hrow).update
      (f := fun row => { row with status := .completed }) .ok rfl
    refine h.leaves hw (hu.goOn _) ⟨?_,?_,?_⟩ goOn_workers (List.Sublist.refl _) (.free ?_ ?_)
    · simpa using hcounted.positive
    · simpa using hcounted.bound
    · simp [EmailStatus.Open]
    · simp
    · simp

/-- What a failure writes counts the sends, and is no mark. -/
theorem handled_failure {attempts : ℕ} {email : EmailQueueItem} (hread : Read email row)
    (hcount : attempts ≤ email.retryCount+1) (errorMessage : String) (now : ℕ) :
    Counted (email.handleFailure errorMessage now row) attempts ∧
      (email.handleFailure errorMessage now row).status ≠ .processing ∧
      Read email (email.handleFailure errorMessage now row) := by
  obtain ⟨hmax,hlt⟩ := hread
  unfold EmailQueueItem.handleFailure
  split
  case isTrue hle =>
    exact ⟨⟨Nat.zero_lt_of_lt hlt,hcount.trans hlt,by simp [EmailStatus.Open]⟩,by simp,hmax,hlt⟩
  case isFalse hle =>
    rw [hmax,not_le] at hle
    exact ⟨⟨Nat.zero_lt_of_lt hlt,hcount.trans hlt,fun _ => ⟨hle,hcount⟩⟩,by simp,hmax,hlt⟩

theorem Kept.step_failed (h : s.Kept) (now : ℕ) (reply : UpdateReply)
    (ho : Orderly s (.failed i now reply)) : (step (.failed i now reply) s).Kept := by
  simp only [step]
  split
  case h_2 => exact h
  case h_1 caught errorMessage email rest hw =>
    obtain ⟨row,hrow,hcounted,hfits⟩ := h.handling hw
    cases hfits with
    | tried hread hsent hcount =>
      obtain ⟨hcounted',hstatus',hread'⟩ := handled_failure hread hcount errorMessage now
      have hu := (h.unaltered (i := i) hrow).update
        (f := email.handleFailure errorMessage now) reply
        (by unfold EmailQueueItem.handleFailure; split <;> rfl)
      cases reply with
      | ok =>
        refine h.leaves hw (hu.goOn _) ?_ goOn_workers (List.Sublist.refl _) (.free ?_ ?_)
        · simpa using hcounted'
        · exact hstatus'
        · simp [hsent]
      | failed executed message =>
        cases caught with
        | false =>
          refine h.moves hw (hu.goOn _) ?_ goOn_workers ?_
          · cases executed
            · simpa using hcounted
            · simpa using hcounted'
          · cases executed
            · simpa using Fits.tried hread hsent hcount
            · simpa using Fits.tried hread' hsent hcount
        | true =>
          refine h.leaves hw (hu.goOn (.processEmails [])) ?_ goOn_workers
            (List.nil_sublist _) (.free ?_ (by simp [hsent]))
          · cases executed
            · simpa using hcounted
            · simpa using hcounted'
          · cases executed
            · exact ho errorMessage email rest hw rfl row hrow
            · exact hstatus'

theorem mem_selectable {now : ℕ} {x : EmailQueueItem} (hx : x ∈ s.selectable now) :
    ∃ k, s.emails k = some x ∧ x.status.Open := by
  have hmem := (List.perm_insertionSort _ _).mem_iff.mp (List.mem_of_mem_take hx)
  obtain ⟨hrow,hdue⟩ := List.mem_filter.mp hmem
  obtain ⟨k,-,hk⟩ := List.mem_filterMap.mp hrow
  exact ⟨k,hk,(of_decide_eq_true hdue).1⟩

theorem Kept.selectable_nodup (h : s.Kept) (now : ℕ) :
    ((s.selectable now).map (·.id)).Nodup := by
  have hrows : ((List.range s.nextEmail).filterMap s.emails).Pairwise fun x y => x.id ≠ y.id := by
    refine List.Pairwise.filterMap _ ?_ List.nodup_range
    intro k k' hne x hx y hy
    rw [(h.known k x hx).1,(h.known k' y hy).1]
    exact hne
  refine List.pairwise_map.mpr (List.Pairwise.sublist (List.take_sublist _ _) ?_)
  exact (List.perm_insertionSort _ _).symm.pairwise (hrows.filter _) fun hne => hne.symm

theorem Kept.goOn (h : s.Kept)
    (hsole : ∀ k p, (k,p) ∈ worker.held → ∀ j ≠ i, k ∉ (s.workers j).held.map (·.1))
    (hnodup : (worker.held.map (·.1)).Nodup)
    (hheld : ∀ k p, (k,p) ∈ worker.held →
      ∃ row, s.emails k = some row ∧ Fits row (s.sent k) (s.attempts k) p)
    (hkept : (s.workers i).held = []) : (s.goOn i worker).Kept := by
  have hcases (j : ℕ) : j = i ∧ (s.goOn i worker).workers j = worker ∨
      j ≠ i ∧ (s.goOn i worker).workers j = s.workers j := by
    by_cases hj : j = i
    · exact Or.inl ⟨hj,hj ▸ goOn_workers⟩
    · exact Or.inr ⟨hj,Function.update_of_ne hj _ _⟩
  refine ⟨h.known,h.fresh,h.counted,fun j j' k p q hp hq => ?_,fun j => ?_,
    fun k row hk hnone => h.free k row hk fun j => ?_,fun j k p hp => ?_,h.resent⟩
  · rcases hcases j with ⟨rfl,hj⟩ | ⟨hne,hj⟩
    · rw [hj] at hp
      rcases hcases j' with ⟨rfl,hj'⟩ | ⟨hne',hj'⟩
      · rfl
      · rw [hj'] at hq
        exact absurd (List.mem_map_of_mem hq) (hsole k p hp j' hne')
    · rw [hj] at hp
      rcases hcases j' with ⟨rfl,hj'⟩ | ⟨hne',hj'⟩
      · rw [hj'] at hq
        exact absurd (List.mem_map_of_mem hp) (hsole k q hq j hne)
      · rw [hj'] at hq
        exact h.sole j j' k p q hp hq
  · rcases hcases j with ⟨rfl,hj⟩ | ⟨hne,hj⟩
    · rw [hj]
      exact hnodup
    · rw [hj]
      exact h.nodup j
  · rcases hcases j with ⟨rfl,hj⟩ | ⟨hne,hj⟩
    · simp [hkept]
    · rw [← hj]
      exact hnone j
  · rcases hcases j with ⟨rfl,hj⟩ | ⟨hne,hj⟩
    · rw [hj] at hp
      exact hheld k p hp
    · rw [hj] at hp
      exact h.held j k p hp

theorem Kept.idles (h : s.Kept) (hworker : worker.held = []) (hkept : (s.workers i).held = []) :
    (s.goOn i worker).Kept := by
  refine h.goOn ?_ ?_ ?_ hkept
  all_goals simp [hworker]

theorem Kept.step_processQueue (h : s.Kept) (i : ℕ) : (step (.processQueue i) s).Kept := by
  simp only [step]
  split
  case h_2 => exact h
  case h_1 hw => exact h.idles rfl (by rw [hw]; rfl)

theorem Kept.step_selected (h : s.Kept) (now : ℕ) (found : Bool)
    (ho : Orderly s (.selected i now found)) : (step (.selected i now found) s).Kept := by
  simp only [step]
  split
  case h_2 => exact h
  case h_1 hw =>
    have hkept : (s.workers i).held = [] := by rw [hw]; rfl
    cases hfound : found with
    | false => exact h.idles rfl hkept
    | true =>
      have hnew := ho hw hfound
      have hheld : ∀ k p, (k,p) ∈ (EmailWorker.processEmails (s.selectable now)).held →
          ∃ x ∈ s.selectable now, x.id = k ∧ .waiting x = p := by
        intro k p hk
        rw [held_processEmails] at hk
        obtain ⟨x,hx,hxk⟩ := List.mem_map.mp hk
        exact ⟨x,hx,congrArg Prod.fst hxk,congrArg Prod.snd hxk⟩
      refine h.goOn (fun k p hk j _ => ?_) ?_ (fun k p hk => ?_) hkept
      · obtain ⟨x,hx,rfl,-⟩ := hheld k p hk
        exact hnew x hx j
      · rw [if_pos rfl,held_processEmails,List.map_map]
        exact h.selectable_nodup now
      · obtain ⟨x,hx,rfl,rfl⟩ := hheld k p hk
        obtain ⟨k',hrow,hopen⟩ := mem_selectable hx
        obtain rfl := (h.known k' x hrow).1
        obtain ⟨hlt,hcount⟩ := (h.counted _ x hrow).retry hopen
        cases h.free _ x hrow (hnew x hx) with
        | free hstatus hsent =>
          refine ⟨x,hrow,.waiting ⟨rfl,hlt⟩ ?_ hstatus hcount⟩
          by_contra hs
          have hcompleted := hsent (by simpa using hs)
          simp [EmailStatus.Open,hcompleted] at hopen

theorem Kept.holder (h : s.Kept) (id : ℕ) :
    ∃ i, ∀ j ≠ i, id ∉ (s.workers j).held.map (·.1) := by
  by_cases hin : ∃ i, id ∈ (s.workers i).held.map (·.1)
  · obtain ⟨i,hi⟩ := hin
    obtain ⟨⟨k,p⟩,hp,rfl⟩ := List.mem_map.mp hi
    refine ⟨i,fun j hj hk => ?_⟩
    obtain ⟨⟨k',q⟩,hq,rfl⟩ := List.mem_map.mp hk
    exact hj (h.sole j i k' q p hq hp)
  · exact ⟨0,fun j _ hj => hin ⟨j,hj⟩⟩

/-- A replay leaves what an instance does with the e-mail in place. -/
theorem Fits.replay {sent : Bool} {attempts : ℕ} {place : EmailPlace}
    (h : Fits row sent attempts place) :
    Fits row.replay false 0 place := by
  cases h with
  | free hstatus hsent => exact .free nofun nofun
  | waiting hread hsent hstatus hcount => exact .waiting hread rfl nofun (Nat.zero_le _)
  | tried hread hsent hcount => exact .tried hread rfl (Nat.zero_le _)
  | delivered hread => exact .delivered hread

theorem Kept.step_replayEmail (h : s.Kept) (emailId : ℕ) :
    (step (.replayEmail emailId) s).Kept := by
  obtain ⟨i,hothers⟩ := h.holder emailId
  simp only [step]
  split
  case h_1 => exact h
  case h_2 row hrow =>
    have ha : Alters s { s with
        emails := Function.update s.emails emailId (some row.replay)
        sent := Function.update s.sent emailId false
        attempts := Function.update s.attempts emailId 0 } i emailId row.replay :=
      ⟨h.known emailId row hrow,Function.update_self ..,rfl,fun k hk => Function.update_of_ne hk _ _,
        fun k hk => Function.update_of_ne hk _ _,fun k hk => Function.update_of_ne hk _ _,
        fun j _ => rfl,h.resent⟩
    refine h.alters ha ?_ hothers (h.nodup i) ?_ ?_ ?_
    · have hpos := (h.counted emailId row hrow).positive
      simp only [Function.update_self]
      exact ⟨hpos,Nat.zero_le _,fun _ => ⟨hpos,le_rfl⟩⟩
    · intro k p hp
      split
      case isTrue hk =>
        subst hk
        obtain ⟨row',hrow',hfits⟩ := h.held i k p hp
        obtain rfl : row = row' := Option.some.inj (hrow.symm.trans hrow')
        simpa only [Function.update_self] using hfits.replay
      case isFalse => exact hp
    · intro _
      simp only [Function.update_self]
      exact .free (by simp [EmailQueueItem.replay]) (by simp)
    · intro k p hk hp hnone
      exact absurd (List.mem_map_of_mem hp) hnone

theorem Kept.step_enqueueEmail (h : s.Kept) (options : EmailOptions) (now : ℕ) :
    (step (.enqueueEmail options now) s).Kept := by
  have hold {k : ℕ} (hk : k ≠ s.nextEmail) :
      (step (.enqueueEmail options now) s).emails k = s.emails k := Function.update_of_ne hk _ _
  have hne {k : ℕ} {row : EmailQueueItem} (hk : s.emails k = some row) : k ≠ s.nextEmail :=
    (h.known k row hk).2.ne
  obtain ⟨hsent,hattempts⟩ := h.fresh s.nextEmail le_rfl
  have hnew : (step (.enqueueEmail options now) s).emails s.nextEmail =
      some ⟨s.nextEmail,options,.pending,0,5,none,none,now⟩ := Function.update_self ..
  refine ⟨fun k row hk => ?_,fun k hk => h.fresh k (Nat.le_of_succ_le hk),fun k row hk => ?_,h.sole,
    h.nodup,fun k row hk hnone => ?_,fun j k p hp => ?_,h.resent⟩
  · by_cases hkn : k = s.nextEmail
    · subst hkn
      obtain rfl := Option.some.inj (hnew.symm.trans hk)
      exact ⟨rfl,Nat.lt_succ_self _⟩
    · rw [hold hkn] at hk
      exact ⟨(h.known k row hk).1,Nat.lt_succ_of_lt (h.known k row hk).2⟩
  · by_cases hkn : k = s.nextEmail
    · subst hkn
      obtain rfl := Option.some.inj (hnew.symm.trans hk)
      rw [show (step (.enqueueEmail options now) s).attempts s.nextEmail = 0 from hattempts]
      exact ⟨by simp,by simp,by simp⟩
    · rw [hold hkn] at hk
      exact h.counted k row hk
  · by_cases hkn : k = s.nextEmail
    · subst hkn
      obtain rfl := Option.some.inj (hnew.symm.trans hk)
      refine .free (by simp) ?_
      rw [show (step (.enqueueEmail options now) s).sent s.nextEmail = false from hsent]
      simp
    · rw [hold hkn] at hk
      exact h.free k row hk hnone
  · obtain ⟨row,hk,hfits⟩ := h.held j k p hp
    exact ⟨row,(hold (hne hk)).trans hk,hfits⟩

theorem Kept.step (h : s.Kept) (e : EmailQueueEvent) (ho : Orderly s e) : (step e s).Kept := by
  cases e with
  | enqueueEmail options now => exact h.step_enqueueEmail options now
  | processQueue i => exact h.step_processQueue i
  | selected i now found => exact h.step_selected now found ho
  | marked i reply => exact h.step_marked reply
  | delivered i success => exact h.step_delivered success
  | completed i reply => exact h.step_completed reply ho
  | failed i now reply => exact h.step_failed now reply ho
  | replayEmail emailId => exact h.step_replayEmail emailId

end Steps

theorem kept_start : ({} : EmailQueue).Kept where
  known := by simp
  fresh := by simp
  counted := by simp
  sole := by simp [EmailWorker.held]
  nodup := by simp [EmailWorker.held]
  free := by simp
  held := by simp [EmailWorker.held]
  resent := rfl

/-- In every run in which instances select no e-mail that another one holds and no update is
lost that has to be made, an e-mail is sent at most once, at most as often as it may be tried,
and is never left marked as being processed. -/
theorem emails_sent_once (acts : List EmailQueueEvent) (h : Runs.Along step Orderly {} acts) :
    (Runs.run step acts {}).SentOnce :=
  (h.invariant (fun _ e hk ho => hk.step e ho) kept_start).sentOnce

section Mail

/-- One instance fails to send an e-mail, and a day later another one sends it. -/
def deliveredMail : List EmailQueueEvent :=
  [.enqueueEmail ⟨"alice@example.com","Deposit Confirmed","500 USDC","500 USDC"⟩ 0,.processQueue 0,
    .selected 0 0 true,.marked 0 .ok,.delivered 0 false,.failed 0 0 .ok,.processQueue 1,
    .selected 1 86400000 true,.marked 1 .ok,.delivered 1 true,.completed 1 .ok]

theorem deliveredMail_sent_once : Runs.Along step Orderly {} deliveredMail ∧
    (Runs.run step deliveredMail {}).attempts 0 = 2 ∧ (Runs.run step deliveredMail {}).SentOnce := by
  have hfirst : Orderly (Runs.run step (deliveredMail.take 2) {}) (.selected 0 0 true) := by
    intro _ _ x _ j
    match j with
    | 0 => exact List.not_mem_nil
    | j+1 => exact List.not_mem_nil
  have hsecond : Orderly (Runs.run step (deliveredMail.take 7) {}) (.selected 1 86400000 true) := by
    intro _ _ x _ j
    match j with
    | 0 => exact List.not_mem_nil
    | 1 => exact List.not_mem_nil
    | j+2 => exact List.not_mem_nil
  have horderly : Runs.Along step Orderly {} deliveredMail :=
    ⟨trivial,trivial,hfirst,trivial,trivial,fun _ _ _ _ h => absurd h (by decide),trivial,hsecond,
      trivial,trivial,fun _ _ _ => rfl,trivial⟩
  exact ⟨horderly,by decide,emails_sent_once deliveredMail horderly⟩

/-- An e-mail that one instance sends, where the updates behind the send fail. -/
def unrecordedMail (success : Bool) (updates : List EmailQueueEvent) : List EmailQueueEvent :=
  [.enqueueEmail ⟨"alice@example.com","Deposit Confirmed","500 USDC","500 USDC"⟩ 0,.processQueue 0,
    .selected 0 0 true,.marked 0 .ok,.delivered 0 success] ++ updates

/-- Two instances that read the same e-mail and fail to send it. -/
def sharedMail (now : ℕ) : List EmailQueueEvent :=
  [.processQueue 0,.processQueue 1,.selected 0 now true,.selected 1 now true,.marked 0 .ok,
    .marked 1 .ok,.delivered 0 false,.delivered 1 false,.failed 0 now .ok,.failed 1 now .ok]

/-- A success that is not recorded is sent again, two instances use up the retries twice, and
a failure that is not recorded leaves the e-mail marked for good. -/
theorem mail_sent_again :
    ¬ (∀ acts, (Runs.run step acts {}).resent = []) ∧
    ¬ (∀ acts id row, (Runs.run step acts {}).emails id = some row →
      (Runs.run step acts {}).attempts id ≤ row.maxRetries) ∧
    ¬ (∀ acts id row, (Runs.run step acts {}).emails id = some row → row.status = .processing →
      ∃ i phase email rest, (Runs.run step acts {}).workers i = .working phase email rest ∧
        email.id = id) := by
  refine ⟨fun h => ?_,fun h => ?_,fun h => ?_⟩
  · have hrun := h (unrecordedMail true [.completed 0 (.failed false "timeout"),.failed 0 0 .ok,
      .processQueue 0,.selected 0 2000 true,.marked 0 .ok])
    revert hrun
    decide
  · have hrun := h (unrecordedMail false [.failed 0 0 .ok] ++ sharedMail 10000 ++
      sharedMail 20000 ++ sharedMail 30000) 0 _ rfl
    revert hrun
    decide
  · obtain ⟨i,phase,email,rest,hw,-⟩ := h (unrecordedMail false
      [.failed 0 0 (.failed false "timeout"),.failed 0 0 (.failed false "timeout")]) 0 _ rfl rfl
    match i, hw with
    | 0, hw => exact nomatch hw
    | i+1, hw => exact nomatch hw

end Mail

end EmailQueue

end YieldVault.Backend
