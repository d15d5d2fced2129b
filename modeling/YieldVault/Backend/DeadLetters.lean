import YieldVault.Backend.WebhookEndpoints

/-! The life of a dead letter. A retry makes a new delivery and looks only at the outcome of
its first attempt; what comes of the later ones is not written to the dead letter. -/
namespace YieldVault.Backend

namespace WebhookServer

/-- The outcome of the last delivery of an event to its endpoint that has ended. -/
def lastOutcome (origin : ℕ) (s : WebhookServer) : Option Bool :=
  (s.outcomes.find? (·.1 = origin)).map (·.2)

/-- A call that retries the dead letter, or a delivery that it has made, is under way. -/
def Retrying (s : WebhookServer) (x : WebhookDeadLetter) : Prop :=
  (∃ c ∈ s.calls, c.entry = x.id) ∨
    ∃ id d, s.deliveries id = some d ∧ d.retried = some x.id ∧ d.status = .pending

/-- At most one live dead letter for each event and endpoint; its status says that it is being
retried or what has come of it; and no delivery makes too many attempts. -/
structure Lifecycle (config : WebhookConfig) (s : WebhookServer) : Prop where
  single : ∀ x ∈ s.deadLetters, ∀ y ∈ s.deadLetters, x.origin = y.origin →
    x.status ≠ .delivered → y.status ≠ .delivered → x = y
  requeued : ∀ x ∈ s.deadLetters, x.status = .requeued → s.Retrying x
  settled : ∀ x ∈ s.deadLetters, x.status ≠ .requeued → (∀ c ∈ s.calls, c.entry ≠ x.id) →
    s.lastOutcome x.origin = some (decide (x.status = .delivered))
  delivered : ∀ x ∈ s.deadLetters, s.lastOutcome x.origin = some true → ¬ s.Retrying x →
    x.status = .delivered
  attempts : ∀ id d, s.deliveries id = some d → d.attempts ≤ config.maxAttempts

/-- A delivery made by a retry ends only well and at its first attempt; and a retry that finds
no endpoint is one of an event that was not delivered last. -/
def AtFirstAttempt (config : WebhookConfig) (s : WebhookServer) : WebhookEvent → Prop
  | .answered id error => ∀ d ∈ s.deliveries id, d.phase = .fetching → d.retried.isSome = true →
    error = none ∧ d.attempts = 1 ∨ error.isSome = true ∧ d.attempts < config.maxAttempts
  | .retryDeadLetter id => ∀ x ∈ s.deadLetters, x.id = id → s.available x.endpointId = none →
    s.lastOutcome x.origin = some false
  | _ => True

structure DeliveryOk (config : WebhookConfig) (s : WebhookServer) (id : ℕ) (d : WebhookDelivery) :
    Prop where
  known : id < s.nextDelivery
  begun : 1 ≤ d.attempts
  attempts : d.attempts ≤ config.maxAttempts
  waiting : d.phase = .waiting → d.attempts < config.maxAttempts
  pending : d.status = .pending ↔ d.phase ≠ .finished
  first : d.retried = none → d.origin = id
  retried : ∀ k ∈ d.retried, (∃ x ∈ s.deadLetters, x.id = k ∧ x.origin = d.origin) ∧
    d.status ≠ .failed ∧ (d.status = .delivered → s.lastOutcome d.origin = some true) ∧
    (d.phase = .fetching → d.attempts = 1 → ⟨k,id⟩ ∈ s.calls)

structure EntryOk (s : WebhookServer) (x : WebhookDeadLetter) : Prop where
  known : x.id < s.nextDeadLetter
  ended : ∃ d, s.deliveries x.origin = some d ∧ d.retried = none ∧ d.status = .failed
  requeued : x.status = .requeued → s.Retrying x
  delivered : x.status = .delivered → s.lastOutcome x.origin = some true
  dead : x.status = .deadLetter → s.lastOutcome x.origin = some false ∨
    ∃ c ∈ s.calls, c.entry = x.id ∧ ∃ d, s.deliveries c.delivery = some d ∧ d.status = .delivered

structure Bookkept (config : WebhookConfig) (s : WebhookServer) : Prop where
  deliveries : ∀ id d, s.deliveries id = some d → DeliveryOk config s id d
  entries : ∀ x ∈ s.deadLetters, EntryOk s x
  origins : ∀ x ∈ s.deadLetters, ∀ y ∈ s.deadLetters, x.origin = y.origin → x = y
  ids : ∀ x ∈ s.deadLetters, ∀ y ∈ s.deadLetters, x.id = y.id → x = y
  calls : ∀ c ∈ s.calls, ∃ d, s.deliveries c.delivery = some d ∧ d.retried = some c.entry

variable {s : WebhookServer} {config : WebhookConfig} {id : ℕ}

theorem Bookkept.lifecycle (h : s.Bookkept config) : s.Lifecycle config := by
  refine ⟨fun x hx y hy hxy _ _ => h.origins x hx y hy hxy,fun x hx => (h.entries x hx).requeued,
    ?_,?_,fun id d hd => (h.deliveries id d hd).attempts⟩
  · intro x hx hne hcalls
    have hok := h.entries x hx
    cases hstatus : x.status with
    | requeued => exact absurd hstatus hne
    | delivered => rw [hok.delivered hstatus]; rfl
    | deadLetter =>
      rcases hok.dead hstatus with hlast | ⟨c,hc,hentry,-⟩
      · rw [hlast]; rfl
      · exact absurd hentry (hcalls c hc)
  · intro x hx hlast hidle
    have hok := h.entries x hx
    cases hstatus : x.status with
    | requeued => exact absurd (hok.requeued hstatus) hidle
    | delivered => rfl
    | deadLetter =>
      rcases hok.dead hstatus with hfailed | ⟨c,hc,hentry,-⟩
      · exact absurd (hlast.symm.trans hfailed) (by decide)
      · exact absurd (Or.inl ⟨c,hc,hentry⟩) hidle

section Frames

variable {t : WebhookServer} {d : WebhookDelivery} {x : WebhookDeadLetter}

def SameEntries (s t : WebhookServer) : Prop :=
  ∀ x ∈ s.deadLetters, ∃ y ∈ t.deadLetters, y.id = x.id ∧ y.origin = x.origin

theorem DeliveryOk.mono (h : DeliveryOk config s id d) (hnext : s.nextDelivery ≤ t.nextDelivery)
    (hentries : SameEntries s t)
    (hlast : d.retried.isSome = true → s.lastOutcome d.origin = some true →
      t.lastOutcome d.origin = some true)
    (hcalls : d.phase = .fetching → ∀ c ∈ s.calls, c.delivery = id → c ∈ t.calls) :
    DeliveryOk config t id d := by
  refine ⟨h.known.trans_le hnext,h.begun,h.attempts,h.waiting,h.pending,h.first,fun k hk => ?_⟩
  obtain ⟨⟨x,hx,hid,horigin⟩,hfailed,hdelivered,hcall⟩ := h.retried k hk
  obtain ⟨y,hy,hyid,hyorigin⟩ := hentries x hx
  exact ⟨⟨y,hy,hyid.trans hid,hyorigin.trans horigin⟩,hfailed,
    fun hd => hlast (Option.isSome_of_mem hk) (hdelivered hd),
    fun hf h1 => hcalls hf _ (hcall hf h1) rfl⟩

def KeepsEnded (s t : WebhookServer) : Prop :=
  ∀ id d, s.deliveries id = some d → d.status ≠ .pending → t.deliveries id = some d

theorem EntryOk.mono (h : EntryOk s x) (hnext : s.nextDeadLetter ≤ t.nextDeadLetter)
    (hended : KeepsEnded s t) (hretrying : s.Retrying x → t.Retrying x)
    (hlast : t.lastOutcome x.origin = s.lastOutcome x.origin)
    (hcalls : ∀ c ∈ s.calls, c.entry = x.id →
      (∃ d, s.deliveries c.delivery = some d ∧ d.status = .delivered) → c ∈ t.calls) :
    EntryOk t x := by
  obtain ⟨d,hd,hretried,hfailed⟩ := h.ended
  refine ⟨h.known.trans_le hnext,⟨d,hended _ d hd (by simp [hfailed]),hretried,hfailed⟩,
    fun hx => hretrying (h.requeued hx),fun hx => hlast.trans (h.delivered hx),fun hx => ?_⟩
  rcases h.dead hx with hl | ⟨c,hc,hentry,d,hd,hdelivered⟩
  · exact Or.inl (hlast.trans hl)
  · exact Or.inr ⟨c,hcalls c hc hentry ⟨d,hd,hdelivered⟩,hentry,d,
      hended _ d hd (by simp [hdelivered]),hdelivered⟩

structure SameDeliveries (s t : WebhookServer) : Prop where
  deliveries : t.deliveries = s.deliveries
  nextDelivery : t.nextDelivery = s.nextDelivery
  deadLetters : t.deadLetters = s.deadLetters
  nextDeadLetter : t.nextDeadLetter = s.nextDeadLetter
  calls : t.calls = s.calls
  outcomes : t.outcomes = s.outcomes

theorem Bookkept.same (h : s.Bookkept config) (hsame : SameDeliveries s t) :
    t.Bookkept config := by
  obtain ⟨h1,h2,h3,h4,h5,h6⟩ := hsame
  have hlast (origin : ℕ) : t.lastOutcome origin = s.lastOutcome origin := by
    unfold lastOutcome
    rw [h6]
  have hentries : SameEntries s t := fun x hx => ⟨x,by rwa [h3],rfl,rfl⟩
  refine ⟨fun id d hd => ?_,fun x hx => ?_,?_,?_,?_⟩
  · rw [h1] at hd
    refine (h.deliveries id d hd).mono h2.ge hentries (fun _ hl => (hlast _).trans hl) ?_
    intro _ c hc _
    rwa [h5]
  · rw [h3] at hx
    refine (h.entries x hx).mono h4.ge (fun id d hd _ => by rwa [h1]) ?_ (hlast _) ?_
    · unfold Retrying
      rw [h1,h5]
      exact fun hr => hr
    · intro c hc _ _
      rwa [h5]
  · rw [h3]
    exact h.origins
  · rw [h3]
    exact h.ids
  · rw [h1,h5]
    exact h.calls

end Frames

section Starts

variable {endpointId origin : ℕ} {endpoint : WebhookEndpoint} {eventType : TransactionEventType}
  {payload : String} {retried : Option ℕ} {d : WebhookDelivery}

theorem Bookkept.start_keeps (h : s.Bookkept config) (hd : s.deliveries id = some d) :
    (s.startDelivery endpointId endpoint eventType payload origin retried).deliveries id =
      some d := by
  have hne : id ≠ s.nextDelivery := (h.deliveries id d hd).known.ne
  simp [startDelivery,hne,hd]

theorem start_cases
    (hd : (s.startDelivery endpointId endpoint eventType payload origin retried).deliveries id =
      some d) :
    id = s.nextDelivery ∧ d = { endpointId,endpoint,eventType,payload,origin,retried } ∨
      s.deliveries id = some d := by
  by_cases hid : id = s.nextDelivery
  · subst hid
    exact Or.inl ⟨rfl,by simpa [startDelivery,eq_comm] using hd⟩
  · exact Or.inr (by simpa [startDelivery,hid] using hd)

theorem Bookkept.startDelivery (h : s.Bookkept config) (hmax : 1 ≤ config.maxAttempts) :
    (s.startDelivery endpointId endpoint eventType payload s.nextDelivery none).Bookkept
      config := by
  refine ⟨fun id d hd => ?_,fun x hx => ?_,h.origins,h.ids,fun c hc => ?_⟩
  · rcases start_cases hd with ⟨rfl,rfl⟩ | hd
    · exact ⟨Nat.lt_succ_self _,le_rfl,hmax,by simp,by simp,fun _ => rfl,by simp⟩
    · exact (h.deliveries id d hd).mono (Nat.le_succ _) (fun x hx => ⟨x,hx,rfl,rfl⟩)
        (fun _ hl => hl) fun _ c hc _ => hc
  · refine (h.entries x hx).mono le_rfl (fun id d hd _ => h.start_keeps hd) ?_ rfl
      fun c hc _ _ => hc
    rintro (hcall | ⟨id,d,hd,hpending⟩)
    · exact Or.inl hcall
    · exact Or.inr ⟨id,d,h.start_keeps hd,hpending⟩
  · obtain ⟨d,hd,hretried⟩ := h.calls c hc
    exact ⟨d,h.start_keeps hd,hretried⟩

theorem Bookkept.startAll {targets : List (ℕ × WebhookEndpoint)} (h : s.Bookkept config)
    (hmax : 1 ≤ config.maxAttempts) : (s.startAll eventType payload targets).Bookkept config := by
  induction targets generalizing s with
  | nil => exact h
  | cons x rest ih => exact ih (h.startDelivery hmax)

end Starts

section Answers

variable {t : WebhookServer} {d d' : WebhookDelivery}

theorem setDelivery_cases {other : ℕ} {a : WebhookDelivery}
    (ha : (s.setDelivery id d').deliveries other = some a) :
    other = id ∧ a = d' ∨ other ≠ id ∧ s.deliveries other = some a := by
  by_cases hid : other = id
  · subst hid
    exact Or.inl ⟨rfl,by simpa [setDelivery,eq_comm] using ha⟩
  · exact Or.inr ⟨hid,by simpa [setDelivery,hid] using ha⟩

/-- A change of a pending delivery leaves alone those that have ended. -/
theorem setDelivery_keepsEnded (hd : s.deliveries id = some d) (hpending : d.status = .pending) :
    KeepsEnded s (s.setDelivery id d') := by
  intro other a ha hended
  have hne : other ≠ id := by
    rintro rfl
    obtain rfl : a = d := Option.some.inj (ha.symm.trans hd)
    exact hended hpending
  simp [setDelivery,hne,ha]

theorem Bookkept.setDelivery_calls (h : s.Bookkept config) (hd : s.deliveries id = some d)
    (hretried : d'.retried = d.retried) {c : RetryCall} (hc : c ∈ s.calls) :
    ∃ a, (s.setDelivery id d').deliveries c.delivery = some a ∧ a.retried = some c.entry := by
  obtain ⟨a,ha,hcall⟩ := h.calls c hc
  by_cases hid : c.delivery = id
  · rw [hid] at ha ⊢
    obtain rfl : a = d := Option.some.inj (ha.symm.trans hd)
    exact ⟨d',by simp [setDelivery],hretried.trans hcall⟩
  · exact ⟨a,by simp [setDelivery,hid,ha],hcall⟩

theorem Bookkept.pending (h : s.Bookkept config) (hd : s.deliveries id = some d)
    (hpending : d.status = .pending) (hstatus : d'.status = .pending)
    (hretried : d'.retried = d.retried) (horigin : d'.origin = d.origin)
    (hbegun : 1 ≤ d'.attempts) (hattempts : d'.attempts ≤ config.maxAttempts)
    (hwaiting : d'.phase = .waiting → d'.attempts < config.maxAttempts)
    (hphase : d'.phase ≠ .finished) (hlater : d'.phase = .fetching → d'.attempts ≠ 1) :
    (s.setDelivery id d').Bookkept config := by
  have hok := h.deliveries id d hd
  refine ⟨fun other a ha => ?_,fun x hx => ?_,h.origins,h.ids,
    fun c hc => h.setDelivery_calls hd hretried hc⟩
  · rcases setDelivery_cases ha with ⟨rfl,rfl⟩ | ⟨-,ha⟩
    · refine ⟨hok.known,hbegun,hattempts,hwaiting,by simp [hstatus,hphase],fun hnone => ?_,
        fun k hk => ?_⟩
      · exact horigin.trans (hok.first (hretried.symm.trans hnone))
      · rw [hretried] at hk
        obtain ⟨hx,-,-,-⟩ := hok.retried k hk
        rw [horigin]
        exact ⟨hx,by simp [hstatus],by simp [hstatus],fun hf h1 => absurd h1 (hlater hf)⟩
    · exact (h.deliveries other a ha).mono le_rfl (fun x hx => ⟨x,hx,rfl,rfl⟩)
        (fun _ hl => hl) fun _ c hc _ => hc
  · refine (h.entries x hx).mono le_rfl (setDelivery_keepsEnded hd hpending) ?_ rfl
      fun c hc _ _ => hc
    rintro (hcall | ⟨other,a,ha,hmade,hopen⟩)
    · exact Or.inl hcall
    · right
      by_cases hid : other = id
      · subst hid
        obtain rfl : a = d := Option.some.inj (ha.symm.trans hd)
        exact ⟨other,d',by simp [setDelivery],hretried.trans hmade,hstatus⟩
      · exact ⟨other,a,by simp [setDelivery,hid,ha],hmade,hopen⟩

theorem lastOutcome_cons {origin : ℕ} {outcome : Bool}
    (ht : t.outcomes = (origin,outcome)::s.outcomes) (other : ℕ) :
    t.lastOutcome other = if origin = other then some outcome else s.lastOutcome other := by
  unfold lastOutcome
  rw [ht,List.find?_cons]
  by_cases h : origin = other <;> simp [h]

theorem Bookkept.retrying_other (h : s.Bookkept config) (hd : s.deliveries id = some d)
    {x : WebhookDeadLetter} (hx : x ∈ s.deadLetters) (hne : x.origin ≠ d.origin)
    (hr : s.Retrying x) (hcalls : t.calls = s.calls)
    (hdeliveries : t.deliveries = (s.setDelivery id d').deliveries) : t.Retrying x := by
  rcases hr with ⟨c,hc,hentry⟩ | ⟨other,a,ha,hmade,hopen⟩
  · exact Or.inl ⟨c,by rwa [hcalls],hentry⟩
  · refine Or.inr ⟨other,a,?_,hmade,hopen⟩
    have hid : other ≠ id := by
      rintro rfl
      obtain rfl : a = d := Option.some.inj (ha.symm.trans hd)
      obtain ⟨⟨y,hy,hyid,hyorigin⟩,-⟩ := (h.deliveries other a ha).retried _ hmade
      rw [h.ids y hy x hx hyid] at hyorigin
      exact hne hyorigin
    rw [hdeliveries]
    simp [WebhookServer.setDelivery,hid,ha]

/-- The event of a delivery that is open has a dead letter only if a retry made the delivery. -/
theorem Bookkept.entry_of_open (h : s.Bookkept config) (hd : s.deliveries id = some d)
    (hpending : d.status = .pending) {x : WebhookDeadLetter} (hx : x ∈ s.deadLetters)
    (horigin : x.origin = d.origin) : d.retried = some x.id := by
  cases hretried : d.retried with
  | none =>
    have hid := (h.deliveries id d hd).first hretried
    obtain ⟨a,ha,-,hfailed⟩ := (h.entries x hx).ended
    rw [horigin,hid] at ha
    obtain rfl : a = d := Option.some.inj (ha.symm.trans hd)
    exact absurd (hpending.symm.trans hfailed) (by decide)
  | some k =>
    obtain ⟨⟨y,hy,hyid,hyorigin⟩,-⟩ := (h.deliveries id d hd).retried k hretried
    rw [← h.origins y hy x hx (hyorigin.trans horigin.symm),hyid]

theorem Bookkept.success (h : s.Bookkept config) (hd : s.deliveries id = some d)
    (ht : t = { s.setDelivery id d' with outcomes := (d.origin,true)::s.outcomes })
    (hphase : d.phase = .fetching) (hfirst : d.retried.isSome = true → d.attempts = 1)
    (hdelivered : d'.status = .delivered) (hfinished : d'.phase = .finished)
    (hattempts : d'.attempts = d.attempts) (horigin : d'.origin = d.origin)
    (hretried : d'.retried = d.retried) : t.Bookkept config := by
  have hok := h.deliveries id d hd
  have hpending : d.status = .pending := hok.pending.mpr (by simp [hphase])
  have hlast := lastOutcome_cons (s := s) (t := t) (by rw [ht])
  subst ht
  refine ⟨fun other a ha => ?_,fun x hx => ?_,h.origins,h.ids,
    fun c hc => h.setDelivery_calls hd hretried hc⟩
  · rcases setDelivery_cases ha with ⟨rfl,rfl⟩ | ⟨-,ha⟩
    · refine ⟨hok.known,hattempts ▸ hok.begun,hattempts ▸ hok.attempts,by simp [hfinished],
        by simp [hdelivered,hfinished],fun hnone => ?_,fun k hk => ?_⟩
      · exact horigin.trans (hok.first (hretried.symm.trans hnone))
      · rw [hretried] at hk
        obtain ⟨hx,-,-,-⟩ := hok.retried k hk
        rw [horigin,hlast,if_pos rfl]
        exact ⟨hx,by simp [hdelivered],fun _ => rfl,by simp [hfinished]⟩
    · refine (h.deliveries other a ha).mono le_rfl (fun x hx => ⟨x,hx,rfl,rfl⟩) (fun _ hl => ?_)
        fun _ c hc _ => hc
      rw [hlast,hl,ite_self]
  · have hxok := h.entries x hx
    by_cases hsame : x.origin = d.origin
    · -- the delivery was made by a call that retries this dead letter and waits for it
      have hmade := h.entry_of_open hd hpending hx hsame
      obtain ⟨-,-,-,hcall⟩ := hok.retried x.id hmade
      have hin := hcall hphase (hfirst (by simp [hmade]))
      obtain ⟨a,ha,hnone,hfailed⟩ := hxok.ended
      refine ⟨hxok.known,⟨a,setDelivery_keepsEnded hd hpending _ a ha (by simp [hfailed]),hnone,
        hfailed⟩,fun _ => Or.inl ⟨_,hin,rfl⟩,fun _ => ?_,
        fun _ => Or.inr ⟨_,hin,rfl,d',by simp [WebhookServer.setDelivery],hdelivered⟩⟩
      rw [hlast,if_pos hsame.symm]
    · refine hxok.mono le_rfl (setDelivery_keepsEnded hd hpending)
        (fun hr => h.retrying_other hd hx hsame hr rfl rfl) ?_ fun c hc _ _ => hc
      rw [hlast,if_neg (Ne.symm hsame)]

theorem Bookkept.failure (h : s.Bookkept config) (hd : s.deliveries id = some d)
    {new : WebhookDeadLetter}
    (ht : t = { s.setDelivery id d' with
      outcomes := (d.origin,false)::s.outcomes
      deadLetters := new::s.deadLetters
      nextDeadLetter := s.nextDeadLetter+1 })
    (hphase : d.phase = .fetching) (hnone : d.retried = none)
    (hfailed : d'.status = .failed) (hfinished : d'.phase = .finished)
    (hattempts : d'.attempts = d.attempts) (horigin : d'.origin = d.origin)
    (hretried : d'.retried = d.retried) (hid : new.id = s.nextDeadLetter)
    (hneworigin : new.origin = d.origin) (hnewstatus : new.status = .deadLetter) :
    t.Bookkept config := by
  have hok := h.deliveries id d hd
  have hpending : d.status = .pending := hok.pending.mpr (by simp [hphase])
  have hother : ∀ x ∈ s.deadLetters, x.origin ≠ d.origin := by
    intro x hx hsame
    exact absurd (hnone.symm.trans (h.entry_of_open hd hpending hx hsame)) (by simp)
  have hlast := lastOutcome_cons (s := s) (t := t) (by rw [ht])
  subst ht
  refine ⟨fun other a ha => ?_,fun x hx => ?_,fun x hx y hy hxy => ?_,fun x hx y hy hxy => ?_,
    fun c hc => h.setDelivery_calls hd hretried hc⟩
  · rcases setDelivery_cases ha with ⟨rfl,rfl⟩ | ⟨-,ha⟩
    · refine ⟨hok.known,hattempts ▸ hok.begun,hattempts ▸ hok.attempts,by simp [hfinished],
        by simp [hfailed,hfinished],fun _ => horigin.trans (hok.first hnone),fun k hk => ?_⟩
      rw [hretried,hnone] at hk
      exact nomatch hk
    · refine (h.deliveries other a ha).mono le_rfl
        (fun x hx => ⟨x,List.mem_cons_of_mem _ hx,rfl,rfl⟩) (fun hsome hl => ?_)
        fun _ c hc _ => hc
      obtain ⟨k,hk⟩ := Option.isSome_iff_exists.mp hsome
      obtain ⟨⟨x,hx,-,hxorigin⟩,-⟩ := (h.deliveries other a ha).retried k hk
      rw [hlast,if_neg (hxorigin ▸ (hother x hx).symm),hl]
  · rcases List.mem_cons.mp hx with rfl | hx
    · refine ⟨hid ▸ Nat.lt_succ_self _,⟨d',?_,hretried.trans hnone,hfailed⟩,by simp [hnewstatus],
        by simp [hnewstatus],fun _ => Or.inl ?_⟩
      · rw [hneworigin,hok.first hnone]
        simp [WebhookServer.setDelivery]
      · rw [hlast,if_pos hneworigin.symm]
    · refine (h.entries x hx).mono (Nat.le_succ _) (setDelivery_keepsEnded hd hpending)
        (fun hr => h.retrying_other hd hx (hother x hx) hr rfl rfl) ?_ fun c hc _ _ => hc
      rw [hlast,if_neg (hother x hx).symm]
  · rcases List.mem_cons.mp hx with rfl | hx' <;> rcases List.mem_cons.mp hy with rfl | hy'
    · rfl
    · exact absurd (hxy.symm.trans hneworigin) (hother y hy')
    · exact absurd (hxy.trans hneworigin) (hother x hx')
    · exact h.origins x hx' y hy' hxy
  · rcases List.mem_cons.mp hx with rfl | hx' <;> rcases List.mem_cons.mp hy with rfl | hy'
    · rfl
    · exact absurd (hxy.symm.trans hid) (h.entries y hy').known.ne
    · exact absurd (hxy.trans hid) (h.entries x hx').known.ne
    · exact h.ids x hx' y hy' hxy

end Answers

section Retries

variable {t : WebhookServer} {change : WebhookDeadLetter → WebhookDeadLetter} {d : WebhookDelivery}

theorem mem_modifyDeadLetter {y : WebhookDeadLetter} :
    y ∈ (s.modifyDeadLetter id change).deadLetters ↔
      ∃ x ∈ s.deadLetters, (if x.id = id then change x else x) = y := List.mem_map

def KeepsIdentity (change : WebhookDeadLetter → WebhookDeadLetter) : Prop :=
  ∀ x, (change x).id = x.id ∧ (change x).origin = x.origin

theorem KeepsIdentity.ite (h : KeepsIdentity change) (x : WebhookDeadLetter) :
    (if x.id = id then change x else x).id = x.id ∧
      (if x.id = id then change x else x).origin = x.origin := by
  split_ifs
  · exact h x
  · exact ⟨rfl,rfl⟩

theorem modify_sameEntries (hchange : KeepsIdentity change) :
    SameEntries s (s.modifyDeadLetter id change) :=
  fun x hx => ⟨_,mem_modifyDeadLetter.mpr ⟨x,hx,rfl⟩,hchange.ite x⟩

/-- A changed dead letter and the calls that wait: what has to be shown for the dead letter
that is changed, and for those that are not. -/
theorem Bookkept.modify (h : s.Bookkept config) (hchange : KeepsIdentity change)
    (hletters : t.deadLetters = (s.modifyDeadLetter id change).deadLetters)
    (hdeliveries : ∀ i d, t.deliveries i = some d → DeliveryOk config t i d)
    (hentry : ∀ x ∈ s.deadLetters, x.id = id → EntryOk t (change x))
    (hothers : ∀ x ∈ s.deadLetters, x.id ≠ id → EntryOk t x)
    (hcalls : ∀ c ∈ t.calls, ∃ d, t.deliveries c.delivery = some d ∧ d.retried = some c.entry) :
    t.Bookkept config := by
  refine ⟨hdeliveries,fun y hy => ?_,fun y hy z hz hyz => ?_,fun y hy z hz hyz => ?_,hcalls⟩
  · rw [hletters] at hy
    obtain ⟨x,hx,rfl⟩ := mem_modifyDeadLetter.mp hy
    split_ifs with hid
    · exact hentry x hx hid
    · exact hothers x hx hid
  · rw [hletters] at hy hz
    obtain ⟨x,hx,rfl⟩ := mem_modifyDeadLetter.mp hy
    obtain ⟨x',hx',rfl⟩ := mem_modifyDeadLetter.mp hz
    rw [(hchange.ite x).2,(hchange.ite x').2] at hyz
    rw [h.origins x hx x' hx' hyz]
  · rw [hletters] at hy hz
    obtain ⟨x,hx,rfl⟩ := mem_modifyDeadLetter.mp hy
    obtain ⟨x',hx',rfl⟩ := mem_modifyDeadLetter.mp hz
    rw [(hchange.ite x).1,(hchange.ite x').1] at hyz
    rw [h.ids x hx x' hx' hyz]

theorem Bookkept.endpointGone (h : s.Bookkept config)
    (hlast : ∀ x ∈ s.deadLetters, x.id = id → s.lastOutcome x.origin = some false)
    (hchange : KeepsIdentity change) (hstatus : ∀ x, (change x).status = .deadLetter) :
    (s.modifyDeadLetter id change).Bookkept config := by
  refine h.modify hchange rfl (fun i d hd => ?_) (fun x hx hid => ?_) (fun x hx _ => ?_) h.calls
  · exact (h.deliveries i d hd).mono le_rfl (modify_sameEntries hchange) (fun _ hl => hl)
      fun _ c hc _ => hc
  · obtain ⟨d,hd,hnone,hfailed⟩ := (h.entries x hx).ended
    obtain ⟨hsameid,hsameorigin⟩ := hchange x
    refine ⟨hsameid ▸ (h.entries x hx).known,⟨d,by rwa [hsameorigin],hnone,hfailed⟩,
      by simp [hstatus],by simp [hstatus],fun _ => Or.inl ?_⟩
    rw [hsameorigin]
    exact hlast x hx hid
  · exact (h.entries x hx).mono le_rfl (fun _ _ hd _ => hd) (fun hr => hr) rfl
      fun c hc _ _ => hc

theorem Bookkept.requeue (h : s.Bookkept config) (hmax : 1 ≤ config.maxAttempts)
    {entry : WebhookDeadLetter} (hentry : entry ∈ s.deadLetters) (hid : entry.id = id)
    {endpointId : ℕ} {endpoint : WebhookEndpoint} {eventType : TransactionEventType}
    {payload : String}
    (ht : t = { (s.modifyDeadLetter id change).startDelivery endpointId endpoint eventType payload
      entry.origin (some id) with calls := s.calls ++ [⟨id,s.nextDelivery⟩] })
    (hchange : KeepsIdentity change) (hstatus : ∀ x, (change x).status = .requeued) :
    t.Bookkept config := by
  have hkeeps {i : ℕ} {d : WebhookDelivery} (hd : s.deliveries i = some d) :
      t.deliveries i = some d := by
    rw [ht]
    exact h.start_keeps hd
  have hin : ⟨id,s.nextDelivery⟩ ∈ t.calls := by simp [ht]
  have hcalls : ∀ c ∈ s.calls, c ∈ t.calls := by
    intro c hc
    rw [ht]
    exact List.mem_append_left _ hc
  have hnew : t.deliveries s.nextDelivery =
      some { endpointId,endpoint,eventType,payload,origin := entry.origin,retried := some id } := by
    simp [ht,WebhookServer.startDelivery,modifyDeadLetter]
  have hsame : SameEntries s t := by
    rw [ht]
    exact modify_sameEntries hchange
  have hnext : t.nextDelivery = s.nextDelivery+1 := by rw [ht]; rfl
  have hnextLetter : t.nextDeadLetter = s.nextDeadLetter := by rw [ht]; rfl
  have hlast (origin : ℕ) : t.lastOutcome origin = s.lastOutcome origin := by rw [ht]; rfl
  refine h.modify hchange (by rw [ht]; rfl) (fun i d hd => ?_) (fun x hx hxid => ?_)
    (fun x hx _ => ?_) (fun c hc => ?_)
  · rw [ht] at hd
    rcases start_cases hd with ⟨rfl,rfl⟩ | hd
    · refine ⟨hnext ▸ Nat.lt_succ_self _,le_rfl,hmax,by simp,by simp,by simp,fun k hk => ?_⟩
      obtain rfl : id = k := Option.some.inj hk
      obtain ⟨y,hy,hyid,hyorigin⟩ := hsame entry hentry
      exact ⟨⟨y,hy,hyid.trans hid,hyorigin⟩,by simp,by simp,fun _ _ => hin⟩
    · exact (h.deliveries i d hd).mono (hnext ▸ Nat.le_succ _) hsame
        (fun _ hl => (hlast _).trans hl) fun _ c hc _ => hcalls c hc
  · obtain ⟨d,hd,hnone,hfailed⟩ := (h.entries x hx).ended
    obtain ⟨hsameid,hsameorigin⟩ := hchange x
    refine ⟨?_,⟨d,hsameorigin ▸ hkeeps hd,hnone,hfailed⟩,fun _ => Or.inl ⟨_,hin,?_⟩,
      by simp [hstatus],by simp [hstatus]⟩
    · rw [hsameid,hnextLetter]
      exact (h.entries x hx).known
    · exact (hsameid.trans hxid).symm
  · refine (h.entries x hx).mono hnextLetter.ge (fun _ _ hd _ => hkeeps hd) ?_ (hlast _)
      fun c hc _ _ => hcalls c hc
    rintro (⟨c,hc,hcall⟩ | ⟨i,d,hd,hmade⟩)
    · exact Or.inl ⟨c,hcalls c hc,hcall⟩
    · exact Or.inr ⟨i,d,hkeeps hd,hmade⟩
  · rw [ht] at hc
    rcases List.mem_append.mp hc with hc | hc
    · obtain ⟨d,hd,hmade⟩ := h.calls c hc
      exact ⟨d,hkeeps hd,hmade⟩
    · obtain rfl := List.mem_singleton.mp hc
      exact ⟨_,hnew,rfl⟩

theorem mem_erase_call {c call : RetryCall} (hc : c ∈ s.calls) (hne : c ≠ call) :
    c ∈ s.calls.erase call := (List.mem_erase_of_ne hne).mpr hc

theorem Bookkept.erase_delivery (h : s.Bookkept config) {call : RetryCall}
    (hd : s.deliveries call.delivery = some d) (hphase : d.phase ≠ .fetching)
    (hdeliveries : t.deliveries = s.deliveries) (hnext : t.nextDelivery = s.nextDelivery)
    (hentries : SameEntries s t) (houtcomes : t.outcomes = s.outcomes)
    (hcalls : t.calls = s.calls.erase call) {i : ℕ} {a : WebhookDelivery}
    (ha : t.deliveries i = some a) : DeliveryOk config t i a := by
  rw [hdeliveries] at ha
  refine (h.deliveries i a ha).mono hnext.ge hentries (fun _ hl => ?_) fun hfetching c hc hci => ?_
  · unfold lastOutcome at hl ⊢
    rwa [houtcomes]
  · rw [hcalls]
    refine mem_erase_call hc ?_
    rintro rfl
    rw [hci] at hd
    obtain rfl : a = d := Option.some.inj (ha.symm.trans hd)
    exact hphase hfetching

/-- A call goes on after the first attempt of its delivery. -/
theorem Bookkept.resumed (h : s.Bookkept config) (call : RetryCall) :
    (s.resumed call).Bookkept config := by
  unfold WebhookServer.resumed
  split
  next d hd =>
    by_cases hgo : call ∈ s.calls ∧ d.phase ≠ .fetching
    · rw [if_pos hgo]
      obtain ⟨hcall,hphase⟩ := hgo
      obtain ⟨a,ha,hmade⟩ := h.calls call hcall
      obtain rfl : a = d := Option.some.inj (ha.symm.trans hd)
      obtain ⟨⟨x₀,hx₀,hx₀id,hx₀origin⟩,hnotFailed,hdelivered,-⟩ :=
        (h.deliveries _ a hd).retried _ hmade
      have hcalls (c : RetryCall) (hc : c ∈ s.calls.erase call) :
          ∃ d, s.deliveries c.delivery = some d ∧ d.retried = some c.entry :=
        h.calls c (List.mem_of_mem_erase hc)
      cases hstatus : a.status with
      | failed => exact absurd hstatus hnotFailed
      | delivered =>
        have hchange : KeepsIdentity fun x : WebhookDeadLetter =>
          { x with status := .delivered } := fun _ => ⟨rfl,rfl⟩
        have hfinish : s.finishRetry call a =
            s.modifyDeadLetter call.entry fun x => { x with status := .delivered } := by
          rw [finishRetry,hstatus]
        rw [hfinish]
        refine h.modify hchange rfl (fun i b hb => ?_) (fun x hx hid => ?_) (fun x hx hid => ?_)
          hcalls
        · apply h.erase_delivery hd hphase
          exacts [rfl,rfl,modify_sameEntries hchange,rfl,rfl,hb]
        · obtain ⟨b,hb,hnone,hfailed⟩ := (h.entries x hx).ended
          refine ⟨(h.entries x hx).known,⟨b,hb,hnone,hfailed⟩,by simp,fun _ => ?_,by simp⟩
          rw [h.ids x₀ hx₀ x hx (hx₀id.trans hid.symm)] at hx₀origin
          exact (congrArg s.lastOutcome hx₀origin).trans (hdelivered hstatus)
        · refine (h.entries x hx).mono le_rfl (fun _ _ hd _ => hd) ?_ rfl fun c hc hentry _ =>
            mem_erase_call hc fun heq => hid (hentry.symm.trans (congrArg _ heq))
          rintro (⟨c,hc,hentry⟩ | hr)
          · exact Or.inl ⟨c,mem_erase_call hc fun heq =>
              hid (hentry.symm.trans (congrArg _ heq)),hentry⟩
          · exact Or.inr hr
      | pending =>
        have hfinish : s.finishRetry call a = s := by rw [finishRetry,hstatus]
        rw [hfinish]
        refine ⟨fun i b hb => ?_,fun x hx => ?_,h.origins,h.ids,hcalls⟩
        · apply h.erase_delivery hd hphase
          exacts [rfl,rfl,fun x hx => ⟨x,hx,rfl,rfl⟩,rfl,rfl,hb]
        refine (h.entries x hx).mono le_rfl (fun _ _ hd _ => hd) ?_ rfl ?_
        · rintro (⟨c,hc,hentry⟩ | hr)
          · by_cases hsame : c = call
            · subst hsame
              exact Or.inr ⟨_,a,hd,hentry ▸ hmade,hstatus⟩
            · exact Or.inl ⟨c,mem_erase_call hc hsame,hentry⟩
          · exact Or.inr hr
        · rintro c hc - ⟨b,hb,hbstatus⟩
          refine mem_erase_call hc ?_
          rintro rfl
          obtain rfl : b = a := Option.some.inj (hb.symm.trans hd)
          exact absurd (hstatus.symm.trans hbstatus) (by decide)
    · rw [if_neg hgo]
      exact h
  next => exact h

end Retries

section Steps

theorem verify_sameDeliveries (id now : ℕ) : SameDeliveries s (s.verifyWebhookEndpoint id now) := by
  unfold verifyWebhookEndpoint
  split
  next => split_ifs <;> exact ⟨rfl,rfl,rfl,rfl,rfl,rfl⟩
  next => exact ⟨rfl,rfl,rfl,rfl,rfl,rfl⟩

theorem register_sameDeliveries (input : RegisterWebhookInput) (challengeToken : String)
    (now : ℕ) : SameDeliveries s (s.registerWebhookEndpoint config input challengeToken now) := by
  unfold registerWebhookEndpoint
  split_ifs
  · obtain ⟨h1,h2,h3,h4,h5,h6⟩ := verify_sameDeliveries (s := _) s.nextEndpoint now
    exact ⟨h1,h2,h3,h4,h5,h6⟩
  · exact ⟨rfl,rfl,rfl,rfl,rfl,rfl⟩

theorem Bookkept.answered {error : Option String} (h : s.Bookkept config)
    (hfirst : s.AtFirstAttempt config (.answered id error)) :
    (s.answered config id error).Bookkept config := by
  unfold WebhookServer.answered
  split
  next d hd =>
    by_cases hphase : d.phase = .fetching
    · rw [if_pos hphase]
      have hok := h.deliveries id d hd
      have hpending : d.status = .pending := hok.pending.mpr (by simp [hphase])
      have hfirst := hfirst d hd hphase
      cases error with
      | none =>
        refine h.success hd rfl hphase (fun hsome => ?_) rfl rfl rfl rfl rfl
        rcases hfirst hsome with ⟨-,h1⟩ | ⟨h1,-⟩
        · exact h1
        · exact absurd h1 (by decide)
      | some message =>
        unfold deliverWithRetry
        dsimp only
        split_ifs with hmore
        · exact h.pending hd hpending hpending rfl rfl hok.begun hok.attempts (fun _ => hmore)
            (by simp) (by simp)
        · have hnone : d.retried = none := by
            by_contra hne
            rcases hfirst (Option.isSome_iff_ne_none.mpr hne) with ⟨h1,-⟩ | ⟨-,h1⟩
            · exact nomatch h1
            · exact hmore h1
          exact h.failure hd rfl hphase hnone rfl rfl rfl rfl rfl rfl rfl rfl
    · rw [if_neg hphase]
      exact h
  next => exact h

theorem Bookkept.retryTimer (h : s.Bookkept config) : (s.retryTimer id).Bookkept config := by
  unfold WebhookServer.retryTimer
  split
  next d hd =>
    split_ifs with hgo
    · have hok := h.deliveries id d hd
      have hpending : d.status = .pending := hok.pending.mpr (by simp [hgo.1])
      have hbegun := hok.begun
      exact h.pending hd hpending hpending rfl rfl (Nat.le_add_left _ _) (hok.waiting hgo.1)
        (by simp) (by simp) fun _ => by dsimp only; omega
    · exact h
  next => exact h

theorem Bookkept.retryDeadLetter (h : s.Bookkept config) (hmax : 1 ≤ config.maxAttempts)
    (hfirst : s.AtFirstAttempt config (.retryDeadLetter id)) :
    (s.retryWebhookDeadLetter id).Bookkept config := by
  unfold retryWebhookDeadLetter
  split
  next entry hfind =>
    have hentry : entry ∈ s.deadLetters := List.mem_of_find?_eq_some hfind
    have hid : entry.id = id := by simpa using List.find?_some hfind
    split
    next endpoint _ =>
      exact h.requeue hmax hentry hid rfl (fun _ => ⟨rfl,rfl⟩) fun _ => rfl
    next hgone =>
      refine h.endpointGone (fun x hx hxid => ?_) (fun _ => ⟨rfl,rfl⟩) fun _ => rfl
      rw [h.ids x hx entry hentry (hxid.trans hid.symm)]
      exact hfirst entry hentry hid hgone
  next => exact h

theorem step_bookkept (hmax : 1 ≤ config.maxAttempts) (s : WebhookServer) (e : WebhookEvent)
    (h : s.Bookkept config) (he : s.AtFirstAttempt config e) : (s.step config e).Bookkept config := by
  cases e with
  | register input challengeToken now => exact h.same (register_sameDeliveries input _ now)
  | verify id now => exact h.same (verify_sameDeliveries id now)
  | emit eventType payload => exact h.startAll hmax
  | answered delivery error => exact h.answered he
  | retryTimer delivery => exact h.retryTimer
  | retryDeadLetter id => exact h.retryDeadLetter hmax he
  | resumed call => exact h.resumed call
  | probed probe answer now =>
    unfold step
    dsimp only
    split
    next => exact h.same ⟨rfl,rfl,rfl,rfl,rfl,rfl⟩
    next => exact h
  | _ =>
    unfold step
    dsimp only [updateWebhookEndpoint,deleteWebhookEndpoint,restoreWebhookEndpoint]
    split
    next => split_ifs <;> first | exact h | exact h.same ⟨rfl,rfl,rfl,rfl,rfl,rfl⟩
    next => exact h

/-- In every run in which deliveries made by retries end only well and at their first attempt,
and no retry of a delivered event finds its endpoint gone: each event has at most one live dead
letter for each endpoint, which is requeued only while it is being retried and else says how
the last delivery ended, and no delivery makes more attempts than are configured. -/
theorem deadLetters_lifecycle {events : List WebhookEvent} (hmax : 1 ≤ config.maxAttempts)
    (h : Runs.Along (step config) (AtFirstAttempt config) {} events) :
    (Runs.run (step config) events {}).Lifecycle config := by
  have hstart : Bookkept config {} := ⟨by simp,by simp,by simp,by simp,by simp⟩
  exact (h.invariant (step_bookkept hmax) hstart).lifecycle

end Steps

section Runs

def failedDelivery : List WebhookEvent :=
  [.register ⟨"https://shop.example",none,none,none⟩ "token" 0,.probed 0 .matched 1,
    .emit .depositCreated "paid",.answered 0 (some "HTTP 500"),.retryTimer 0,
    .answered 0 (some "HTTP 500"),.retryTimer 0,.answered 0 (some "HTTP 500")]

/-- The retry is delivered at once. -/
theorem failedDelivery_lifecycle :
    (Runs.run (step {}) (failedDelivery ++ [.retryDeadLetter 0,.answered 1 none,.resumed ⟨0,1⟩])
      {}).Lifecycle {} := by
  refine deadLetters_lifecycle (by decide) ?_
  refine ⟨trivial,trivial,trivial,?_,trivial,?_,trivial,?_,?_,?_,trivial,trivial⟩
  · intro d hd _ hsome
    cases hd
    exact absurd hsome (by decide)
  · intro d hd _ hsome
    cases hd
    exact absurd hsome (by decide)
  · intro d hd _ hsome
    cases hd
    exact absurd hsome (by decide)
  · intro x hx _ hgone
    cases hx with
    | head => exact nomatch hgone
    | tail _ hx => exact nomatch hx
  · intro d hd _ _
    cases hd
    exact Or.inl ⟨rfl,rfl⟩

/-- The first attempt of the retry fails and so do the others: the old dead letter stays
requeued, and there is a new one. -/
theorem failedDelivery_two_letters :
    ¬ ∀ (config : WebhookConfig) (events : List WebhookEvent), 1 ≤ config.maxAttempts →
      (Runs.run (step config) events {}).Lifecycle config := by
  intro h
  have h1 := h {} (failedDelivery ++ [.retryDeadLetter 0,.answered 1 (some "HTTP 500"),
    .resumed ⟨0,1⟩,.retryTimer 1,.answered 1 (some "HTTP 500"),.retryTimer 1,
    .answered 1 (some "HTTP 500")]) (by decide)
  have h2 := h1.single
  revert h2
  decide

end Runs

end WebhookServer

end YieldVault.Backend
