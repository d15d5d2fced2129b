import YieldVault.Backend.Webhooks

/-! Lost updates of webhook endpoints. All operations but one read and write the endpoint in
one go; a verification waits for the challenge in between and writes the record it has read. -/
namespace YieldVault.Backend

namespace WebhookServer

/-- No write has replaced one that it had not read; what was deleted and not restored is
inactive; and no delivery was begun to it. -/
structure Kept (s : WebhookServer) : Prop where
  lost : s.lost = []
  deleted : ∀ id, s.deleted id = true →
    ∃ endpoint, s.endpoints id = some endpoint ∧ endpoint.deletedAt.isSome = true
  started : ∀ d ∈ s.started, d.2 = false

def UpToDate (s : WebhookServer) : WebhookEvent → Prop
  | .probed probe _ _ => ∀ p ∈ s.probes probe, s.writes p.endpointId = p.version
  | _ => True

/-- What verifications under way have read, and what follows as long as nothing was lost. -/
structure Tracked (s : WebhookServer) : Prop where
  probes : ∀ k p, s.probes k = some p → p.version ≤ s.writes p.endpointId ∧
    p.existing.deletedAt = none ∧
    (s.writes p.endpointId = p.version → s.endpoints p.endpointId = some p.existing)
  deleted : s.lost = [] → ∀ id, s.deleted id = true →
    ∃ endpoint, s.endpoints id = some endpoint ∧ endpoint.deletedAt.isSome = true
  started : s.lost = [] → ∀ d ∈ s.started, d.2 = false

variable {s : WebhookServer} {config : WebhookConfig} {id : ℕ} {endpoint : WebhookEndpoint}

theorem Tracked.not_deleted (h : s.Tracked) (hlost : s.lost = [])
    (hstored : s.endpoints id = some endpoint) (hlive : endpoint.deletedAt = none) :
    s.deleted id = false := by
  by_contra hne
  obtain ⟨other,hother,hdeleted⟩ := h.deleted hlost id (Bool.eq_true_of_not_eq_false hne)
  obtain rfl : endpoint = other := Option.some.inj (hstored.symm.trans hother)
  rw [hlive] at hdeleted
  exact absurd hdeleted (by decide)

/-- A write with what it says about deletion. -/
def put (id : ℕ) (endpoint : WebhookEndpoint) (gone : Bool) (s : WebhookServer) : WebhookServer :=
  { s.setEndpoint id endpoint with deleted := Function.update s.deleted id gone }

theorem put_deleted (id : ℕ) (endpoint : WebhookEndpoint) (s : WebhookServer) :
    s.put id endpoint (s.deleted id) = s.setEndpoint id endpoint := by
  unfold put
  rw [Function.update_eq_self]
  rfl

theorem Tracked.put (h : s.Tracked) (id : ℕ) (endpoint : WebhookEndpoint) (gone : Bool)
    (hgone : s.lost = [] → gone = true → endpoint.deletedAt.isSome = true) :
    (s.put id endpoint gone).Tracked := by
  refine ⟨?_,fun hlost other hother => ?_,h.started⟩
  · intro k p hp
    obtain ⟨hle,hlive,hstored⟩ := h.probes k p hp
    by_cases hid : p.endpointId = id
    · have hwrites : (s.put id endpoint gone).writes p.endpointId = s.writes p.endpointId+1 := by
        simp [WebhookServer.put,setEndpoint,hid]
      rw [hwrites]
      exact ⟨by omega,hlive,fun heq => absurd heq (by omega)⟩
    · have hwrites : (s.put id endpoint gone).writes p.endpointId = s.writes p.endpointId := by
        simp [WebhookServer.put,setEndpoint,hid]
      have hsame : (s.put id endpoint gone).endpoints p.endpointId =
          s.endpoints p.endpointId := by
        simp [WebhookServer.put,setEndpoint,hid]
      rw [hwrites,hsame]
      exact ⟨hle,hlive,hstored⟩
  · by_cases hid : other = id
    · subst hid
      have hgone' : gone = true := by simpa [WebhookServer.put] using hother
      exact ⟨endpoint,by simp [WebhookServer.put,setEndpoint],hgone hlost hgone'⟩
    · have hdeleted : s.deleted other = true := by simpa [WebhookServer.put,hid] using hother
      obtain ⟨stored,hstored,hsome⟩ := h.deleted hlost other hdeleted
      exact ⟨stored,by simpa [WebhookServer.put,setEndpoint,hid] using hstored,hsome⟩

theorem Tracked.setEndpoint {existing : WebhookEndpoint} (h : s.Tracked)
    (hstored : s.endpoints id = some existing) (hlive : existing.deletedAt = none) :
    (s.setEndpoint id endpoint).Tracked := by
  rw [← put_deleted]
  refine h.put _ _ _ fun hlost hgone => ?_
  rw [h.not_deleted hlost hstored hlive] at hgone
  exact absurd hgone (by decide)

theorem Tracked.probe {existing : WebhookEndpoint} (h : s.Tracked)
    (hstored : s.endpoints id = some existing) (hlive : existing.deletedAt = none) :
    (s.probeWebhookVerification id existing).Tracked := by
  refine ⟨?_,h.deleted,h.started⟩
  intro k p hp
  by_cases hk : k = s.nextProbe
  · subst hk
    obtain rfl : ⟨id,existing,s.writes id⟩ = p := by
      simpa [probeWebhookVerification] using hp
    exact ⟨le_rfl,hlive,fun _ => hstored⟩
  · exact h.probes k p (by simpa [probeWebhookVerification,hk] using hp)

theorem Tracked.verify {now : ℕ} (h : s.Tracked) : (s.verifyWebhookEndpoint id now).Tracked := by
  unfold verifyWebhookEndpoint
  split
  next existing hstored =>
    split_ifs with hdeleted hexpired
    · exact h
    · exact h.setEndpoint hstored (by simpa using hdeleted)
    · exact h.probe hstored (by simpa using hdeleted)
  next => exact h

/-- A verdict is lost on nobody exactly when the endpoint is as it was read. -/
theorem Tracked.writeBack {k now : ℕ} {p : WebhookProbe} {answer : ProbeAnswer} (h : s.Tracked)
    (hp : s.probes k = some p) : (s.writeBack p answer now).Tracked := by
  obtain ⟨hle,hlive,hstored⟩ := h.probes k p hp
  by_cases hversion : s.writes p.endpointId = p.version
  · have hset : (s.setEndpoint p.endpointId (verdict p.existing answer now)).Tracked :=
      h.setEndpoint (hstored hversion) hlive
    unfold WebhookServer.writeBack
    rw [if_pos hversion]
    exact hset
  · have hput := h.put p.endpointId (verdict p.existing answer now) false (by simp)
    unfold WebhookServer.writeBack
    rw [if_neg hversion]
    exact ⟨hput.probes,fun hlost => absurd hlost (List.cons_ne_nil _ _),
      fun hlost => absurd hlost (List.cons_ne_nil _ _)⟩

theorem Tracked.register {input : RegisterWebhookInput} {challengeToken : String} {now : ℕ}
    (h : s.Tracked) : (s.registerWebhookEndpoint config input challengeToken now).Tracked := by
  unfold registerWebhookEndpoint
  split_ifs
  · refine Tracked.verify ?_
    have hput := fun endpoint => h.put s.nextEndpoint endpoint false (by simp)
    exact ⟨(hput _).probes,(hput _).deleted,(hput _).started⟩
  · exact h

theorem Tracked.update {input : UpdateWebhookInput} {now : ℕ} (h : s.Tracked) :
    (s.updateWebhookEndpoint id input now).Tracked := by
  unfold updateWebhookEndpoint
  split
  next existing hstored =>
    split_ifs with hdeleted
    · exact h
    · have hlive : existing.deletedAt = none := by
        simpa using fun hsome => hdeleted (Or.inl hsome)
      exact h.setEndpoint hstored hlive
  next => exact h

theorem Tracked.delete {actor : String} {now : ℕ} (h : s.Tracked) :
    (s.deleteWebhookEndpoint id actor now).Tracked := by
  unfold deleteWebhookEndpoint
  split
  next existing hstored =>
    split_ifs
    · exact h
    · exact h.put id _ true fun _ _ => rfl
  next => exact h

theorem Tracked.restore {now : ℕ} (h : s.Tracked) : (s.restoreWebhookEndpoint id now).Tracked := by
  unfold restoreWebhookEndpoint
  split
  next existing hstored =>
    split_ifs
    · exact h.put id _ false (by simp)
    · exact h
  next => exact h

theorem Tracked.startDelivery {eventType : TransactionEventType} {payload : String} {origin : ℕ}
    {retried : Option ℕ} (h : s.Tracked) (hstored : s.endpoints id = some endpoint)
    (hlive : endpoint.deletedAt = none) :
    (s.startDelivery id endpoint eventType payload origin retried).Tracked := by
  refine ⟨h.probes,h.deleted,fun hlost d hd => ?_⟩
  rcases List.mem_cons.mp hd with rfl | hd
  · exact h.not_deleted hlost hstored hlive
  · exact h.started hlost d hd

theorem Tracked.startAll {eventType : TransactionEventType} {payload : String}
    {targets : List (ℕ × WebhookEndpoint)} (h : s.Tracked)
    (htargets : ∀ x ∈ targets, s.endpoints x.1 = some x.2 ∧ x.2.deletedAt = none) :
    (s.startAll eventType payload targets).Tracked := by
  induction targets generalizing s with
  | nil => exact h
  | cons x rest ih =>
    obtain ⟨hstored,hlive⟩ := htargets x List.mem_cons_self
    exact ih (h.startDelivery hstored hlive) fun y hy => htargets y (List.mem_cons_of_mem _ hy)

theorem activeEndpoints_live {eventType : TransactionEventType} {x : ℕ × WebhookEndpoint}
    (hx : x ∈ s.activeEndpoints config eventType) :
    s.endpoints x.1 = some x.2 ∧ x.2.deletedAt = none := by
  obtain ⟨id,-,hx⟩ := List.mem_filterMap.mp hx
  obtain ⟨endpoint,hstored,hx⟩ := Option.bind_eq_some_iff.mp hx
  split_ifs at hx with hactive
  obtain rfl := Option.some.inj hx
  exact ⟨hstored,hactive.1⟩

theorem available_live (h : s.available id = some endpoint) :
    s.endpoints id = some endpoint ∧ endpoint.deletedAt = none := by
  obtain ⟨hstored,hlive⟩ := Option.filter_eq_some_iff.mp h
  exact ⟨hstored,by simpa using hlive⟩

theorem Tracked.retry (h : s.Tracked) : (s.retryWebhookDeadLetter id).Tracked := by
  unfold retryWebhookDeadLetter
  split
  next entry _ =>
    split
    next endpoint hendpoint =>
      obtain ⟨hstored,hlive⟩ := available_live hendpoint
      have hrequeued : (s.modifyDeadLetter id fun x =>
          { x with status := .requeued,attempts := x.attempts+1 }).Tracked :=
        ⟨h.probes,h.deleted,h.started⟩
      have hstarted : (WebhookServer.startDelivery entry.endpointId endpoint entry.eventType
          entry.payload entry.origin (some id) _).Tracked := hrequeued.startDelivery hstored hlive
      exact ⟨hstarted.probes,hstarted.deleted,hstarted.started⟩
    next => exact ⟨h.probes,h.deleted,h.started⟩
  next => exact h

structure SameEndpoints (s t : WebhookServer) : Prop where
  endpoints : t.endpoints = s.endpoints
  probes : t.probes = s.probes
  writes : t.writes = s.writes
  lost : t.lost = s.lost
  deleted : t.deleted = s.deleted
  started : t.started = s.started

theorem Tracked.same {t : WebhookServer} (h : s.Tracked) (hsame : SameEndpoints s t) :
    t.Tracked := by
  obtain ⟨h1,h2,h3,h4,h5,h6⟩ := hsame
  refine ⟨?_,?_,?_⟩
  · rw [h1,h2,h3]
    exact h.probes
  · rw [h1,h4,h5]
    exact h.deleted
  · rw [h4,h6]
    exact h.started

theorem answered_same (error : Option String) :
    SameEndpoints s (s.answered config id error) := by
  have hdeliver (d : WebhookDelivery) :
      SameEndpoints s (s.deliverWithRetry config id error d) := by
    unfold deliverWithRetry
    cases error with
    | none => exact ⟨rfl,rfl,rfl,rfl,rfl,rfl⟩
    | some message =>
      dsimp only
      split_ifs <;> exact ⟨rfl,rfl,rfl,rfl,rfl,rfl⟩
  unfold WebhookServer.answered
  split
  next d _ =>
    by_cases hfetching : d.phase = .fetching
    · rw [if_pos hfetching]
      exact hdeliver d
    · rw [if_neg hfetching]
      exact ⟨rfl,rfl,rfl,rfl,rfl,rfl⟩
  next => exact ⟨rfl,rfl,rfl,rfl,rfl,rfl⟩

theorem retryTimer_same : SameEndpoints s (s.retryTimer id) := by
  unfold WebhookServer.retryTimer
  split
  next => split_ifs <;> exact ⟨rfl,rfl,rfl,rfl,rfl,rfl⟩
  next => exact ⟨rfl,rfl,rfl,rfl,rfl,rfl⟩

theorem resumed_same (call : RetryCall) : SameEndpoints s (s.resumed call) := by
  have hfinish (d : WebhookDelivery) : SameEndpoints s (s.finishRetry call d) := by
    unfold finishRetry
    cases d.status <;> exact ⟨rfl,rfl,rfl,rfl,rfl,rfl⟩
  unfold WebhookServer.resumed
  split
  next d _ =>
    split_ifs
    · obtain ⟨h1,h2,h3,h4,h5,h6⟩ := hfinish d
      exact ⟨h1,h2,h3,h4,h5,h6⟩
    · exact ⟨rfl,rfl,rfl,rfl,rfl,rfl⟩
  next => exact ⟨rfl,rfl,rfl,rfl,rfl,rfl⟩

theorem Tracked.endProbe {t : WebhookServer} (h : t.Tracked) (k : ℕ) :
    Tracked { t with probes := Function.update t.probes k none } := by
  refine ⟨fun j q hq => ?_,h.deleted,h.started⟩
  have hne : j ≠ k := by
    rintro rfl
    simp at hq
  exact h.probes j q ((Function.update_of_ne hne _ _).symm.trans hq)

theorem step_tracked (s : WebhookServer) (e : WebhookEvent) (h : s.Tracked) :
    (s.step config e).Tracked := by
  cases e with
  | register input challengeToken now => exact h.register
  | verify id now => exact h.verify
  | probed probe answer now =>
    unfold step
    dsimp only
    split
    next p hp =>
      have hwritten : (s.writeBack p answer now).Tracked := h.writeBack hp
      exact hwritten.endProbe probe
    next => exact h
  | update id input now => exact h.update
  | delete id actor now => exact h.delete
  | restore id actor now => exact h.restore
  | emit eventType payload => exact h.startAll fun _ hx => activeEndpoints_live hx
  | answered delivery error => exact h.same (answered_same error)
  | retryTimer delivery => exact h.same retryTimer_same
  | retryDeadLetter id => exact h.retry
  | resumed call => exact h.same (resumed_same call)

theorem startAll_lost {eventType : TransactionEventType} {payload : String}
    (targets : List (ℕ × WebhookEndpoint)) :
    (s.startAll eventType payload targets).lost = s.lost := by
  induction targets generalizing s with
  | nil => rfl
  | cons x rest ih => exact ih

theorem verify_lost (id now : ℕ) : (s.verifyWebhookEndpoint id now).lost = s.lost := by
  unfold verifyWebhookEndpoint
  split
  next => split_ifs <;> rfl
  next => rfl

/-- Only the verdict of a verification can replace a write that it has not read. -/
theorem step_lost {e : WebhookEvent} (he : ∀ probe answer now, e ≠ .probed probe answer now) :
    (s.step config e).lost = s.lost := by
  cases e with
  | register input challengeToken now =>
    unfold step registerWebhookEndpoint
    dsimp only
    split_ifs
    · exact verify_lost _ _
    · rfl
  | verify id now => exact verify_lost id now
  | probed probe answer now => exact absurd rfl (he probe answer now)
  | emit eventType payload => exact startAll_lost _
  | answered delivery error => exact (answered_same error).lost
  | retryTimer delivery => exact retryTimer_same.lost
  | resumed call => exact (resumed_same call).lost
  | retryDeadLetter id =>
    unfold step retryWebhookDeadLetter
    dsimp only
    split
    next => split <;> rfl
    next => rfl
  | _ =>
    unfold step
    dsimp only [updateWebhookEndpoint,deleteWebhookEndpoint,restoreWebhookEndpoint]
    split
    next => split_ifs <;> rfl
    next => rfl

theorem step_lost_iff (s : WebhookServer) (e : WebhookEvent) :
    (s.step config e).lost = [] ↔ s.lost = [] ∧ s.UpToDate e := by
  cases e with
  | probed probe answer now =>
    unfold step UpToDate
    dsimp only
    cases hp : s.probes probe with
    | none => simp
    | some p =>
      by_cases hversion : s.writes p.endpointId = p.version
      · simp [WebhookServer.writeBack,hversion]
      · simp [WebhookServer.writeBack,hversion]
  | _ => rw [step_lost (by simp)]; exact (and_iff_left trivial).symm

/-- In whatever order the operations on endpoints, the deliveries and the retries happen: no
write replaces one that it has not read, a deleted endpoint is inactive until it is restored
and no delivery to it begins, exactly when every verification that ends finds its endpoint not
written since it was read. -/
theorem webhooks_kept_iff (config : WebhookConfig) (events : List WebhookEvent) :
    (Runs.run (step config) events {}).Kept ↔ Runs.Along (step config) UpToDate {} events := by
  have hstart : ({} : WebhookServer).Tracked := ⟨by simp,by simp,by simp⟩
  have htracked : (Runs.run (step config) events {}).Tracked :=
    Runs.invariant step_tracked events hstart
  have hlost : (Runs.run (step config) events {}).lost = [] ↔ _ ∧ _ :=
    Runs.along_iff (P := fun s => s.lost = []) step_tracked (fun s e _ => step_lost_iff s e)
      events hstart
  rw [and_iff_right rfl] at hlost
  rw [← hlost]
  exact ⟨fun h => h.lost,fun h => ⟨h,htracked.deleted h,htracked.started h⟩⟩

/-- An endpoint is deleted while the challenge of its registration is under way; the answer
brings it back, and the next event is sent to it. -/
theorem deleted_webhook_returns :
    ¬ ∀ (config : WebhookConfig) (events : List WebhookEvent),
      (Runs.run (step config) events {}).Kept := by
  intro h
  have h1 := (h {} [.register ⟨"https://shop.example",none,none,none⟩ "token" 0,
    .delete 0 "admin" 1,.probed 0 .matched 2,.emit .depositCreated "paid"]).started (0,true)
  exact absurd (h1 (by decide)) (by decide)

end WebhookServer

end YieldVault.Backend
