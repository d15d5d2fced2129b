import YieldVault.Runs

/-! The rate limiters of the instances, which count in the Redis that the instances share. A
limiter keeps what the client said of its connection when the limiter was created. -/
namespace YieldVault.Backend

structure EndpointLimiterConfig where
  tier : Option String := none
  routePrefix : Option String := none
  max : ℤ
  windowMs : ℕ

def EndpointLimiterConfig.prefixName (config : EndpointLimiterConfig) : String :=
  (config.tier <|> config.routePrefix).getD "default"

structure RateLimitRequest where
  walletAddress : Option String := none
  walletHeader : Option String := none
  apiKey : Option String := none
  ip : Option String := none
  path : String := "/"

def extractRateLimitKey (req : RateLimitRequest) : String :=
  let given (field : Option String) := field.filter fun text => text ≠ ""
  (given req.walletAddress <|> given req.walletHeader <|> given req.apiKey <|>
    given req.ip).getD "unknown"

def buildRedisKey (routePrefix identifier : String) : String :=
  "rl:" ++ routePrefix ++ ":" ++ identifier

structure RateLimitEntry where
  count : ℕ
  resetAt : ℕ

/-- A hit in the window of an entry, or in a new one. -/
def countHit (windowMs now : ℕ) : Option RateLimitEntry → RateLimitEntry
  | some entry =>
    if now < entry.resetAt then { entry with count := entry.count+1 } else ⟨1,now+windowMs⟩
  | none => ⟨1,now+windowMs⟩

inductive RateLimitAnswer
  | skipped
  | counted (totalHits : ℕ)
  | limited (totalHits : ℕ)
  | storeError
  deriving DecidableEq

def EndpointLimiterConfig.verdict (config : EndpointLimiterConfig) (entry : RateLimitEntry) :
    RateLimitAnswer :=
  if config.max < entry.count then .limited entry.count else .counted entry.count

abbrev HitCounts := String → Option RateLimitEntry

/-- Without Redis a limiter counts by itself. With it, `redisReady` is what `createLimiter` has
read, from which both the store and the `skip` of `rateLimit` are made. -/
inductive Limiter
  | inMemory (config : EndpointLimiterConfig) (entries : HitCounts)
  | rateLimit (config : EndpointLimiterConfig) (redisReady : Bool)

def Limiter.config : Limiter → EndpointLimiterConfig
  | .inMemory config _ | .rateLimit config _ => config

def Limiter.redisReady : Limiter → Bool
  | .inMemory _ _ => false
  | .rateLimit _ redisReady => redisReady

def Limiter.storeKey (limiter : Limiter) (req : RateLimitRequest) : String :=
  buildRedisKey limiter.config.prefixName (extractRateLimitKey req)

/-- One request; `sent` says whether Redis executes the command of the store. -/
def Limiter.handle (limiter : Limiter) (req : RateLimitRequest) (now : ℕ) (sent : Bool)
    (counts : HitCounts) : RateLimitAnswer × Limiter × HitCounts :=
  match limiter with
  | .inMemory config entries =>
    let key := buildRedisKey ("1:" ++ config.prefixName ++ ":" ++ req.path) (extractRateLimitKey req)
    let entry := countHit config.windowMs now (entries key)
    (config.verdict entry,.inMemory config (Function.update entries key (some entry)),counts)
  | .rateLimit config redisReady =>
    if redisReady then
      if sent then
        let key := limiter.storeKey req
        let entry := countHit config.windowMs now (counts key)
        (config.verdict entry,limiter,Function.update counts key (some entry))
      else (.storeError,limiter,counts)
    else (.skipped,limiter,counts)

inductive RedisStatus
  | wait | connect | ready | close | reconnecting
  deriving DecidableEq

/-- An instance: whether `REDIS_URL` is set, what its client manager has noted, the state of
the client's connection, whether Redis can be reached from it, and its limiters. -/
structure RateLimitInstance where
  redisUrl : Bool
  redisAvailable : Bool := false
  status : RedisStatus := .wait
  reachable : Bool
  limiters : List Limiter := []

def RateLimitInstance.createLimiter (config : EndpointLimiterConfig) (x : RateLimitInstance) :
    RateLimitInstance :=
  { x with
    limiters := x.limiters ++
      [if x.redisUrl then .rateLimit config x.redisAvailable else .inMemory config fun _ => none] }

def RateLimitInstance.Ready (x : RateLimitInstance) : Prop :=
  x.status = .ready ∧ x.reachable = true

instance (x : RateLimitInstance) : Decidable x.Ready := inferInstanceAs (Decidable (_ ∧ _))

/-- The instances, and the counts in Redis. -/
structure RateLimitFleet where
  instances : ℕ → RateLimitInstance
  counts : HitCounts := fun _ => none

/-- A command that finds the connection not ready waits in the client, and may be `executed`
after all. -/
inductive RateLimitEvent
  | createLimiter (i : ℕ) (config : EndpointLimiterConfig)
  | connect (i : ℕ)
  | ready (i : ℕ)
  | error (i : ℕ)
  | close (i : ℕ)
  | reconnecting (i : ℕ)
  | network (i : ℕ) (reachable : Bool)
  | request (i l : ℕ) (req : RateLimitRequest) (now : ℕ) (executed : Bool)

namespace RateLimitFleet

def change (i : ℕ) (f : RateLimitInstance → RateLimitInstance) (s : RateLimitFleet) :
    RateLimitFleet :=
  { s with instances := Function.update s.instances i (f (s.instances i)) }

def handled (i : ℕ) (limiter : Limiter) (req : RateLimitRequest) (now : ℕ) (executed : Bool)
    (s : RateLimitFleet) : RateLimitAnswer × Limiter × HitCounts :=
  limiter.handle req now (decide (s.instances i).Ready || executed) s.counts

def step : RateLimitEvent → RateLimitFleet → RateLimitFleet
  | .createLimiter i config, s => s.change i (·.createLimiter config)
  | .connect i, s => s.change i fun x => { x with redisAvailable := true, status := .connect }
  | .ready i, s => s.change i fun x => { x with status := .ready }
  | .error i, s => s.change i fun x => { x with redisAvailable := false }
  | .close i, s => s.change i fun x => { x with status := .close }
  | .reconnecting i, s => s.change i fun x => { x with status := .reconnecting }
  | .network i reachable, s => s.change i fun x => { x with reachable := reachable }
  | .request i l req now executed, s =>
    match (s.instances i).limiters[l]? with
    | none => s
    | some limiter =>
      let (_,limiter',counts) := s.handled i limiter req now executed
      { s.change i fun x => { x with limiters := x.limiters.set l limiter' } with counts := counts }

def start (redisUrl reachable : ℕ → Bool) : RateLimitFleet where
  instances i := { redisUrl := redisUrl i, reachable := reachable i }

/-- Where `REDIS_URL` is set, a request is exempted only if Redis cannot be reached; and if Redis
is ready, the request is counted there and judged by the count. -/
def Limits (s : RateLimitFleet) : RateLimitEvent → Prop
  | .request i l req now executed => (s.instances i).redisUrl = true →
    ∀ limiter ∈ (s.instances i).limiters[l]?,
      ((s.handled i limiter req now executed).1 = .skipped → (s.instances i).reachable = false) ∧
      ((s.instances i).Ready →
        let entry := countHit limiter.config.windowMs now (s.counts (limiter.storeKey req))
        (step (.request i l req now executed) s).counts (limiter.storeKey req) = some entry ∧
          (s.handled i limiter req now executed).1 = limiter.config.verdict entry)
  | _ => True

/-- A request comes to a limiter that was created while Redis was noted as available, or while
Redis cannot be reached. -/
def CreatedReady (s : RateLimitFleet) : RateLimitEvent → Prop
  | .request i l _ _ _ => (s.instances i).redisUrl = true →
    ∀ limiter ∈ (s.instances i).limiters[l]?,
      limiter.redisReady = true ∨ (s.instances i).reachable = false
  | _ => True

/-- A request is let through uncounted, where `REDIS_URL` is set. -/
def Skips (s : RateLimitFleet) : RateLimitEvent → Prop
  | .request i l req now executed => (s.instances i).redisUrl = true →
    ∀ limiter ∈ (s.instances i).limiters[l]?, (s.handled i limiter req now executed).1 = .skipped
  | _ => True

def Each (P : Limiter → Prop) (s : RateLimitFleet) : Prop :=
  ∀ i, (s.instances i).redisUrl = true → ∀ limiter ∈ (s.instances i).limiters, P limiter

/-- A limiter that counts in Redis, or not at all. -/
def Stored (limiter : Limiter) : Prop := ∃ config redisReady, limiter = .rateLimit config redisReady

/-- A limiter that was created while Redis was not noted as available. -/
def Unready (limiter : Limiter) : Prop := ∃ config, limiter = .rateLimit config false

variable {s : RateLimitFleet} {P : Limiter → Prop}

theorem Each.change (h : Each P s) {i : ℕ} {f : RateLimitInstance → RateLimitInstance}
    (hurl : (f (s.instances i)).redisUrl = (s.instances i).redisUrl)
    (hlimiters : (s.instances i).redisUrl = true →
      ∀ limiter ∈ (f (s.instances i)).limiters, limiter ∈ (s.instances i).limiters ∨ P limiter) :
    Each P (s.change i f) := by
  intro j hj limiter hmem
  by_cases hji : j = i
  · subst hji
    simp only [RateLimitFleet.change,Function.update_self] at hj hmem
    rw [hurl] at hj
    rcases hlimiters hj limiter hmem with hold | hnew
    · exact h j hj limiter hold
    · exact hnew
  · simp only [RateLimitFleet.change,Function.update_of_ne hji] at hj hmem
    exact h j hj limiter hmem

theorem handle_rateLimit (config : EndpointLimiterConfig) (redisReady : Bool)
    (req : RateLimitRequest) (now : ℕ) (sent : Bool) (counts : HitCounts) :
    ((Limiter.rateLimit config redisReady).handle req now sent counts).2.1 =
      .rateLimit config redisReady := by
  cases redisReady <;> cases sent <;> rfl

theorem handle_counts (config : EndpointLimiterConfig) (req : RateLimitRequest) (now : ℕ)
    (sent : Bool) (counts : HitCounts) :
    ((Limiter.rateLimit config true).handle req now sent counts).1 ≠ .skipped := by
  cases sent with
  | false => exact nofun
  | true =>
    change config.verdict _ ≠ .skipped
    unfold EndpointLimiterConfig.verdict
    split <;> exact nofun

theorem Each.step (hP : ∀ limiter, P limiter → Stored limiter) (h : Each P s) (e : RateLimitEvent)
    (hnew : ∀ i config, e = .createLimiter i config → (s.instances i).redisUrl = true →
      P (.rateLimit config (s.instances i).redisAvailable)) : Each P (step e s) := by
  cases e with
  | createLimiter i config =>
    refine h.change (f := (·.createLimiter config)) rfl fun hurl limiter hmem => ?_
    rcases List.mem_append.mp hmem with hold | hmem
    · exact Or.inl hold
    · obtain rfl := List.mem_singleton.mp hmem
      rw [if_pos hurl]
      exact Or.inr (hnew i config rfl hurl)
  | request i l req now executed =>
    simp only [RateLimitFleet.step]
    split
    case h_1 => exact h
    case h_2 limiter hl =>
      refine h.change (f := fun x => { x with limiters := x.limiters.set l _ }) rfl ?_
      intro hurl limiter' hmem
      rcases List.mem_or_eq_of_mem_set hmem with hold | rfl
      · exact Or.inl hold
      · have hlimiter := List.mem_of_getElem? hl
        obtain ⟨config,redisReady,rfl⟩ := hP limiter (h i hurl limiter hlimiter)
        rw [handled,handle_rateLimit]
        exact Or.inl hlimiter
  | _ =>
    simp only [RateLimitFleet.step]
    refine Each.change h ?_ ?_
    · rfl
    · exact fun _ _ hmem => Or.inl hmem

/-- A request to a limiter in Redis is exempted exactly if the limiter was not created ready. -/
theorem limits_iff (h : Each Stored s) (e : RateLimitEvent) : Limits s e ↔ CreatedReady s e := by
  cases e with
  | request i l req now executed =>
    refine forall_congr' fun hurl => forall_congr' fun limiter => forall_congr' fun hl => ?_
    obtain ⟨config,redisReady,rfl⟩ := h i hurl limiter (List.mem_of_getElem? hl)
    cases redisReady with
    | false =>
      constructor
      · exact fun hlimits => Or.inr (hlimits.1 rfl)
      · rintro (hready | hdown)
        · cases hready
        · refine ⟨fun _ => hdown,fun hready => ?_⟩
          rw [hready.2] at hdown
          cases hdown
    | true =>
      refine iff_of_true ⟨fun hskipped => absurd hskipped ?_,fun hready => ?_⟩ (Or.inl rfl)
      · exact handle_counts config req now _ s.counts
      · have hsent : (decide (s.instances i).Ready || executed) = true := by simp [hready]
        simp only [RateLimitFleet.step,handled,Option.mem_def.mp hl,hsent]
        exact ⟨Function.update_self ..,rfl⟩
  | _ => exact Iff.rfl

theorem start_each (redisUrl reachable : ℕ → Bool) : Each P (start redisUrl reachable) :=
  fun _ _ _ hmem => absurd hmem List.not_mem_nil

/-- In every run, no request is exempted against the law and every request is counted where it
has to be, exactly if every request comes to a limiter that was created ready, or while Redis
cannot be reached. -/
theorem limits_along_iff (redisUrl reachable : ℕ → Bool) (acts : List RateLimitEvent) :
    Runs.Along step Limits (start redisUrl reachable) acts ↔
      Runs.Along step CreatedReady (start redisUrl reachable) acts := by
  have hstep : ∀ s e, Each Stored s → Each Stored (step e s) := fun s e h =>
    h.step (fun _ hs => hs) e fun i config _ _ => ⟨config,_,rfl⟩
  exact ⟨fun h => h.of_invariant (fun s e hs _ => hstep s e hs)
      (fun s e hs => (limits_iff hs e).mp) (start_each redisUrl reachable),
    fun h => h.of_invariant (fun s e hs _ => hstep s e hs)
      (fun s e hs => (limits_iff hs e).mpr) (start_each redisUrl reachable)⟩

theorem Each.skips (h : Each Unready s) (e : RateLimitEvent) : Skips s e := by
  cases e with
  | request i l req now executed =>
    intro hurl limiter hl
    obtain ⟨config,rfl⟩ := h i hurl limiter (List.mem_of_getElem? hl)
    rfl
  | _ => trivial

/-- Limiters that are created before the client connects, as those of the module are, exempt
every request for good. -/
theorem loaded_skips (redisUrl reachable : ℕ → Bool) (configs : List (ℕ × EndpointLimiterConfig))
    (acts : List RateLimitEvent) (h : ∀ e ∈ acts, ∀ i config, e ≠ .createLimiter i config) :
    Runs.Along step Skips (Runs.run step (configs.map fun x => .createLimiter x.1 x.2)
      (start redisUrl reachable)) acts := by
  have hstored : ∀ limiter, Unready limiter → Stored limiter := fun _ ⟨config,hl⟩ => ⟨config,_,hl⟩
  have hloaded : Each Unready (Runs.run step (configs.map fun x => .createLimiter x.1 x.2)
      (start redisUrl reachable)) := by
    have hcreate : Runs.Along step (fun _ e => ∃ i config, e = .createLimiter i config)
        (start redisUrl reachable) (configs.map fun x => .createLimiter x.1 x.2) := by
      refine Runs.along_of_forall_mem (fun e he _ => ?_) _
      obtain ⟨x,-,rfl⟩ := List.mem_map.mp he
      exact ⟨x.1,x.2,rfl⟩
    -- while limiters are created, no client is noted as available
    have hstep : ∀ s e, Each Unready s ∧ (∀ i, (s.instances i).redisAvailable = false) →
        (∃ i config, e = .createLimiter i config) →
        Each Unready (step e s) ∧ ∀ i, ((step e s).instances i).redisAvailable = false := by
      rintro s _ ⟨heach,havailable⟩ ⟨i,config,rfl⟩
      refine ⟨heach.step hstored _ fun j config' _ _ => ?_,fun j => ?_⟩
      · rw [havailable j]
        exact ⟨config',rfl⟩
      · by_cases hj : j = i
        · subst hj
          simpa [RateLimitFleet.step,change,RateLimitInstance.createLimiter] using havailable j
        · simpa [RateLimitFleet.step,change,hj] using havailable j
    exact (hcreate.invariant hstep ⟨start_each redisUrl reachable,fun _ => rfl⟩).1
  have hrun : Runs.Along step (fun _ e => ∀ i config, e ≠ .createLimiter i config)
      (Runs.run step (configs.map fun x => .createLimiter x.1 x.2) (start redisUrl reachable)) acts :=
    Runs.along_of_forall_mem (fun e he _ => h e he) _
  refine hrun.of_invariant (fun s e hs he => ?_) (fun s e hs _ => hs.skips e) hloaded
  exact hs.step hstored e fun i config heq => absurd heq (he i config)

section Login

def authConfig : EndpointLimiterConfig where
  tier := some "auth"
  max := 5
  windowMs := 60000

/-- The module is loaded, the client connects, and a wallet logs in. -/
theorem login_exempted :
    ¬ ∀ (redisUrl reachable : ℕ → Bool) (acts : List RateLimitEvent),
      Runs.Along step Limits (start redisUrl reachable) acts := by
  intro h
  have hrun := h (fun _ => true) (fun _ => true) [.createLimiter 0 authConfig,.connect 0,.ready 0,
    .request 0 0 { walletAddress := some "GALICE" } 0 true]
  have hdown := (hrun.2.2.2.1 rfl _ rfl).1 rfl
  cases hdown

end Login

end RateLimitFleet

end YieldVault.Backend
