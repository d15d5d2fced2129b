import YieldVault.RollingWindow
import YieldVault.Runs

/-! The latency monitor. Every endpoint has a tracker that keeps the samples of the last
minutes and judges their 95th percentile when a sample arrives and when the interval timer
fires. A call reads the clock once; what the alert services do with an alert is left out. -/
namespace YieldVault.Backend

open RollingWindow

structure SLOConfig where
  readEndpoints : ℚ := 200
  writeEndpoints : ℚ := 500
  evaluationWindowMs : ℤ := 300000
  alertCooldownMs : ℤ := 900000

inductive EndpointType
  | READ | WRITE
  deriving DecidableEq

structure LatencyDataPoint where
  timestamp : ℤ
  latency : ℚ
  deriving DecidableEq

structure EndpointLatencyTracker where
  endpoint : String
  type : EndpointType
  sloThreshold : ℚ
  evaluationWindowMs : ℤ
  alertCooldownMs : ℤ
  dataPoints : List LatencyDataPoint := []
  cachedDataPoints : List LatencyDataPoint := []
  uncachedDataPoints : List LatencyDataPoint := []
  lastAlertTime : ℤ := 0

structure SLOViolation where
  endpoint : String
  type : EndpointType
  currentP95 : ℚ
  threshold : ℚ
  dataPoints : ℕ
  deriving DecidableEq

/-- The source multiplies the length by 0.95 and rounds up; doubles give the exact ceiling
for every length that a list can have. -/
def computeP95 (points : List LatencyDataPoint) : ℚ :=
  (nearestRank 95 100 (points.map LatencyDataPoint.latency)).getD 0

namespace EndpointLatencyTracker

variable (tracker : EndpointLatencyTracker) (now : ℤ)

def inWindow (points : List LatencyDataPoint) : List LatencyDataPoint :=
  kept LatencyDataPoint.timestamp tracker.evaluationWindowMs now points

def pruneStaleData : EndpointLatencyTracker :=
  { tracker with
    dataPoints := tracker.inWindow now tracker.dataPoints
    cachedDataPoints := tracker.inWindow now tracker.cachedDataPoints
    uncachedDataPoints := tracker.inWindow now tracker.uncachedDataPoints }

def addLatencyMeasurement (latencyMs : ℚ) (cached : Option Bool) : EndpointLatencyTracker :=
  let point : LatencyDataPoint := ⟨now,latencyMs⟩
  pruneStaleData { tracker with
    dataPoints := tracker.dataPoints ++ [point]
    cachedDataPoints :=
      if cached = some true then tracker.cachedDataPoints ++ [point] else tracker.cachedDataPoints
    uncachedDataPoints :=
      if cached = some false then tracker.uncachedDataPoints ++ [point]
      else tracker.uncachedDataPoints } now

def calculateP95 : ℚ × EndpointLatencyTracker :=
  (computeP95 (tracker.pruneStaleData now).dataPoints,tracker.pruneStaleData now)

def isSLOBreached : Bool × EndpointLatencyTracker :=
  let (p95,pruned) := tracker.calculateP95 now
  (decide (tracker.sloThreshold < p95),pruned)

def shouldAlert : Bool × EndpointLatencyTracker :=
  let cooldownExpired := decide (tracker.alertCooldownMs < now-tracker.lastAlertTime)
  let (isBreaching,pruned) := tracker.isSLOBreached now
  let isFirstBreach := decide (tracker.lastAlertTime = 0) && isBreaching
  (isBreaching && (cooldownExpired || isFirstBreach),pruned)

def recordAlert : EndpointLatencyTracker := { tracker with lastAlertTime := now }

def getDataPointCount : ℕ × EndpointLatencyTracker :=
  ((tracker.pruneStaleData now).dataPoints.length,tracker.pruneStaleData now)

/-- What both callers of `shouldAlert` do when it says so: describe the violation, then
remember the alert. -/
def judge (endpoint : String) : Option SLOViolation × EndpointLatencyTracker :=
  let (alert,tracker) := tracker.shouldAlert now
  if alert then
    let (currentP95,tracker) := tracker.calculateP95 now
    let (dataPoints,tracker) := tracker.getDataPointCount now
    (some ⟨endpoint,tracker.type,currentP95,tracker.sloThreshold,dataPoints⟩,
      tracker.recordAlert now)
  else (none,tracker)

end EndpointLatencyTracker

/-- The service: the trackers of its map in their order, and the alerts sent so far with
their times, newest first. -/
structure LatencyMonitoringService where
  endpoints : List String
  trackers : String → Option EndpointLatencyTracker
  monitoring : Bool := false
  sent : List (ℤ × List SLOViolation) := []

def endpointMappings : List (String × EndpointType) :=
  [("/api/v1/vault/summary",.READ),("/api/v1/vault/metrics",.READ),("/api/v1/vault/apy",.READ),
    ("/api/v1/vault/:id",.READ),("/health",.READ),("/ready",.READ),("/metrics",.READ),
    ("/admin/api-keys/audit-events",.READ),("/admin/exports/jobs",.READ),
    ("/api/v1/vault/deposit",.WRITE),("/api/v1/vault/withdraw",.WRITE),
    ("/api/v1/vault/create",.WRITE),("/admin/cache/invalidate",.WRITE),
    ("/admin/api-keys/register",.WRITE),("/admin/api-keys/rotate",.WRITE),
    ("/admin/api-keys/revoke",.WRITE),("/admin/exports/jobs/:id/verify",.WRITE)]

/-- The type an endpoint is tracked under; unknown endpoints count as reads. -/
def endpointTypeOf (endpoint : String) : EndpointType :=
  (endpointMappings.lookup endpoint).getD .READ

namespace SLOConfig

variable (config : SLOConfig)

def thresholdFor : EndpointType → ℚ
  | .READ => config.readEndpoints
  | .WRITE => config.writeEndpoints

def newTracker (endpoint : String) : EndpointLatencyTracker where
  endpoint := endpoint
  type := endpointTypeOf endpoint
  sloThreshold := config.thresholdFor (endpointTypeOf endpoint)
  evaluationWindowMs := config.evaluationWindowMs
  alertCooldownMs := config.alertCooldownMs

/-- The thresholds are not negative, as the defaults are. -/
structure Sane : Prop where
  read : 0 ≤ config.readEndpoints
  write : 0 ≤ config.writeEndpoints

variable {config}

theorem Sane.thresholdFor (h : config.Sane) (type : EndpointType) :
    0 ≤ config.thresholdFor type := by
  cases type with
  | READ => exact h.read
  | WRITE => exact h.write

end SLOConfig

/-- The expression `^/api/v1/vault/[^/]+$`. -/
def isVaultItem (endpoint : String) : Bool :=
  match endpoint.toList.splitAt "/api/v1/vault/".toList.length with
  | (start,item) =>
    decide (start = "/api/v1/vault/".toList) && decide (item ≠ []) && decide ('/' ∉ item)

namespace LatencyMonitoringService

def initial (config : SLOConfig) : LatencyMonitoringService where
  endpoints := endpointMappings.map Prod.fst
  trackers endpoint :=
    if endpoint ∈ endpointMappings.map Prod.fst then some (config.newTracker endpoint) else none

variable (config : SLOConfig) (now : ℤ) (service : LatencyMonitoringService)

def normalizeEndpoint (endpoint : String) : String :=
  if (service.trackers endpoint).isSome then endpoint
  else if isVaultItem endpoint then "/api/v1/vault/:id" else endpoint

def setTracker (endpoint : String) (tracker : EndpointLatencyTracker) :
    LatencyMonitoringService :=
  { service with trackers := Function.update service.trackers endpoint (some tracker) }

/-- With the violations that are handed to `sendAlerts`. The first sample of an endpoint
that is not in the map is not judged. -/
def recordLatency (endpoint : String) (latencyMs : ℚ) (cached : Option Bool) :
    LatencyMonitoringService × List SLOViolation :=
  let normalized := service.normalizeEndpoint endpoint
  match service.trackers normalized with
  | some tracker =>
    let (violation,tracker) :=
      (tracker.addLatencyMeasurement now latencyMs cached).judge now normalized
    (service.setTracker normalized tracker,violation.toList)
  | none =>
    let tracker := (config.newTracker normalized).addLatencyMeasurement now latencyMs cached
    ({ service.setTracker normalized tracker with
      endpoints := service.endpoints ++ [normalized] },[])

def checkSLOViolations : LatencyMonitoringService × List SLOViolation :=
  let judged := fun endpoint => (service.trackers endpoint).map (·.judge now endpoint)
  ({ service with trackers := fun endpoint => (judged endpoint).map Prod.snd },
    service.endpoints.filterMap fun endpoint => (judged endpoint).bind Prod.fst)

structure EndpointMetrics where
  endpoint : String
  type : EndpointType
  currentP95 : ℚ
  threshold : ℚ
  isBreaching : Bool
  dataPoints : ℕ
  lastAlertTime : Option ℤ
  cachedP95 : Option ℚ
  uncachedP95 : Option ℚ
  deriving DecidableEq

def metricsOf (endpoint : String) (tracker : EndpointLatencyTracker) : EndpointMetrics where
  endpoint := endpoint
  type := tracker.type
  currentP95 := computeP95 tracker.dataPoints
  threshold := tracker.sloThreshold
  isBreaching := decide (tracker.sloThreshold < computeP95 tracker.dataPoints)
  dataPoints := tracker.dataPoints.length
  lastAlertTime := if tracker.lastAlertTime = 0 then none else some tracker.lastAlertTime
  cachedP95 :=
    if tracker.cachedDataPoints = [] then none else some (computeP95 tracker.cachedDataPoints)
  uncachedP95 :=
    if tracker.uncachedDataPoints = [] then none else some (computeP95 tracker.uncachedDataPoints)

def getDetailedMetrics : LatencyMonitoringService × List EndpointMetrics :=
  let pruned := fun endpoint => (service.trackers endpoint).map (·.pruneStaleData now)
  ({ service with trackers := pruned },
    service.endpoints.filterMap fun endpoint => (pruned endpoint).map (metricsOf endpoint))

inductive Action
  | recordLatency (endpoint : String) (latencyMs : ℚ) (cached : Option Bool)
  | tick
  | startMonitoring
  | stopMonitoring
  | getDetailedMetrics

/-- A synchronous call, and the violations it hands to `sendAlerts`. -/
def exec (event : ℤ × Action) : LatencyMonitoringService × List SLOViolation :=
  match event.2 with
  | .recordLatency endpoint latencyMs cached =>
    service.recordLatency config event.1 endpoint latencyMs cached
  | .tick => if service.monitoring then service.checkSLOViolations event.1 else (service,[])
  | .startMonitoring => ({ service with monitoring := true },[])
  | .stopMonitoring => ({ service with monitoring := false },[])
  | .getDetailedMetrics => ((service.getDetailedMetrics event.1).1,[])

def step (event : ℤ × Action) (service : LatencyMonitoringService) : LatencyMonitoringService :=
  let (service,violations) := service.exec config event
  if violations = [] then service
  else { service with sent := (event.1,violations) :: service.sent }

def run (events : List (ℤ × Action)) : LatencyMonitoringService :=
  Runs.run (step config) events (initial config)

end LatencyMonitoringService

/-- More than one in twenty of the samples are over the threshold. -/
def TooSlow (threshold : ℚ) (points : List LatencyDataPoint) : Prop :=
  points.length < 20*points.countP fun point => decide (threshold < point.latency)

/-- The percentile is over the threshold exactly when more than one in twenty samples are. -/
theorem lt_computeP95_iff {threshold : ℚ} (h0 : 0 ≤ threshold) (points : List LatencyDataPoint) :
    threshold < computeP95 points ↔ TooSlow threshold points := by
  unfold computeP95 TooSlow
  by_cases hne : points = []
  · subst hne
    simpa [nearestRank] using h0
  · have hmap : points.map LatencyDataPoint.latency ≠ [] := by simpa using hne
    obtain ⟨v,hv⟩ := nearestRank_isSome (p := 95) (q := 100) (by decide) (by decide) hmap
    have hrank := lt_nearestRank_iff (b := threshold) (by decide) (by decide) hv
    rw [hv,Option.getD_some,hrank,List.length_map,List.countP_map]
    show 5*points.length < 100*points.countP _ ↔ points.length < 20*points.countP _
    simp only [Function.comp_def]
    omega

namespace EndpointLatencyTracker

variable {tracker : EndpointLatencyTracker} {now : ℤ} {endpoint : String}

@[simp] theorem inWindow_inWindow (points : List LatencyDataPoint) :
    tracker.inWindow now (tracker.inWindow now points) = tracker.inWindow now points :=
  kept_kept le_rfl

@[simp] theorem pruneStaleData_idem :
    (tracker.pruneStaleData now).pruneStaleData now = tracker.pruneStaleData now := by
  have h : ∀ points, tracker.inWindow now (tracker.inWindow now points) = tracker.inWindow now points :=
    inWindow_inWindow
  unfold inWindow at h
  simp [pruneStaleData,inWindow,h]

/-- The tracker may alert: no alert yet, or the last one longer ago than the cooldown. -/
def Rested (tracker : EndpointLatencyTracker) (now : ℤ) : Prop :=
  tracker.lastAlertTime = 0 ∨ tracker.alertCooldownMs < now-tracker.lastAlertTime

instance (tracker : EndpointLatencyTracker) (now : ℤ) : Decidable (tracker.Rested now) :=
  inferInstanceAs (Decidable (_ ∨ _))

/-- The tracker is over its threshold and may say so. -/
def Alarmed (tracker : EndpointLatencyTracker) (now : ℤ) : Prop :=
  tracker.sloThreshold < computeP95 (tracker.pruneStaleData now).dataPoints ∧ tracker.Rested now

instance (tracker : EndpointLatencyTracker) (now : ℤ) : Decidable (tracker.Alarmed now) :=
  inferInstanceAs (Decidable (_ ∧ _))

theorem shouldAlert_eq :
    tracker.shouldAlert now = (decide (tracker.Alarmed now),tracker.pruneStaleData now) := by
  refine Prod.ext ?_ rfl
  show (decide _ && (decide _ || decide _ && decide _)) = _
  rw [Bool.eq_iff_iff]
  simp only [Bool.and_eq_true,Bool.or_eq_true,decide_eq_true_eq]
  unfold Alarmed Rested
  tauto

/-- The alert about the samples in the window. -/
def report (tracker : EndpointLatencyTracker) (now : ℤ) (endpoint : String) : SLOViolation where
  endpoint := endpoint
  type := tracker.type
  currentP95 := computeP95 (tracker.pruneStaleData now).dataPoints
  threshold := tracker.sloThreshold
  dataPoints := (tracker.pruneStaleData now).dataPoints.length

theorem judge_of_alarmed (h : tracker.Alarmed now) :
    tracker.judge now endpoint =
      (some (tracker.report now endpoint),(tracker.pruneStaleData now).recordAlert now) := by
  unfold judge
  rw [shouldAlert_eq,decide_eq_true h]
  simp only [calculateP95,getDataPointCount,pruneStaleData_idem]
  rfl

theorem judge_of_not_alarmed (h : ¬ tracker.Alarmed now) :
    tracker.judge now endpoint = (none,tracker.pruneStaleData now) := by
  unfold judge
  rw [shouldAlert_eq,decide_eq_false h]
  rfl

theorem judge_endpoint {v : SLOViolation} (h : (tracker.judge now endpoint).1 = some v) :
    v.endpoint = endpoint := by
  by_cases ha : tracker.Alarmed now
  · rw [judge_of_alarmed ha] at h
    rw [← Option.some.inj h]
    rfl
  · rw [judge_of_not_alarmed ha] at h
    exact absurd h (Option.some_ne_none v).symm

end EndpointLatencyTracker

namespace LatencyMonitoringService

section History

/-- The endpoint that a request is counted under, whenever it arrives. -/
def canonicalEndpoint (endpoint : String) : String :=
  if endpoint ∈ endpointMappings.map Prod.fst then endpoint
  else if isVaultItem endpoint then "/api/v1/vault/:id" else endpoint

/-- A sample, and whether it was answered from the cache, where that is known. -/
structure Sample where
  point : LatencyDataPoint
  cached : Option Bool
  deriving DecidableEq

def samplesOf (endpoint : String) : ℤ × Action → List Sample
  | (now,.recordLatency request latencyMs cached) =>
    if canonicalEndpoint request = endpoint then [⟨⟨now,latencyMs⟩,cached⟩] else []
  | _ => []

/-- All samples of the endpoint since the start, oldest first. -/
def samples (events : List (ℤ × Action)) (endpoint : String) : List Sample :=
  events.flatMap (samplesOf endpoint)

/-- The endpoint is one of the mapped ones or has been sampled before. -/
def Known (events : List (ℤ × Action)) (endpoint : String) : Prop :=
  endpoint ∈ endpointMappings.map Prod.fst ∨ samples events endpoint ≠ []

def window (config : SLOConfig) (now : ℤ) (xs : List Sample) : List LatencyDataPoint :=
  kept LatencyDataPoint.timestamp config.evaluationWindowMs now (xs.map Sample.point)

variable {events : List (ℤ × Action)} {endpoint : String} {event : ℤ × Action}

theorem samples_concat :
    samples (events ++ [event]) endpoint = samples events endpoint ++ samplesOf endpoint event := by
  simp [samples]

theorem Known.concat (h : Known events endpoint) : Known (events ++ [event]) endpoint := by
  refine h.imp id fun hne => ?_
  rw [samples_concat]
  simp [hne]

theorem canonicalEndpoint_cases (request : String) :
    canonicalEndpoint request ∈ endpointMappings.map Prod.fst ∨
      canonicalEndpoint request = request ∧ isVaultItem request = false := by
  unfold canonicalEndpoint
  split_ifs with hmapped hitem
  · exact Or.inl hmapped
  · exact Or.inl (by decide)
  · exact Or.inr ⟨rfl,Bool.eq_false_of_not_eq_true hitem⟩

/-- Nothing is ever counted under the path of a single vault. -/
theorem samples_item (hmapped : endpoint ∉ endpointMappings.map Prod.fst)
    (hitem : isVaultItem endpoint = true) : samples events endpoint = [] := by
  apply List.flatMap_eq_nil_iff.mpr
  intro event _
  unfold samplesOf
  split
  · rename_i request _ _ _
    refine if_neg fun he => ?_
    rcases canonicalEndpoint_cases request with h | ⟨h,hno⟩
    · exact hmapped (he ▸ h)
    · rw [← h,he,hitem] at hno
      exact Bool.noConfusion hno
  · rfl

end History

section Alerts

def AlertedAt (sent : List (ℤ × List SLOViolation)) (endpoint : String) (time : ℤ) : Prop :=
  ∃ violations, (time,violations) ∈ sent ∧ ∃ v ∈ violations, v.endpoint = endpoint

def Cooled (config : SLOConfig) (sent : List (ℤ × List SLOViolation)) (endpoint : String)
    (now : ℤ) : Prop := ∀ time, AlertedAt sent endpoint time → config.alertCooldownMs < now-time

/-- A tracker's last alert is the last one that was sent about its endpoint. -/
def Remembers (sent : List (ℤ × List SLOViolation)) (endpoint : String) (now last : ℤ) : Prop :=
  last = 0 ∧ (∀ time, ¬ AlertedAt sent endpoint time) ∨
    0 < last ∧ last ≤ now ∧ AlertedAt sent endpoint last ∧
      ∀ time, AlertedAt sent endpoint time → time ≤ last

variable {sent sent' : List (ℤ × List SLOViolation)} {endpoint : String} {now later last : ℤ}

theorem Remembers.cooled_iff {config : SLOConfig} (h : Remembers sent endpoint now last) :
    Cooled config sent endpoint later ↔
      last = 0 ∨ config.alertCooldownMs < later-last := by
  rcases h with ⟨h0,hno⟩ | ⟨hpos,-,hlast,hmax⟩
  · exact ⟨fun _ => Or.inl h0,fun _ time ht => absurd ht (hno time)⟩
  · constructor
    · intro hc
      exact Or.inr (hc last hlast)
    · intro hc time ht
      have hle := hmax time ht
      rcases hc with hc | hc
      · omega
      · omega

theorem Remembers.mono (h : Remembers sent endpoint now last) (hle : now ≤ later)
    (hsent : ∀ time, AlertedAt sent' endpoint time ↔ AlertedAt sent endpoint time) :
    Remembers sent' endpoint later last := by
  refine h.imp (fun hnone => ⟨hnone.1,fun time ht => hnone.2 time ((hsent time).mp ht)⟩) ?_
  intro hsome
  exact ⟨hsome.1,hsome.2.1.trans hle,(hsent last).mpr hsome.2.2.1,
    fun time ht => hsome.2.2.2 time ((hsent time).mp ht)⟩

theorem Remembers.alerted (h : Remembers sent endpoint now last) (hle : now ≤ later)
    (hpos : 0 < later)
    (hsent : ∀ time, AlertedAt sent' endpoint time ↔
      AlertedAt sent endpoint time ∨ time = later) : Remembers sent' endpoint later later := by
  refine Or.inr ⟨hpos,le_rfl,(hsent later).mpr (Or.inr rfl),fun time ht => ?_⟩
  rcases (hsent time).mp ht with hold | rfl
  · rcases h with ⟨-,hno⟩ | ⟨-,hlast,-,hmax⟩
    · exact absurd hold (hno time)
    · exact (hmax time hold).trans (hlast.trans hle)
  · exact le_rfl

end Alerts

section Trackers

variable {config : SLOConfig} {now later : ℤ} {endpoint : String} {xs : List Sample}
  {tracker : EndpointLatencyTracker}

/-- The tracker shows, from now on, what a look at all samples would show. -/
structure Tracks (config : SLOConfig) (now : ℤ) (endpoint : String) (xs : List Sample)
    (tracker : EndpointLatencyTracker) : Prop where
  type : tracker.type = endpointTypeOf endpoint
  threshold : tracker.sloThreshold = config.thresholdFor (endpointTypeOf endpoint)
  span : tracker.evaluationWindowMs = config.evaluationWindowMs
  cooldown : tracker.alertCooldownMs = config.alertCooldownMs
  all : Agree LatencyDataPoint.timestamp config.evaluationWindowMs now tracker.dataPoints
    (xs.map Sample.point)
  cached : Agree LatencyDataPoint.timestamp config.evaluationWindowMs now
    tracker.cachedDataPoints ((xs.filter fun x => decide (x.cached = some true)).map Sample.point)
  uncached : Agree LatencyDataPoint.timestamp config.evaluationWindowMs now
    tracker.uncachedDataPoints
    ((xs.filter fun x => decide (x.cached = some false)).map Sample.point)

theorem tracks_newTracker : Tracks config now endpoint [] (config.newTracker endpoint) :=
  ⟨rfl,rfl,rfl,rfl,Agree.refl _,Agree.refl _,Agree.refl _⟩

theorem Tracks.mono (h : Tracks config now endpoint xs tracker) (hle : now ≤ later) :
    Tracks config later endpoint xs tracker :=
  ⟨h.type,h.threshold,h.span,h.cooldown,h.all.mono hle,h.cached.mono hle,h.uncached.mono hle⟩

theorem Tracks.pruned (h : Tracks config now endpoint xs tracker) :
    Tracks config now endpoint xs (tracker.pruneStaleData now) := by
  obtain ⟨htype,hthreshold,hspan,hcooldown,hall,hcached,huncached⟩ := h
  refine ⟨htype,hthreshold,hspan,hcooldown,?_,?_,?_⟩
  · show Agree _ _ _ (tracker.inWindow now _) _
    rw [EndpointLatencyTracker.inWindow,hspan]
    exact hall.pruned
  · show Agree _ _ _ (tracker.inWindow now _) _
    rw [EndpointLatencyTracker.inWindow,hspan]
    exact hcached.pruned
  · show Agree _ _ _ (tracker.inWindow now _) _
    rw [EndpointLatencyTracker.inWindow,hspan]
    exact huncached.pruned

theorem Tracks.recorded (h : Tracks config now endpoint xs tracker) (latencyMs : ℚ)
    (cached : Option Bool) :
    Tracks config now endpoint (xs ++ [⟨⟨now,latencyMs⟩,cached⟩])
      (tracker.addLatencyMeasurement now latencyMs cached) := by
  obtain ⟨htype,hthreshold,hspan,hcooldown,hall,hcached,huncached⟩ := h
  apply Tracks.pruned
  refine ⟨htype,hthreshold,hspan,hcooldown,?_,?_,?_⟩
  · rw [List.map_append]
    exact hall.concat _
  · by_cases hc : cached = some true
    · simp only [hc,if_true,List.filter_append,List.map_append]
      exact hcached.concat _
    · simpa [hc] using hcached
  · by_cases hc : cached = some false
    · simp only [hc,if_true,List.filter_append,List.map_append]
      exact huncached.concat _
    · simpa [hc] using huncached

theorem Tracks.dataPoints (h : Tracks config now endpoint xs tracker) :
    (tracker.pruneStaleData now).dataPoints = window config now xs := by
  show tracker.inWindow now tracker.dataPoints = _
  rw [EndpointLatencyTracker.inWindow,h.span]
  exact h.all now le_rfl

/-- The alert that the samples in the window ask for. -/
def alertOn (config : SLOConfig) (endpoint : String) (points : List LatencyDataPoint) :
    SLOViolation where
  endpoint := endpoint
  type := endpointTypeOf endpoint
  currentP95 := computeP95 points
  threshold := config.thresholdFor (endpointTypeOf endpoint)
  dataPoints := points.length

theorem Tracks.report (h : Tracks config now endpoint xs tracker) :
    tracker.report now endpoint = alertOn config endpoint (window config now xs) := by
  simp only [EndpointLatencyTracker.report,alertOn,h.dataPoints,h.type,h.threshold]

/-- The tracker alerts exactly when the window is too slow and the last alert long ago. -/
theorem Tracks.alarmed_iff {sent : List (ℤ × List SLOViolation)} {before : ℤ}
    (hsane : config.Sane) (h : Tracks config now endpoint xs tracker)
    (hlast : Remembers sent endpoint before tracker.lastAlertTime) :
    tracker.Alarmed now ↔
      TooSlow (config.thresholdFor (endpointTypeOf endpoint)) (window config now xs) ∧
        Cooled config sent endpoint now := by
  unfold EndpointLatencyTracker.Alarmed EndpointLatencyTracker.Rested
  rw [h.dataPoints,h.threshold,h.cooldown,lt_computeP95_iff (hsane.thresholdFor _),
    hlast.cooled_iff]

end Trackers

section Steps

variable {config : SLOConfig} {service : LatencyMonitoringService} {events : List (ℤ × Action)}
  {event : ℤ × Action} {endpoint : String} {before : ℤ} {sent : List (ℤ × List SLOViolation)}

/-- What an action does to the tracker of one endpoint, and the alert it gives about it. -/
def visit (config : SLOConfig) (monitoring : Bool) (event : ℤ × Action) (endpoint : String)
    (tracker : Option EndpointLatencyTracker) :
    Option EndpointLatencyTracker × Option SLOViolation :=
  match event.2, tracker with
  | .recordLatency request latencyMs cached, some tracker =>
    if canonicalEndpoint request = endpoint then
      let judged := (tracker.addLatencyMeasurement event.1 latencyMs cached).judge event.1 endpoint
      (some judged.2,judged.1)
    else (some tracker,none)
  | .recordLatency request latencyMs cached, none =>
    if canonicalEndpoint request = endpoint then
      (some ((config.newTracker endpoint).addLatencyMeasurement event.1 latencyMs cached),none)
    else (none,none)
  | .tick, some tracker =>
    if monitoring then (some (tracker.judge event.1 endpoint).2,(tracker.judge event.1 endpoint).1)
    else (some tracker,none)
  | .getDetailedMetrics, some tracker => (some (tracker.pruneStaleData event.1),none)
  | _, tracker => (tracker,none)

/-- Which endpoints an action judges: the sampled one, where it had a tracker before the sample,
or all that have one at a tick of the running timer. -/
def Judges (monitoring : Bool) (events : List (ℤ × Action)) (endpoint : String) : Action → Prop
  | .recordLatency request _ _ => canonicalEndpoint request = endpoint ∧ Known events endpoint
  | .tick => monitoring = true ∧ Known events endpoint
  | _ => False

/-- What is known of the entry of one endpoint in the map. -/
structure Entry (config : SLOConfig) (events : List (ℤ × Action)) (now : ℤ)
    (sent : List (ℤ × List SLOViolation)) (endpoint : String)
    (tracker : Option EndpointLatencyTracker) : Prop where
  known : tracker.isSome = true ↔ Known events endpoint
  tracks : ∀ t, tracker = some t → Tracks config now endpoint (samples events endpoint) t
  remembers : ∀ t, tracker = some t → Remembers sent endpoint now t.lastAlertTime
  silent : tracker = none → ∀ time, ¬ AlertedAt sent endpoint time

/-- The conditions for an alert about an endpoint. -/
structure Calls (config : SLOConfig) (monitoring : Bool) (events : List (ℤ × Action))
    (sent : List (ℤ × List SLOViolation)) (event : ℤ × Action) (endpoint : String) : Prop where
  judges : Judges monitoring events endpoint event.2
  tooSlow : TooSlow (config.thresholdFor (endpointTypeOf endpoint))
    (window config event.1 (samples (events ++ [event]) endpoint))
  cooled : Cooled config sent endpoint event.1

theorem judge_fst {tracker : EndpointLatencyTracker} {xs : List Sample} {now : ℤ}
    (hsane : config.Sane) (h : Tracks config now endpoint xs tracker)
    (hlast : Remembers sent endpoint before tracker.lastAlertTime) (v : SLOViolation) :
    (tracker.judge now endpoint).1 = some v ↔
      (TooSlow (config.thresholdFor (endpointTypeOf endpoint)) (window config now xs) ∧
        Cooled config sent endpoint now) ∧ v = alertOn config endpoint (window config now xs) := by
  rw [← h.alarmed_iff hsane hlast]
  by_cases ha : tracker.Alarmed now
  · rw [EndpointLatencyTracker.judge_of_alarmed ha,h.report]
    simp [ha,eq_comm]
  · rw [EndpointLatencyTracker.judge_of_not_alarmed ha]
    simp [ha]

theorem calls_iff {monitoring : Bool} {e : ℤ × Action}
    (hj : Judges monitoring events endpoint e.2) :
    Calls config monitoring events sent e endpoint ↔
      TooSlow (config.thresholdFor (endpointTypeOf endpoint))
        (window config e.1 (samples (events ++ [e]) endpoint)) ∧
      Cooled config sent endpoint e.1 :=
  ⟨fun h => ⟨h.tooSlow,h.cooled⟩,fun h => ⟨hj,h.1,h.2⟩⟩

theorem samples_recorded {request : String} {latencyMs : ℚ} {cached : Option Bool} {now : ℤ}
    (h : canonicalEndpoint request = endpoint) :
    samples (events ++ [(now,.recordLatency request latencyMs cached)]) endpoint =
      samples events endpoint ++ [⟨⟨now,latencyMs⟩,cached⟩] := by
  rw [samples_concat]
  simp [samplesOf,h]

theorem samples_unsampled (h : samplesOf endpoint event = []) :
    samples (events ++ [event]) endpoint = samples events endpoint := by
  rw [samples_concat,h,List.append_nil]

theorem not_calls {monitoring : Bool} {v w : SLOViolation}
    (h : ¬ Judges monitoring events endpoint event.2) :
    none = some v ↔ Calls config monitoring events sent event endpoint ∧ v = w :=
  ⟨fun he => absurd he (Option.some_ne_none v).symm,fun hc => absurd hc.1.judges h⟩

theorem visit_alert (hsane : config.Sane) (hclock : before ≤ event.1) {monitoring : Bool}
    {tracker : Option EndpointLatencyTracker}
    (h : Entry config events before sent endpoint tracker) (v : SLOViolation) :
    (visit config monitoring event endpoint tracker).2 = some v ↔
      Calls config monitoring events sent event endpoint ∧
        v = alertOn config endpoint
          (window config event.1 (samples (events ++ [event]) endpoint)) := by
  obtain ⟨now,action⟩ := event
  cases tracker with
  | none =>
    have hno : ¬ Known events endpoint := fun hk => Bool.noConfusion (h.known.mpr hk)
    have hnone : (visit config monitoring (now,action) endpoint none).2 = none := by
      cases action with
      | recordLatency request latencyMs cached =>
        by_cases hreq : canonicalEndpoint request = endpoint <;> simp [visit,hreq]
      | _ => rfl
    rw [hnone]
    apply not_calls
    cases action with
    | recordLatency request latencyMs cached => exact fun hj => hno hj.2
    | tick => exact fun hj => hno hj.2
    | _ => exact id
  | some tracker =>
    have hknown : Known events endpoint := h.known.mp rfl
    have htracks := (h.tracks tracker rfl).mono hclock
    have hlast := h.remembers tracker rfl
    cases action with
    | recordLatency request latencyMs cached =>
      by_cases hreq : canonicalEndpoint request = endpoint
      · have hadd := htracks.recorded latencyMs cached
        rw [← samples_recorded hreq] at hadd
        have hj : Judges monitoring events endpoint (.recordLatency request latencyMs cached) :=
          ⟨hreq,hknown⟩
        rw [calls_iff (e := (now,.recordLatency request latencyMs cached)) hj,
          ← judge_fst hsane hadd hlast v]
        simp only [visit,hreq,if_true]
      · simp only [visit,hreq,if_false]
        exact not_calls fun hj => hreq hj.1
    | tick =>
      cases monitoring with
      | true =>
        have hxs : samples (events ++ [(now,.tick)]) endpoint = samples events endpoint :=
          samples_unsampled rfl
        have hj : Judges true events endpoint .tick := ⟨rfl,hknown⟩
        rw [← hxs] at htracks
        rw [calls_iff (e := (now,.tick)) hj,← judge_fst hsane htracks hlast v]
        rfl
      | false => exact not_calls fun hj => Bool.false_ne_true hj.1
    | _ => exact not_calls id

section Entries

variable {sent' : List (ℤ × List SLOViolation)} {tracker : EndpointLatencyTracker}
  {xs : List Sample} {now : ℤ}

theorem Tracks.judged (h : Tracks config now endpoint xs tracker) :
    Tracks config now endpoint xs (tracker.judge now endpoint).2 := by
  have hp := h.pruned
  by_cases ha : tracker.Alarmed now
  · rw [EndpointLatencyTracker.judge_of_alarmed ha]
    exact ⟨hp.type,hp.threshold,hp.span,hp.cooldown,hp.all,hp.cached,hp.uncached⟩
  · rw [EndpointLatencyTracker.judge_of_not_alarmed ha]
    exact hp

theorem Remembers.judged (h : Remembers sent endpoint before tracker.lastAlertTime)
    (hclock : before ≤ now) (hpos : 0 < now)
    (hsent : ∀ time, AlertedAt sent' endpoint time ↔ AlertedAt sent endpoint time ∨
      time = now ∧ ∃ v, (tracker.judge now endpoint).1 = some v) :
    Remembers sent' endpoint now (tracker.judge now endpoint).2.lastAlertTime := by
  by_cases ha : tracker.Alarmed now
  · rw [EndpointLatencyTracker.judge_of_alarmed ha] at hsent ⊢
    exact h.alerted hclock hpos fun time => by simpa using hsent time
  · rw [EndpointLatencyTracker.judge_of_not_alarmed ha] at hsent ⊢
    exact h.mono hclock fun time => by simpa using hsent time

theorem Entry.unjudged {after : List (ℤ × Action)} {tracker : Option EndpointLatencyTracker}
    (h : Entry config events before sent endpoint tracker)
    (hxs : samples after endpoint = samples events endpoint) (hclock : before ≤ now)
    (hsent : ∀ time, AlertedAt sent' endpoint time ↔ AlertedAt sent endpoint time) :
    Entry config after now sent' endpoint tracker := by
  refine ⟨?_,fun t ht => ?_,fun t ht => (h.remembers t ht).mono hclock hsent,
    fun hnone time ht => h.silent hnone time ((hsent time).mp ht)⟩
  · rw [h.known,Known,Known,hxs]
  · rw [hxs]
    exact (h.tracks t ht).mono hclock

theorem Entry.some {after : List (ℤ × Action)} (hk : Known after endpoint)
    (ht : Tracks config now endpoint (samples after endpoint) tracker)
    (hr : Remembers sent' endpoint now tracker.lastAlertTime) :
    Entry config after now sent' endpoint (some tracker) := by
  refine ⟨⟨fun _ => hk,fun _ => rfl⟩,?_,?_,fun h => absurd h (Option.some_ne_none _)⟩
  · intro t h
    obtain rfl := Option.some.inj h
    exact ht
  · intro t h
    obtain rfl := Option.some.inj h
    exact hr

theorem visit_entry (hclock : before ≤ event.1) (hpos : 0 < event.1) {monitoring : Bool}
    {tracker : Option EndpointLatencyTracker}
    (h : Entry config events before sent endpoint tracker)
    (hsent : ∀ time, AlertedAt sent' endpoint time ↔ AlertedAt sent endpoint time ∨
      time = event.1 ∧ ∃ v, (visit config monitoring event endpoint tracker).2 = some v) :
    Entry config (events ++ [event]) event.1 sent' endpoint
      (visit config monitoring event endpoint tracker).1 := by
  obtain ⟨now,action⟩ := event
  have hquiet : (visit config monitoring (now,action) endpoint tracker).2 = none →
      ∀ time, AlertedAt sent' endpoint time ↔ AlertedAt sent endpoint time := by
    intro hnone time
    rw [hsent time,hnone]
    simp
  cases tracker with
  | none =>
    cases action with
    | recordLatency request latencyMs cached =>
      by_cases hreq : canonicalEndpoint request = endpoint
      · simp only [visit,hreq,if_true] at hquiet ⊢
        have hxs : samples (events ++ [(now,.recordLatency request latencyMs cached)]) endpoint =
            samples events endpoint ++ [⟨⟨now,latencyMs⟩,cached⟩] := samples_recorded hreq
        have hold : samples events endpoint = [] := by
          by_contra hne
          exact Bool.noConfusion (h.known.mpr (Or.inr hne))
        have hnew : Tracks config now endpoint [] (config.newTracker endpoint) :=
          tracks_newTracker
        apply Entry.some
        · exact Or.inr (by rw [hxs]; simp)
        · rw [hxs,hold]
          exact hnew.recorded latencyMs cached
        · exact Or.inl ⟨rfl,fun time ht => h.silent rfl time ((hquiet trivial time).mp ht)⟩
      · simp only [visit,hreq,if_false] at hquiet ⊢
        exact h.unjudged (samples_unsampled (if_neg hreq)) hclock (hquiet trivial)
    | _ => exact h.unjudged (samples_unsampled rfl) hclock (hquiet rfl)
  | some tracker =>
    have hknown : Known events endpoint := h.known.mp rfl
    have htracks := (h.tracks tracker rfl).mono hclock
    have hlast := h.remembers tracker rfl
    cases action with
    | recordLatency request latencyMs cached =>
      by_cases hreq : canonicalEndpoint request = endpoint
      · have hadd := htracks.recorded latencyMs cached
        rw [← samples_recorded hreq] at hadd
        simp only [visit,hreq,if_true] at hsent ⊢
        exact Entry.some hknown.concat hadd.judged (Remembers.judged hlast hclock hpos hsent)
      · simp only [visit,hreq,if_false] at hquiet ⊢
        exact h.unjudged (samples_unsampled (if_neg hreq)) hclock (hquiet trivial)
    | tick =>
      have hxs : samples (events ++ [(now,.tick)]) endpoint = samples events endpoint :=
        samples_unsampled rfl
      cases monitoring with
      | true =>
        rw [← hxs] at htracks
        exact Entry.some hknown.concat htracks.judged (Remembers.judged hlast hclock hpos hsent)
      | false => exact h.unjudged hxs hclock (hquiet rfl)
    | getDetailedMetrics =>
      have hxs : samples (events ++ [(now,.getDetailedMetrics)]) endpoint =
          samples events endpoint := samples_unsampled rfl
      rw [← hxs] at htracks
      exact Entry.some hknown.concat htracks.pruned (hlast.mono hclock (hquiet rfl))
    | _ => exact h.unjudged (samples_unsampled rfl) hclock (hquiet rfl)

end Entries

section Service

/-- The service holds, for every endpoint, an entry that mirrors the events so far. -/
structure Mirrors (config : SLOConfig) (events : List (ℤ × Action)) (now : ℤ)
    (service : LatencyMonitoringService) : Prop where
  keys : ∀ endpoint, endpoint ∈ service.endpoints ↔ (service.trackers endpoint).isSome = true
  entries : ∀ endpoint,
    Entry config events now service.sent endpoint (service.trackers endpoint)

theorem Mirrors.normalizeEndpoint (h : Mirrors config events before service) (request : String) :
    service.normalizeEndpoint request = canonicalEndpoint request := by
  unfold LatencyMonitoringService.normalizeEndpoint canonicalEndpoint
  have hknown := (h.entries request).known
  by_cases hmapped : request ∈ endpointMappings.map Prod.fst
  · rw [if_pos (hknown.mpr (Or.inl hmapped)),if_pos hmapped]
  · rw [if_neg hmapped]
    by_cases hitem : isVaultItem request = true
    · have hno : ¬ (service.trackers request).isSome = true := by
        rw [hknown,Known,samples_item hmapped hitem]
        simp [hmapped]
      rw [if_neg hno]
    · rw [if_neg hitem]
      split_ifs <;> rfl

structure Visited (config : SLOConfig) (event : ℤ × Action) (service after : LatencyMonitoringService)
    (violations : List SLOViolation) : Prop where
  trackers : ∀ endpoint, after.trackers endpoint =
    (visit config service.monitoring event endpoint (service.trackers endpoint)).1
  violations : ∀ v, v ∈ violations ↔ (visit config service.monitoring event v.endpoint
    (service.trackers v.endpoint)).2 = some v
  keys : ∀ endpoint, endpoint ∈ after.endpoints ↔ (after.trackers endpoint).isSome = true
  sent : after.sent = service.sent

theorem recordLatency_known {now : ℤ} {request : String} {latencyMs : ℚ} {cached : Option Bool}
    {tracker : EndpointLatencyTracker} (hn : service.normalizeEndpoint request = endpoint)
    (ht : service.trackers endpoint = some tracker) :
    service.recordLatency config now request latencyMs cached =
      (service.setTracker endpoint
          ((tracker.addLatencyMeasurement now latencyMs cached).judge now endpoint).2,
        ((tracker.addLatencyMeasurement now latencyMs cached).judge now endpoint).1.toList) := by
  unfold LatencyMonitoringService.recordLatency
  simp only [hn,ht]

theorem recordLatency_new {now : ℤ} {request : String} {latencyMs : ℚ} {cached : Option Bool}
    (hn : service.normalizeEndpoint request = endpoint)
    (ht : service.trackers endpoint = none) :
    service.recordLatency config now request latencyMs cached =
      ({ service.setTracker endpoint
            ((config.newTracker endpoint).addLatencyMeasurement now latencyMs cached) with
          endpoints := service.endpoints ++ [endpoint] },[]) := by
  unfold LatencyMonitoringService.recordLatency
  simp only [hn,ht]

theorem recordLatency_visited (h : Mirrors config events before service) (now : ℤ)
    (request : String) (latencyMs : ℚ) (cached : Option Bool) :
    Visited config (now,.recordLatency request latencyMs cached) service
      (service.recordLatency config now request latencyMs cached).1
      (service.recordLatency config now request latencyMs cached).2 := by
  have hn := h.normalizeEndpoint request
  cases ht : service.trackers (canonicalEndpoint request) with
  | some tracker =>
    rw [recordLatency_known hn ht]
    refine ⟨fun endpoint => ?_,fun v => ?_,fun endpoint => ?_,rfl⟩
    · by_cases he : canonicalEndpoint request = endpoint
      · subst he
        simp [visit,ht,setTracker]
      · cases hte : service.trackers endpoint <;>
          simp [visit,he,setTracker,Function.update_of_ne (Ne.symm he),hte]
    · rw [Option.mem_toList]
      by_cases he : canonicalEndpoint request = v.endpoint
      · rw [← he,ht]
        simp [visit]
      · have hno : (visit config service.monitoring (now,.recordLatency request latencyMs cached)
            v.endpoint (service.trackers v.endpoint)).2 = none := by
          cases hte : service.trackers v.endpoint <;> simp [visit,he]
        rw [hno]
        exact ⟨fun hv => absurd (EndpointLatencyTracker.judge_endpoint hv).symm he,
          fun hv => absurd hv (Option.some_ne_none v).symm⟩
    · rw [show _ ∈ (service.setTracker _ _).endpoints ↔ endpoint ∈ service.endpoints from Iff.rfl,
        h.keys]
      by_cases he : endpoint = canonicalEndpoint request
      · subst he
        simp [ht,setTracker]
      · simp [setTracker,Function.update_of_ne he]
  | none =>
    rw [recordLatency_new hn ht]
    refine ⟨fun endpoint => ?_,fun v => ?_,fun endpoint => ?_,rfl⟩
    · by_cases he : canonicalEndpoint request = endpoint
      · subst he
        simp [visit,ht,setTracker]
      · cases hte : service.trackers endpoint <;>
          simp [visit,he,setTracker,Function.update_of_ne (Ne.symm he),hte]
    · have hno : (visit config service.monitoring (now,.recordLatency request latencyMs cached)
          v.endpoint (service.trackers v.endpoint)).2 = none ∨
          canonicalEndpoint request = v.endpoint := by
        by_cases he : canonicalEndpoint request = v.endpoint
        · exact Or.inr he
        · refine Or.inl ?_
          cases hte : service.trackers v.endpoint <;> simp [visit,he]
      rcases hno with hno | he
      · simp [hno]
      · rw [← he,ht]
        simp [visit]
    · by_cases he : endpoint = canonicalEndpoint request
      · subst he
        simp [setTracker]
      · simp [setTracker,he,h.keys]

theorem checkSLOViolations_visited (h : Mirrors config events before service) (now : ℤ)
    (hm : service.monitoring = true) :
    Visited config (now,.tick) service (service.checkSLOViolations now).1
      (service.checkSLOViolations now).2 := by
  have hvisit : ∀ endpoint, visit config service.monitoring (now,.tick) endpoint
      (service.trackers endpoint) =
      ((service.trackers endpoint).map fun tracker => (tracker.judge now endpoint).2,
        (service.trackers endpoint).bind fun tracker => (tracker.judge now endpoint).1) := by
    intro endpoint
    cases service.trackers endpoint <;> simp [visit,hm]
  refine ⟨fun endpoint => ?_,fun v => ?_,fun endpoint => ?_,rfl⟩
  · rw [hvisit]
    simp [checkSLOViolations,Function.comp_def]
  · rw [hvisit]
    simp only [checkSLOViolations,List.mem_filterMap,Option.bind_map,Function.comp_def]
    constructor
    · rintro ⟨endpoint,-,he⟩
      obtain ⟨tracker,-,hv⟩ := Option.bind_eq_some_iff.mp he
      rw [EndpointLatencyTracker.judge_endpoint hv]
      exact he
    · intro hv
      obtain ⟨tracker,ht,-⟩ := Option.bind_eq_some_iff.mp hv
      exact ⟨v.endpoint,(h.keys _).mpr (by rw [ht]; rfl),hv⟩
  · show endpoint ∈ service.endpoints ↔ _
    rw [h.keys]
    simp [checkSLOViolations]

theorem exec_visited (h : Mirrors config events before service) (event : ℤ × Action) :
    Visited config event service (service.exec config event).1 (service.exec config event).2 := by
  obtain ⟨now,action⟩ := event
  cases action with
  | recordLatency request latencyMs cached =>
    exact recordLatency_visited h now request latencyMs cached
  | tick =>
    by_cases hm : service.monitoring = true
    · simp only [exec,hm,if_true]
      exact checkSLOViolations_visited h now hm
    · simp only [exec,hm]
      refine ⟨fun endpoint => ?_,fun v => ?_,h.keys,rfl⟩
      · cases ht : service.trackers endpoint <;> simp [visit,hm,ht]
      · cases service.trackers v.endpoint <;> simp [visit,hm]
  | getDetailedMetrics =>
    refine ⟨fun endpoint => ?_,fun v => ?_,fun endpoint => ?_,rfl⟩
    · show (service.trackers endpoint).map _ = _
      cases service.trackers endpoint <;> rfl
    · cases service.trackers v.endpoint <;> simp [exec,visit]
    · show endpoint ∈ service.endpoints ↔ ((service.trackers endpoint).map _).isSome = true
      rw [h.keys,Option.isSome_map]
  | _ =>
    refine ⟨fun endpoint => ?_,fun v => ?_,h.keys,rfl⟩
    · cases ht : service.trackers endpoint <;> simp [exec,visit,ht]
    · cases ht : service.trackers v.endpoint <;> simp [exec,visit]

theorem visit_endpoint {monitoring : Bool} {tracker : Option EndpointLatencyTracker}
    {v : SLOViolation} (h : (visit config monitoring event endpoint tracker).2 = some v) :
    v.endpoint = endpoint := by
  obtain ⟨now,action⟩ := event
  cases tracker with
  | none =>
    cases action with
    | recordLatency request latencyMs cached =>
      by_cases hreq : canonicalEndpoint request = endpoint <;> simp [visit,hreq] at h
    | _ => exact absurd h (Option.some_ne_none v).symm
  | some tracker =>
    cases action with
    | recordLatency request latencyMs cached =>
      by_cases hreq : canonicalEndpoint request = endpoint
      · simp only [visit,hreq,if_true] at h
        exact EndpointLatencyTracker.judge_endpoint h
      · simp [visit,hreq] at h
    | tick =>
      cases monitoring with
      | true => exact EndpointLatencyTracker.judge_endpoint h
      | false => exact absurd h (Option.some_ne_none v).symm
    | _ => exact absurd h (Option.some_ne_none v).symm

/-- What is sent is remembered with the time of the action. -/
theorem alertedAt_step (h : Mirrors config events before service) (time : ℤ) :
    AlertedAt (step config event service).sent endpoint time ↔
      AlertedAt service.sent endpoint time ∨ time = event.1 ∧
        ∃ v, (visit config service.monitoring event endpoint (service.trackers endpoint)).2 =
          some v := by
  have hv := exec_visited h event
  have hnew : (∃ v ∈ (service.exec config event).2, v.endpoint = endpoint) ↔
      ∃ v, (visit config service.monitoring event endpoint (service.trackers endpoint)).2 =
        some v := by
    constructor
    · rintro ⟨v,hmem,rfl⟩
      exact ⟨v,(hv.violations v).mp hmem⟩
    · rintro ⟨v,hsome⟩
      obtain rfl := visit_endpoint hsome
      exact ⟨v,(hv.violations v).mpr hsome,rfl⟩
  rw [← hnew]
  unfold step AlertedAt
  by_cases hnil : (service.exec config event).2 = []
  · simp [hnil,hv.sent]
  · simp only [hnil,if_false,List.mem_cons,Prod.mk.injEq,hv.sent]
    constructor
    · rintro ⟨vs,⟨rfl,rfl⟩ | hold,hmem⟩
      · exact Or.inr ⟨rfl,hmem⟩
      · exact Or.inl ⟨vs,hold,hmem⟩
    · rintro (⟨vs,hold,hmem⟩ | ⟨rfl,hmem⟩)
      · exact ⟨vs,Or.inr hold,hmem⟩
      · exact ⟨_,Or.inl ⟨rfl,rfl⟩,hmem⟩

theorem Mirrors.step (h : Mirrors config events before service) (hclock : before ≤ event.1)
    (hpos : 0 < event.1) :
    Mirrors config (events ++ [event]) event.1 (step config event service) := by
  have hv := exec_visited h event
  have hstep : (LatencyMonitoringService.step config event service).trackers =
      (service.exec config event).1.trackers ∧
      (LatencyMonitoringService.step config event service).endpoints =
        (service.exec config event).1.endpoints := by
    unfold LatencyMonitoringService.step
    dsimp only
    split_ifs <;> exact ⟨rfl,rfl⟩
  refine ⟨fun endpoint => ?_,fun endpoint => ?_⟩
  · rw [hstep.1,hstep.2]
    apply hv.keys
  · rw [hstep.1,hv.trackers]
    exact visit_entry hclock hpos (h.entries endpoint) fun time => alertedAt_step h time

theorem Mirrors.mono (h : Mirrors config events before service) {now : ℤ} (hle : before ≤ now) :
    Mirrors config events now service :=
  ⟨h.keys,fun endpoint => (h.entries endpoint).unjudged rfl hle fun _ => Iff.rfl⟩

theorem mirrors_initial (config : SLOConfig) : Mirrors config [] 0 (initial config) := by
  refine ⟨fun endpoint => ?_,fun endpoint => ⟨?_,fun t ht => ?_,fun t ht => ?_,?_⟩⟩
  · by_cases h : endpoint ∈ endpointMappings.map Prod.fst <;> simp only [initial,h] <;> simp
  · by_cases h : endpoint ∈ endpointMappings.map Prod.fst <;>
      simp only [initial,h,Known,samples] <;> simp
  · simp only [initial] at ht
    split_ifs at ht with h
    obtain rfl := Option.some.inj ht
    apply tracks_newTracker
  · simp only [initial] at ht
    split_ifs at ht with h
    obtain rfl := Option.some.inj ht
    exact Or.inl ⟨rfl,fun time ⟨_,hmem,_⟩ => absurd hmem List.not_mem_nil⟩
  · exact fun _ time ⟨_,hmem,_⟩ => absurd hmem List.not_mem_nil

/-- The clock does not go back, and shows times after the epoch. -/
def Clock (events : List (ℤ × Action)) : Prop :=
  events.Pairwise (fun a b => a.1 ≤ b.1) ∧ ∀ event ∈ events, 0 < event.1

instance (events : List (ℤ × Action)) : Decidable (Clock events) :=
  inferInstanceAs (Decidable (_ ∧ _))

theorem run_mirrors (hclock : Clock events) {now : ℤ} (hpos : 0 < now)
    (hnow : ∀ event ∈ events, event.1 ≤ now) : Mirrors config events now (run config events) := by
  induction events using List.reverseRecOn generalizing now with
  | nil => exact (mirrors_initial config).mono hpos.le
  | append_singleton events event ih =>
    obtain ⟨hsorted,-,hbefore⟩ := List.pairwise_append.mp hclock.1
    have hlast := hclock.2 event (by simp)
    have hprev := ih ⟨hsorted,fun e he => hclock.2 e (by simp [he])⟩ hlast
      fun e he => hbefore e he event (by simp)
    have hnext := hprev.step le_rfl hlast
    rw [run,Runs.run_concat]
    exact hnext.mono (hnow event (by simp))

/-- Alerts are exact: after any history, an action alerts about an endpoint if and only if
it judges that endpoint, more than one in twenty of all the samples of the endpoint in the
window were over its threshold, and the cooldown has passed since every earlier alert about
it; and the alert names that endpoint's percentile, threshold and number of samples. -/
theorem alerts_exact (hsane : config.Sane) (hclock : Clock (events ++ [event]))
    (v : SLOViolation) :
    v ∈ ((run config events).exec config event).2 ↔
      Calls config (run config events).monitoring events (run config events).sent event
          v.endpoint ∧
        v = alertOn config v.endpoint
          (window config event.1 (samples (events ++ [event]) v.endpoint)) := by
  obtain ⟨hsorted,-,hbefore⟩ := List.pairwise_append.mp hclock.1
  have hlast := hclock.2 event (by simp)
  have hmirrors : Mirrors config events event.1 (run config events) :=
    run_mirrors ⟨hsorted,fun e he => hclock.2 e (by simp [he])⟩ hlast
      fun e he => hbefore e he event (by simp)
  rw [(exec_visited hmirrors event).violations]
  exact visit_alert hsane le_rfl (hmirrors.entries v.endpoint) v

/-- One slow answer of the health check, then nothing but a tick of the timer. -/
def slowHealth : List (ℤ × Action) :=
  [(1000,.startMonitoring),(1000,.recordLatency "/health" 300 none)]

def healthAlert : SLOViolation := ⟨"/health",.READ,300,200,1⟩

theorem alerts_exact_slowHealth :
    healthAlert ∈ ((run {} slowHealth).exec {} (1000000,.tick)).2 ↔
      Calls {} (run {} slowHealth).monitoring slowHealth (run {} slowHealth).sent
          (1000000,.tick) "/health" ∧
        healthAlert = alertOn {} "/health"
          (window {} 1000000 (samples (slowHealth ++ [(1000000,.tick)]) "/health")) :=
  alerts_exact ⟨by norm_num,by norm_num⟩ (by decide) healthAlert

end Service

end Steps

end LatencyMonitoringService

end YieldVault.Backend
